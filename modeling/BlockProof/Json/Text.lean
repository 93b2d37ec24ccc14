import BlockProof.Decimal

/-!
# JSON values and their text

A value keeps what its text says: numbers as numerals, members in order and repeated as often as
they are written. A string literal may hold half of an escaped pair that stands for no character;
such a literal has no text. The words of a text move a machine that keeps the containers part way
through on a stack of its own, so values may nest to any depth. The written form is compact: no
blanks, members in order, a sign on every exponent.

* `Json`, `Json.Literal`   a value, and the text of a string literal if it has one;
* `Token`, `readToken`     one word, and what follows it, which is shorter;
* `readNumeral`            a number: no zero in front of other digits, a digit on each side of the
                           point;
* `readLiteral`            a string, from after its first quote to after its last;
* `Stage`, `Stage.step`    what may come next, and the stage after a word, if that word may come;
* `Json.parse`             the value that a whole text stands for;
* `Json.chars`, `Json.write`   a value as text.
-/

namespace BlockProof

/-! ## values -/

/-- the text of a string literal; `none` if an escape in it is half of a pair -/
abbrev Json.Literal := Option String

inductive Json where
  | null
  | bool (b : Bool)
  | number (n : Decimal.Numeral)
  | string (s : Json.Literal)
  | array (items : List Json)
  | object (members : List (Json.Literal × Json))

instance : Inhabited Json := ⟨.null⟩

end BlockProof

namespace BlockProof.Json

/-! ## words -/

open Decimal

inductive Token where
  | openObject
  | closeObject
  | openArray
  | closeArray
  | comma
  | colon
  | null
  | bool (b : Bool)
  | number (n : Numeral)
  | string (s : Literal)
deriving DecidableEq

/-! ### blanks -/

def isBlank (c : Char) : Bool := c = ' ' || c = '\t' || c = '\n' || c = '\r'

def skipBlanks (cs : List Char) : List Char := cs.dropWhile isBlank

/-! ### numbers -/

def digitValue (c : Char) : Nat := c.toNat - 48

def ofDigits (ds : List Nat) : Nat := ds.foldl (fun n d => 10 * n + d) 0

def readDigits (cs : List Char) : Option (List Nat × List Char) :=
  let ds := cs.takeWhile Char.isDigit
  if ds.isEmpty then none else some (ds.map digitValue, cs.dropWhile Char.isDigit)

def readWhole (cs : List Char) : Option (Nat × List Char) := do
  let (ds, rest) ← readDigits cs
  if ds.head? = some 0 ∧ 1 < ds.length then none else some (ofDigits ds, rest)

def readFraction : List Char → Option (List Nat × List Char)
  | '.' :: cs => readDigits cs
  | cs => some ([], cs)

def readSign : List Char → Bool × List Char
  | '-' :: cs => (true, cs)
  | '+' :: cs => (false, cs)
  | cs => (false, cs)

def readPower (cs : List Char) : Option (Option Int × List Char) := do
  let (negative, cs) := readSign cs
  let (ds, rest) ← readDigits cs
  let e : Int := ofDigits ds
  return (some (if negative then -e else e), rest)

def readExponent : List Char → Option (Option Int × List Char)
  | 'e' :: cs => readPower cs
  | 'E' :: cs => readPower cs
  | cs => some (none, cs)

def readUnsigned (negative : Bool) (cs : List Char) : Option (Numeral × List Char) := do
  let (whole, cs) ← readWhole cs
  let (fraction, cs) ← readFraction cs
  let (exponent, cs) ← readExponent cs
  return (⟨negative, whole, fraction, exponent⟩, cs)

def readNumeral : List Char → Option (Numeral × List Char)
  | '-' :: cs => readUnsigned true cs
  | cs => readUnsigned false cs

/-! ### strings -/

def hexValue? (c : Char) : Option Nat :=
  if '0' ≤ c ∧ c ≤ '9' then some (c.toNat - 48)
  else if 'a' ≤ c ∧ c ≤ 'f' then some (c.toNat - 87)
  else if 'A' ≤ c ∧ c ≤ 'F' then some (c.toNat - 55)
  else none

def hexUnit? (a b c d : Char) : Option Nat := do
  let a ← hexValue? a
  let b ← hexValue? b
  let c ← hexValue? c
  let d ← hexValue? d
  return ((a * 16 + b) * 16 + c) * 16 + d

def escapeCode? (c : Char) : Option Nat :=
  if c = '"' ∨ c = '\\' ∨ c = '/' then some c.toNat
  else if c = 'b' then some 8
  else if c = 'f' then some 12
  else if c = 'n' then some 10
  else if c = 'r' then some 13
  else if c = 't' then some 9
  else none

/-- the codes in a string up to its closing quote, put in front of `done`, the newest first; control
characters must be escaped -/
def readCodes (done : List Nat) : List Char → Option (List Nat × List Char)
  | [] => none
  | '"' :: rest => some (done, rest)
  | '\\' :: 'u' :: a :: b :: c :: d :: rest =>
    match hexUnit? a b c d with
    | some n => readCodes (n :: done) rest
    | none => none
  | '\\' :: c :: rest =>
    match escapeCode? c with
    | some n => readCodes (n :: done) rest
    | none => none
  | c :: rest => if c.toNat < 32 then none else readCodes (c.toNat :: done) rest

/-- the first half of a pair -/
def isHighHalf (n : Nat) : Bool := 0xd800 ≤ n && n < 0xdc00

def isLowHalf (n : Nat) : Bool := 0xdc00 ≤ n && n < 0xe000

/-- the characters of codes that come with the newest first, put in front of `done`; a second half
must follow a first half at once -/
def joinHalves (done : List Char) : List Nat → Option (List Char)
  | [] => some done
  | [n] => if isLowHalf n || isHighHalf n then none else some (Char.ofNat n :: done)
  | n :: m :: rest =>
    if isLowHalf n then
      if isHighHalf m then
        joinHalves (Char.ofNat (0x10000 + (m - 0xd800) * 0x400 + (n - 0xdc00)) :: done) rest
      else none
    else if isHighHalf n then none
    else joinHalves (Char.ofNat n :: done) (m :: rest)

def readLiteral (cs : List Char) : Option (Literal × List Char) := do
  let (codes, rest) ← readCodes [] cs
  return ((joinHalves [] codes).map String.ofList, rest)

/-! ### readToken -/

/-- a word that does not start with a blank -/
def readToken : List Char → Option (Token × List Char)
  | '{' :: rest => some (.openObject, rest)
  | '}' :: rest => some (.closeObject, rest)
  | '[' :: rest => some (.openArray, rest)
  | ']' :: rest => some (.closeArray, rest)
  | ',' :: rest => some (.comma, rest)
  | ':' :: rest => some (.colon, rest)
  | 'n' :: 'u' :: 'l' :: 'l' :: rest => some (.null, rest)
  | 't' :: 'r' :: 'u' :: 'e' :: rest => some (.bool true, rest)
  | 'f' :: 'a' :: 'l' :: 's' :: 'e' :: rest => some (.bool false, rest)
  | '"' :: rest => (readLiteral rest).map fun (s, rest) => (.string s, rest)
  | cs => (readNumeral cs).map fun (n, rest) => (.number n, rest)

/-! ### what follows a word is shorter -/

theorem length_dropWhile_le {α : Type} (p : α → Bool) (l : List α) :
    (l.dropWhile p).length ≤ l.length := (List.dropWhile_sublist p).length_le

theorem length_skipBlanks_le (cs : List Char) : (skipBlanks cs).length ≤ cs.length :=
  length_dropWhile_le _ _

theorem length_lt_of_readDigits {cs rest : List Char} {ds : List Nat}
    (h : readDigits cs = some (ds, rest)) : rest.length < cs.length := by
  simp only [readDigits] at h
  split at h
  · cases h
  · next hne =>
    obtain ⟨-, rfl⟩ := Prod.mk.inj (Option.some.inj h)
    have hsplit : (cs.takeWhile Char.isDigit).length + (cs.dropWhile Char.isDigit).length =
        cs.length := by
      rw [← List.length_append, List.takeWhile_append_dropWhile]
    have hpos : 0 < (cs.takeWhile Char.isDigit).length := by
      apply List.length_pos_iff.2
      simpa using hne
    omega

theorem length_lt_of_readWhole {cs rest : List Char} {n : Nat}
    (h : readWhole cs = some (n, rest)) : rest.length < cs.length := by
  simp only [readWhole, Option.bind_eq_bind, Option.bind_eq_some_iff] at h
  obtain ⟨⟨ds, r⟩, hds, h⟩ := h
  split at h
  · cases h
  · obtain ⟨-, rfl⟩ := Prod.mk.inj (Option.some.inj h)
    exact length_lt_of_readDigits hds

theorem length_le_of_readFraction {cs rest : List Char} {ds : List Nat}
    (h : readFraction cs = some (ds, rest)) : rest.length ≤ cs.length := by
  unfold readFraction at h
  split at h
  · exact Nat.le_succ_of_le (Nat.le_of_lt (length_lt_of_readDigits h))
  · obtain ⟨-, rfl⟩ := Prod.mk.inj (Option.some.inj h)
    exact Nat.le_refl _

theorem length_readSign_le (cs : List Char) : (readSign cs).2.length ≤ cs.length := by
  unfold readSign
  split <;> simp

theorem length_lt_of_readPower {cs rest : List Char} {e : Option Int}
    (h : readPower cs = some (e, rest)) : rest.length < cs.length := by
  simp only [readPower, Option.bind_eq_bind, Option.bind_eq_some_iff] at h
  obtain ⟨⟨ds, r⟩, hds, h⟩ := h
  obtain ⟨-, rfl⟩ := Prod.mk.inj (Option.some.inj h)
  exact Nat.lt_of_lt_of_le (length_lt_of_readDigits hds) (length_readSign_le cs)

theorem length_le_of_readExponent {cs rest : List Char} {e : Option Int}
    (h : readExponent cs = some (e, rest)) : rest.length ≤ cs.length := by
  unfold readExponent at h
  split at h
  · exact Nat.le_succ_of_le (Nat.le_of_lt (length_lt_of_readPower h))
  · exact Nat.le_succ_of_le (Nat.le_of_lt (length_lt_of_readPower h))
  · obtain ⟨-, rfl⟩ := Prod.mk.inj (Option.some.inj h)
    exact Nat.le_refl _

theorem length_lt_of_readUnsigned {negative : Bool} {cs rest : List Char} {n : Numeral}
    (h : readUnsigned negative cs = some (n, rest)) : rest.length < cs.length := by
  simp only [readUnsigned, Option.bind_eq_bind, Option.bind_eq_some_iff] at h
  obtain ⟨⟨whole, r1⟩, hw, ⟨fraction, r2⟩, hf, ⟨exponent, r3⟩, he, h⟩ := h
  obtain ⟨-, rfl⟩ := Prod.mk.inj (Option.some.inj h)
  have h1 : r1.length < cs.length := length_lt_of_readWhole hw
  have h2 : r2.length ≤ r1.length := length_le_of_readFraction hf
  have h3 : r3.length ≤ r2.length := length_le_of_readExponent he
  exact Nat.lt_of_le_of_lt (Nat.le_trans h3 h2) h1

theorem length_lt_of_readNumeral {cs rest : List Char} {n : Numeral}
    (h : readNumeral cs = some (n, rest)) : rest.length < cs.length := by
  unfold readNumeral at h
  split at h
  · exact Nat.lt_succ_of_lt (length_lt_of_readUnsigned h)
  · exact length_lt_of_readUnsigned h

theorem length_le_of_readCodes {done codes : List Nat} {cs rest : List Char}
    (h : readCodes done cs = some (codes, rest)) : rest.length ≤ cs.length := by
  fun_induction readCodes done cs with
  | case1 => cases h
  | case2 done r =>
    obtain ⟨-, rfl⟩ := Prod.mk.inj (Option.some.inj h)
    simp
  | case3 done a b c d r n _ ih =>
    have := ih h
    simp only [List.length_cons]
    omega
  | case4 => cases h
  | case5 done c r _ n _ ih =>
    have := ih h
    simp only [List.length_cons]
    omega
  | case6 => cases h
  | case7 => cases h
  | case8 done c r _ _ _ _ ih =>
    have := ih h
    simp only [List.length_cons]
    omega

theorem length_le_of_readLiteral {cs rest : List Char} {s : Literal}
    (h : readLiteral cs = some (s, rest)) : rest.length ≤ cs.length := by
  simp only [readLiteral, Option.bind_eq_bind, Option.bind_eq_some_iff] at h
  obtain ⟨⟨codes, r⟩, hc, h⟩ := h
  obtain ⟨-, rfl⟩ := Prod.mk.inj (Option.some.inj h)
  exact length_le_of_readCodes hc

theorem length_lt_of_readToken {cs rest : List Char} {t : Token}
    (h : readToken cs = some (t, rest)) : rest.length < cs.length := by
  unfold readToken at h
  split at h
  case h_10 r =>
    obtain ⟨⟨s, r'⟩, hs, h⟩ := Option.map_eq_some_iff.1 h
    obtain ⟨-, rfl⟩ := Prod.mk.inj h
    exact Nat.lt_succ_of_le (length_le_of_readLiteral hs)
  case h_11 =>
    obtain ⟨⟨n, r'⟩, hn, h⟩ := Option.map_eq_some_iff.1 h
    obtain ⟨-, rfl⟩ := Prod.mk.inj h
    exact length_lt_of_readNumeral hn
  all_goals
    obtain ⟨-, rfl⟩ := Prod.mk.inj (Option.some.inj h)
    simp only [List.length_cons]
    omega

/-! ## from words to values -/

/-- a container that waits for a value; its parts come with the newest first -/
inductive Frame where
  | array (done : List Json)
  | object (done : List (Literal × Json)) (key : Literal)

/-- what may come next -/
inductive Stage where
  | value (frames : List Frame)
  /-- the first item of an array, or its end -/
  | firstItem (frames : List Frame)
  | afterItem (done : List Json) (frames : List Frame)
  /-- the first key of an object, or its end -/
  | firstKey (frames : List Frame)
  | key (done : List (Literal × Json)) (frames : List Frame)
  | colon (done : List (Literal × Json)) (key : Literal) (frames : List Frame)
  | afterMember (done : List (Literal × Json)) (frames : List Frame)
  | finished (v : Json)

namespace Stage

def put (v : Json) : List Frame → Stage
  | [] => finished v
  | .array done :: frames => afterItem (v :: done) frames
  | .object done k :: frames => afterMember ((k, v) :: done) frames

def enter (frames : List Frame) : Token → Option Stage
  | .null => some (put .null frames)
  | .bool b => some (put (.bool b) frames)
  | .number n => some (put (.number n) frames)
  | .string s => some (put (.string s) frames)
  | .openArray => some (firstItem frames)
  | .openObject => some (firstKey frames)
  | _ => none

def step : Stage → Token → Option Stage
  | value frames, t => enter frames t
  | firstItem frames, .closeArray => some (put (.array []) frames)
  | firstItem frames, t => enter (.array [] :: frames) t
  | afterItem done frames, .comma => some (value (.array done :: frames))
  | afterItem done frames, .closeArray => some (put (.array done.reverse) frames)
  | firstKey frames, .closeObject => some (put (.object []) frames)
  | firstKey frames, .string s => some (colon [] s frames)
  | key done frames, .string s => some (colon done s frames)
  | colon done s frames, .colon => some (value (.object done s :: frames))
  | afterMember done frames, .comma => some (key done frames)
  | afterMember done frames, .closeObject => some (put (.object done.reverse) frames)
  | _, _ => none

end Stage

def parseFrom (stage : Stage) (cs : List Char) : Option Json :=
  if (skipBlanks cs).isEmpty then
    match stage with
    | .finished v => some v
    | _ => none
  else
    match _h : readToken (skipBlanks cs) with
    | none => none
    | some (t, rest) =>
      match stage.step t with
      | none => none
      | some next => parseFrom next rest
termination_by cs.length
decreasing_by
  exact Nat.lt_of_lt_of_le (length_lt_of_readToken (by assumption)) (length_skipBlanks_le cs)

def parse (s : String) : Option Json := parseFrom (.value []) s.toList

/-! ## values as text -/

/-- the characters that stand for `c` in a string: quotes, backslashes and control characters are
escaped -/
def escape (c : Char) : List Char :=
  if c = '"' then ['\\', '"']
  else if c = '\\' then ['\\', '\\']
  else if c.toNat = 8 then ['\\', 'b']
  else if c.toNat = 9 then ['\\', 't']
  else if c.toNat = 10 then ['\\', 'n']
  else if c.toNat = 12 then ['\\', 'f']
  else if c.toNat = 13 then ['\\', 'r']
  else if c.toNat < 32 then
    ['\\', 'u', '0', '0', Nat.digitChar (c.toNat / 16), Nat.digitChar (c.toNat % 16)]
  else [c]

/-- a string between quotes; a literal without text is written as half of a pair -/
def quote : Literal → List Char
  | some s => '"' :: (s.toList.flatMap escape ++ ['"'])
  | none => "\"\\ud800\"".toList

mutual

def chars : Json → List Char
  | null => "null".toList
  | bool true => "true".toList
  | bool false => "false".toList
  | number n => n.text .plus
  | string s => quote s
  | array items => '[' :: (itemChars items ++ [']'])
  | object members => '{' :: (memberChars members ++ ['}'])

def itemChars : List Json → List Char
  | [] => []
  | [v] => chars v
  | v :: rest => chars v ++ ',' :: itemChars rest

def memberChars : List (Literal × Json) → List Char
  | [] => []
  | [(k, v)] => quote k ++ ':' :: chars v
  | (k, v) :: rest => quote k ++ ':' :: (chars v ++ ',' :: memberChars rest)

end

def write (v : Json) : String := String.ofList (chars v)

end BlockProof.Json
