import BlockProof.Json.Text

/-!
# Words read back as they were written

A numeral has no mark at its end: it is read up to the first character that cannot belong to it, so
it reads back in front of a text that starts with no such character. A string ends with its quote,
and reads back in front of any text. No written character is half of a pair.

* `NoDigit cs`, `NoFraction cs`, `NoNumeral cs`   texts that end what is read before them;
* `readWhole_digits`          the digits of a number, which has no zero in front;
* `readNumeral_text`          a numeral, whatever the sign of its exponent;
* `readLiteral_escapes`       a string, after its first quote;
* `readToken_text`, `readToken_quote`   numerals and strings as words;
* `skipBlanks_of_readToken`   no word starts with a blank.
-/

namespace BlockProof.Json

open Decimal

/-! ## digits -/

/-- `cs` does not go on with a digit -/
def NoDigit (cs : List Char) : Prop := ∀ c ∈ cs.head?, c.isDigit = false

theorem readDigits_append {ds rest : List Char} (hne : ds ≠ []) (hds : ∀ c ∈ ds, c.isDigit = true)
    (hrest : NoDigit rest) : readDigits (ds ++ rest) = some (ds.map digitValue, rest) := by
  have hstop : rest.takeWhile Char.isDigit = [] ∧ rest.dropWhile Char.isDigit = rest := by
    cases rest with
    | nil => exact ⟨rfl, rfl⟩
    | cons c cs =>
      have hc : ¬ c.isDigit = true := ne_true_of_eq_false (hrest c rfl)
      exact ⟨List.takeWhile_cons_of_neg hc, List.dropWhile_cons_of_neg hc⟩
  rw [readDigits, List.takeWhile_append_of_pos hds, List.dropWhile_append_of_pos hds, hstop.1,
    hstop.2, List.append_nil, if_neg (by rwa [List.isEmpty_iff])]

theorem digitValue_digitChar {d : Nat} (hd : d < 10) : digitValue (Nat.digitChar d) = d :=
  Nat.toNat_digitChar_sub_48_of_lt_ten hd

theorem digits_ne_nil (n : Nat) : digits n ≠ [] := Nat.toDigits_ne_nil

theorem isDigit_of_mem_digits {n : Nat} {c : Char} (hc : c ∈ digits n) : c.isDigit = true :=
  Nat.isDigit_of_mem_toDigits (by decide) (by decide) hc

theorem exists_digits_eq_cons (n : Nat) : ∃ c cs, digits n = c :: cs ∧ c.isDigit = true := by
  obtain ⟨c, cs, hcs⟩ := List.exists_cons_of_ne_nil (digits_ne_nil n)
  exact ⟨c, cs, hcs, isDigit_of_mem_digits (hcs ▸ List.mem_cons_self)⟩

theorem ofDigits_digits (n : Nat) : ofDigits ((digits n).map digitValue) = n := by
  rw [ofDigits, List.foldl_map]
  exact Nat.ofDigitChars_ten_toDigits

theorem head?_digits_ne_zero {n : Nat} (hn : n ≠ 0) :
    ((digits n).map digitValue).head? ≠ some 0 := by
  induction n using Nat.strongRecOn with
  | ind n ih =>
    by_cases hlt : n < 10
    · rw [digits, Nat.toDigits_of_lt_base hlt, List.map_singleton, digitValue_digitChar hlt]
      simpa using hn
    · have hfront := ih (n / 10) (by omega) (by omega)
      rw [digits, Nat.toDigits_of_base_le (by decide) (Nat.not_lt.mp hlt), ← digits]
      obtain ⟨c, cs, hcs⟩ := List.exists_cons_of_ne_nil (digits_ne_nil (n / 10))
      rw [hcs] at hfront ⊢
      exact hfront

theorem readWhole_digits (n : Nat) {rest : List Char} (hrest : NoDigit rest) :
    readWhole (digits n ++ rest) = some (n, rest) := by
  have hzero : ¬ (((digits n).map digitValue).head? = some 0 ∧
      1 < ((digits n).map digitValue).length) := by
    intro h
    by_cases hn : n = 0
    · subst hn
      exact absurd h.2 (by decide)
    · exact head?_digits_ne_zero hn h.1
  rw [readWhole, readDigits_append (digits_ne_nil n) (fun _ => isDigit_of_mem_digits) hrest]
  simp only [Option.bind_eq_bind, Option.bind_some]
  rw [if_neg hzero, ofDigits_digits]

/-! ## numerals -/

def NoFraction (cs : List Char) : Prop := ∀ c ∈ cs.head?, c.isDigit = false ∧ c ≠ '.'

def NoNumeral (cs : List Char) : Prop :=
  ∀ c ∈ cs.head?, c.isDigit = false ∧ c ≠ '.' ∧ c ≠ 'e' ∧ c ≠ 'E'

def fractionChars (ds : List Nat) : List Char :=
  if ds.isEmpty then [] else '.' :: ds.map Nat.digitChar

def exponentChars (sign : ExponentSign) (e : Option Int) : List Char := e.elim [] sign.exponent

theorem text_eq (sign : ExponentSign) (n : Numeral) :
    n.text sign = (if n.negative then ['-'] else []) ++
      (digits n.whole ++ (fractionChars n.fraction ++ exponentChars sign n.exponent)) := by
  obtain ⟨negative, whole, fraction, exponent⟩ := n
  cases exponent <;> simp [Numeral.text, fractionChars, exponentChars]

section
variable (sign : ExponentSign) {rest : List Char}

theorem NoFraction.noDigit (h : NoFraction rest) : NoDigit rest := fun c hc => (h c hc).1

theorem NoNumeral.noFraction (h : NoNumeral rest) : NoFraction rest :=
  fun c hc => ⟨(h c hc).1, (h c hc).2.1⟩

theorem readFraction_fractionChars {ds : List Nat} (hds : ∀ d ∈ ds, d < 10)
    (hrest : NoFraction rest) : readFraction (fractionChars ds ++ rest) = some (ds, rest) := by
  unfold fractionChars
  split
  · next hnil =>
    rw [List.isEmpty_iff.mp hnil, List.nil_append]
    unfold readFraction
    split
    · exact absurd rfl (hrest _ rfl).2
    · rfl
  · next hne =>
    have hdigit : ∀ c ∈ ds.map Nat.digitChar, c.isDigit = true := by
      intro c hc
      obtain ⟨d, hd, rfl⟩ := List.mem_map.mp hc
      rw [Nat.isDigit_digitChar]
      exact decide_eq_true (hds d hd)
    have hvalues : (ds.map Nat.digitChar).map digitValue = ds := by
      rw [List.map_map]
      exact (List.map_congr_left fun d hd => digitValue_digitChar (hds d hd)).trans (List.map_id ds)
    have hread := readDigits_append (by simpa using hne) hdigit hrest.noDigit
    rwa [hvalues] at hread

theorem readSign_digits (n : Nat) : readSign (digits n ++ rest) = (false, digits n ++ rest) := by
  obtain ⟨c, cs, hcs, hc⟩ := exists_digits_eq_cons n
  rw [hcs, List.cons_append]
  unfold readSign
  split
  · next h =>
    cases h
    exact absurd hc (by decide)
  · next h =>
    cases h
    exact absurd hc (by decide)
  · rfl

theorem readSign_integer (e : Int) :
    readSign (integer e ++ rest) = (decide (e < 0), digits e.natAbs ++ rest) := by
  unfold integer
  split
  · next hneg =>
    rw [decide_eq_true hneg]
    rfl
  · next hpos => rw [readSign_digits, decide_eq_false hpos]

theorem readPower_of_readSign {cs : List Char} {e : Int} (hrest : NoDigit rest)
    (h : readSign cs = (decide (e < 0), digits e.natAbs ++ rest)) :
    readPower cs = some (some e, rest) := by
  have he : (if decide (e < 0) = true then -(e.natAbs : Int) else e.natAbs) = e := by
    by_cases hneg : e < 0
    · rw [if_pos (decide_eq_true hneg)]
      omega
    · rw [if_neg (by simpa using hneg)]
      omega
  rw [readPower, h]
  simp only [readDigits_append (digits_ne_nil _) (fun _ => isDigit_of_mem_digits) hrest,
    Option.bind_eq_bind, Option.bind_some, ofDigits_digits, he]
  rfl

theorem exponent_eq_cons (e : Int) : ∃ cs, sign.exponent e = 'e' :: cs := by
  unfold ExponentSign.exponent
  split
  · exact ⟨_, rfl⟩
  · exact ⟨_, rfl⟩

theorem readExponent_exponent (e : Int) (hrest : NoDigit rest) :
    readExponent (sign.exponent e ++ rest) = some (some e, rest) := by
  unfold ExponentSign.exponent
  split
  · next h =>
    have hpos : ¬ e < 0 := Int.not_lt.mpr h.1
    have hsign : readSign ('+' :: (integer e ++ rest)) =
        (decide (e < 0), digits e.natAbs ++ rest) := by
      rw [integer, if_neg hpos, decide_eq_false hpos]
      rfl
    exact readPower_of_readSign hrest hsign
  · exact readPower_of_readSign hrest (readSign_integer e)

theorem readExponent_exponentChars (e : Option Int) (hrest : NoNumeral rest) :
    readExponent (exponentChars sign e ++ rest) = some (e, rest) := by
  cases e with
  | none =>
    show readExponent rest = some (none, rest)
    unfold readExponent
    split
    · exact absurd rfl (hrest _ rfl).2.2.1
    · exact absurd rfl (hrest _ rfl).2.2.2
    · rfl
  | some e => exact readExponent_exponent sign e hrest.noFraction.noDigit

theorem noFraction_exponentChars (e : Option Int) (hrest : NoNumeral rest) :
    NoFraction (exponentChars sign e ++ rest) := by
  cases e with
  | none => exact hrest.noFraction
  | some e =>
    obtain ⟨cs, hcs⟩ := exponent_eq_cons sign e
    intro c hc
    rw [exponentChars, Option.elim, hcs] at hc
    cases hc
    decide

theorem noDigit_fractionChars (ds : List Nat) (hrest : NoFraction rest) :
    NoDigit (fractionChars ds ++ rest) := by
  unfold fractionChars
  split
  · exact hrest.noDigit
  · intro c hc
    cases hc
    decide

theorem readUnsigned_text {n : Numeral} (hn : ∀ d ∈ n.fraction, d < 10) (hrest : NoNumeral rest) :
    readUnsigned n.negative (digits n.whole ++ (fractionChars n.fraction ++
      (exponentChars sign n.exponent ++ rest))) = some (n, rest) := by
  have hexponent := noFraction_exponentChars sign n.exponent hrest
  rw [readUnsigned, readWhole_digits n.whole (noDigit_fractionChars n.fraction hexponent)]
  simp only [Option.bind_eq_bind, Option.bind_some, readFraction_fractionChars hn hexponent,
    readExponent_exponentChars sign n.exponent hrest]
  rfl

/-- a numeral reads back in front of a text that cannot belong to it -/
theorem readNumeral_text {n : Numeral} (hn : ∀ d ∈ n.fraction, d < 10) (hrest : NoNumeral rest) :
    readNumeral (n.text sign ++ rest) = some (n, rest) := by
  have hread := readUnsigned_text sign hn hrest
  rw [text_eq]
  simp only [List.append_assoc]
  cases hnegative : n.negative with
  | true =>
    rw [hnegative] at hread
    exact hread
  | false =>
    rw [hnegative] at hread
    obtain ⟨c, cs, hcs, hc⟩ := exists_digits_eq_cons n.whole
    simp only [hcs, Bool.false_eq_true, if_false, List.nil_append, List.cons_append] at hread ⊢
    unfold readNumeral
    split
    · next h =>
      cases h
      exact absurd hc (by decide)
    · exact hread

end

/-- a numeral keeps its zeros and its sign, and ends at the comma -/
example : readNumeral "-0.50e-7,".toList = some (⟨true, 0, [5, 0], some (-7)⟩, [',']) := by decide

/-! ## strings -/

section
variable {c : Char} {done : List Nat} {rest : List Char}

theorem readCodes_plain (hquote : c ≠ '"') (hslash : c ≠ '\\') (hge : ¬ c.toNat < 32) :
    readCodes done (c :: rest) = readCodes (c.toNat :: done) rest := by
  rw [readCodes, if_neg hge]
  · exact hquote
  · exact fun _ _ _ _ _ h _ => hslash h
  · exact fun _ _ h _ => hslash h

/-- a character of a string has its code read, whether it is escaped or not -/
theorem readCodes_escape :
    readCodes done (escape c ++ rest) = readCodes (c.toNat :: done) rest := by
  unfold escape
  split
  · next h =>
    subst h
    rfl
  split
  · next h =>
    subst h
    rfl
  split
  · next h =>
    rw [h]
    rfl
  split
  · next h =>
    rw [h]
    rfl
  split
  · next h =>
    rw [h]
    rfl
  split
  · next h =>
    rw [h]
    rfl
  split
  · next h =>
    rw [h]
    rfl
  split
  · next hlt =>
    have table : ∀ n < 32, hexUnit? '0' '0' (Nat.digitChar (n / 16)) (Nat.digitChar (n % 16)) =
        some n := by decide
    simp only [List.cons_append, List.nil_append, readCodes, table c.toNat hlt]
  · next hquote hslash _ _ _ _ _ hge => exact readCodes_plain hquote hslash hge

end

theorem readCodes_escapes (cs : List Char) (done : List Nat) (rest : List Char) :
    readCodes done (cs.flatMap escape ++ '"' :: rest) =
      some ((cs.map Char.toNat).reverse ++ done, rest) := by
  induction cs generalizing done with
  | nil => rfl
  | cons c cs ih =>
    rw [List.flatMap_cons, List.append_assoc, readCodes_escape, ih, List.map_cons,
      List.reverse_cons, List.append_assoc, List.singleton_append]

theorem not_half (c : Char) : isLowHalf c.toNat = false ∧ isHighHalf c.toNat = false := by
  have hvalid : c.toNat < 0xd800 ∨ 0xdfff < c.toNat ∧ c.toNat < 0x110000 := c.valid
  simp only [isLowHalf, isHighHalf, Bool.and_eq_false_iff, decide_eq_false_iff_not]
  omega

theorem joinHalves_of_not_half {ns : List Nat} {done : List Char}
    (h : ∀ n ∈ ns, isLowHalf n = false ∧ isHighHalf n = false) :
    joinHalves done ns = some ((ns.map Char.ofNat).reverse ++ done) := by
  induction ns generalizing done with
  | nil => rfl
  | cons n ns ih =>
    obtain ⟨⟨hlow, hhigh⟩, hns⟩ := List.forall_mem_cons.mp h
    rw [List.map_cons, List.reverse_cons, List.append_assoc, List.singleton_append]
    cases ns with
    | nil => simp [joinHalves, hlow, hhigh]
    | cons m rest => simpa only [joinHalves, hlow, hhigh, Bool.false_eq_true, if_false] using ih hns

/-- a string reads back, after its first quote, in front of any text -/
theorem readLiteral_escapes (s : String) (rest : List Char) :
    readLiteral (s.toList.flatMap escape ++ '"' :: rest) = some (some s, rest) := by
  have hhalves : ∀ n ∈ (s.toList.map Char.toNat).reverse,
      isLowHalf n = false ∧ isHighHalf n = false := by
    intro n hn
    obtain ⟨c, -, rfl⟩ := List.mem_map.mp (List.mem_reverse.mp hn)
    exact not_half c
  have hchars : (s.toList.map Char.toNat).map Char.ofNat = s.toList := by
    rw [List.map_map]
    exact (List.map_congr_left fun c _ => Char.ofNat_toNat c).trans (List.map_id _)
  rw [readLiteral, readCodes_escapes]
  simp only [Option.bind_eq_bind, Option.bind_some, List.append_nil,
    joinHalves_of_not_half hhalves, List.map_reverse, List.reverse_reverse, hchars,
    Option.map_some, String.ofList_toList]
  rfl

/-! ## words -/

/-- how the words start that are no numerals -/
def wordStarts : List Char := ['{', '}', '[', ']', ',', ':', 'n', 't', 'f', '"']

theorem readToken_of_not_mem {c : Char} (hc : c ∉ wordStarts) (cs : List Char) :
    readToken (c :: cs) = (readNumeral (c :: cs)).map fun (n, rest) => (.number n, rest) := by
  unfold readToken
  split
  case h_11 => rfl
  all_goals
    next h =>
      cases h
      exact absurd (by decide) hc

theorem readNumeral_of_not_isDigit {c : Char} (hc : c.isDigit = false) (hminus : c ≠ '-')
    (cs : List Char) : readNumeral (c :: cs) = none := by
  have hdigits : readDigits (c :: cs) = none := by
    rw [readDigits, List.takeWhile_cons_of_neg (ne_true_of_eq_false hc)]
    rfl
  rw [readNumeral, readUnsigned, readWhole, hdigits]
  · rfl
  · exact fun _ h => hminus (List.cons.inj h).1

theorem skipBlanks_of_readToken {cs rest : List Char} {t : Token}
    (h : readToken cs = some (t, rest)) : skipBlanks cs = cs := by
  cases cs with
  | nil => rfl
  | cons c cs =>
    refine List.dropWhile_cons_of_neg fun hblank => ?_
    have hc : c ∉ wordStarts ∧ c.isDigit = false ∧ c ≠ '-' := by
      simp only [isBlank, Bool.or_eq_true, decide_eq_true_eq] at hblank
      rcases hblank with ((rfl | rfl) | rfl) | rfl <;> decide
    rw [readToken_of_not_mem hc.1, readNumeral_of_not_isDigit hc.2.1 hc.2.2] at h
    cases h

theorem exists_text_eq_cons (sign : ExponentSign) (n : Numeral) :
    ∃ c cs, n.text sign = c :: cs ∧ c ∉ wordStarts := by
  rw [text_eq]
  cases n.negative with
  | true => exact ⟨_, _, rfl, by decide⟩
  | false =>
    obtain ⟨c, cs, hcs, hc⟩ := exists_digits_eq_cons n.whole
    refine ⟨c, _, by rw [hcs]; rfl, fun hmem => ?_⟩
    have hstarts : wordStarts.all (fun c => !c.isDigit) = true := by decide
    have hnone := List.all_eq_true.mp hstarts c hmem
    rw [hc] at hnone
    cases hnone

theorem readToken_text (sign : ExponentSign) {n : Numeral} {rest : List Char}
    (hn : ∀ d ∈ n.fraction, d < 10) (hrest : NoNumeral rest) :
    readToken (n.text sign ++ rest) = some (.number n, rest) := by
  have hread := readNumeral_text sign hn hrest
  obtain ⟨c, cs, hcs, hc⟩ := exists_text_eq_cons sign n
  rw [hcs, List.cons_append] at hread ⊢
  rw [readToken_of_not_mem hc, hread]
  rfl

theorem readToken_quote (s : String) (rest : List Char) :
    readToken (quote (some s) ++ rest) = some (.string (some s), rest) := by
  have hquote : quote (some s) ++ rest = '"' :: (s.toList.flatMap escape ++ '"' :: rest) :=
    congrArg (List.cons _) (List.append_assoc _ _ _)
  rw [hquote, readToken]
  simp only [readLiteral_escapes, Option.map_some]

end BlockProof.Json
