/-!
# Bytes and hashes

Every number of a message travels in a fixed count of bytes, least significant first. A `Hash` names
a transaction, a block or an inner node of a tree over transactions. Its bytes are kept in wire
order; people write a hash with its last byte first, two digits a byte, high digit first.

* `littleEndian w n`, `ofLittleEndian bs`   the low `w` bytes of `n`, and what number bytes spell;
* `bind_eq_ok_iff`         what a step after another that may fail yields;
* `Hash`, `Hash.ofBytes?`  exactly thirty-two bytes, and the refusal of any other count;
* `Hash.fill b`            the byte `b` all over;
* `Combiner`               how two child hashes become their parent's hash;
* `Sha256.digest`          the hash function of FIPS 180-4, in words of thirty-two bits;
* `doubleSha256`           the digest of the digest, which names blocks, transactions and nodes;
* `Hex.encode`, `Hex.decode`   digits; an odd count of bytes is refused before any of them is looked
                           at, and else the first byte that is no digit;
* `Hash.toHex`, `Hash.ofHex`   the form for people.
-/

namespace BlockProof

/-! ## numbers in bytes -/

/-- the low `w` bytes of `n`, least significant first -/
def littleEndian : Nat → Nat → List UInt8
  | 0, _ => []
  | w + 1, n => UInt8.ofNat n :: littleEndian w (n / 256)

def ofLittleEndian : List UInt8 → Nat
  | [] => 0
  | b :: bs => b.toNat + 256 * ofLittleEndian bs

@[simp]
theorem length_littleEndian (w n : Nat) : (littleEndian w n).length = w := by
  induction w generalizing n with
  | zero => rfl
  | succ w ih => simp [littleEndian, ih]

theorem one_shiftLeft_eight_mul_succ (w : Nat) : 1 <<< (8 * (w + 1)) = 256 * 1 <<< (8 * w) := by
  simp only [Nat.one_shiftLeft]
  rw [Nat.mul_succ, Nat.pow_add, Nat.mul_comm]

theorem ofLittleEndian_lt (bs : List UInt8) : ofLittleEndian bs < 1 <<< (8 * bs.length) := by
  induction bs with
  | nil => exact Nat.zero_lt_one
  | cons b bs ih =>
    have hb : b.toNat < 256 := b.toNat_lt
    rw [ofLittleEndian, List.length_cons, one_shiftLeft_eight_mul_succ]
    omega

theorem ofLittleEndian_littleEndian (w n : Nat) :
    ofLittleEndian (littleEndian w n) = n % 1 <<< (8 * w) := by
  induction w generalizing n with
  | zero => exact (Nat.mod_one n).symm
  | succ w ih =>
    rw [littleEndian, ofLittleEndian, ih, one_shiftLeft_eight_mul_succ, Nat.mod_mul,
      UInt8.toNat_ofNat']

theorem littleEndian_ofLittleEndian (bs : List UInt8) :
    littleEndian bs.length (ofLittleEndian bs) = bs := by
  induction bs with
  | nil => rfl
  | cons b bs ih =>
    have hb : b.toNat < 256 := b.toNat_lt
    have hdiv : (b.toNat + 256 * ofLittleEndian bs) / 256 = ofLittleEndian bs := by omega
    have hhead : UInt8.ofNat (b.toNat + 256 * ofLittleEndian bs) = b := by
      apply UInt8.toNat_inj.1
      rw [UInt8.toNat_ofNat']
      omega
    rw [List.length_cons, ofLittleEndian, littleEndian, hdiv, ih, hhead]

/-! ## steps that may fail -/

section
variable {ε α β : Type}

theorem bind_eq_ok_iff {x : Except ε α} {f : α → Except ε β} {b : β} :
    (x >>= f) = .ok b ↔ ∃ a, x = .ok a ∧ f a = .ok b := by
  constructor
  · intro h
    cases x with
    | error e => cases h
    | ok a => exact ⟨a, rfl, h⟩
  · intro h
    obtain ⟨a, rfl, h⟩ := h
    exact h

theorem pure_eq_ok_iff {a b : α} : (pure a : Except ε α) = .ok b ↔ a = b :=
  ⟨Except.ok.inj, congrArg Except.ok⟩

end

/-! ## hashes -/

/-- thirty-two bytes in wire order -/
@[ext]
structure Hash where
  bytes : List UInt8
  length_bytes : bytes.length = 32
deriving DecidableEq

/-- how the hashes of two children become the hash of their parent -/
abbrev Combiner := Hash → Hash → Hash

namespace Hash

attribute [simp] length_bytes

def fill (b : UInt8) : Hash := ⟨List.replicate 32 b, List.length_replicate⟩

def zero : Hash := fill 0

instance : Inhabited Hash := ⟨zero⟩

def ofBytes? (bs : List UInt8) : Option Hash :=
  if h : bs.length = 32 then some ⟨bs, h⟩ else none

theorem ofBytes?_bytes (x : Hash) : ofBytes? x.bytes = some x := by
  simp [ofBytes?]

theorem ofBytes?_eq_some {bs : List UInt8} {x : Hash} : ofBytes? bs = some x ↔ bs = x.bytes := by
  constructor
  · intro h
    simp only [ofBytes?] at h
    split at h
    · simp_all [Hash.ext_iff]
    · simp at h
  · rintro rfl
    exact ofBytes?_bytes x

theorem ofBytes?_eq_none {bs : List UInt8} : ofBytes? bs = none ↔ bs.length ≠ 32 := by
  simp [ofBytes?]

/-- whether `a` stands before `b`, or equals it, when bytes are compared from the first on -/
def le (a b : Hash) : Bool := decide (a.bytes ≤ b.bytes)

end Hash

/-! ## SHA-256 and the double hash -/

namespace Sha256

/-- the first thirty-two bits of the fractional parts of the cube roots of the first primes -/
def roundConstants : List UInt32 :=
  [0x428a2f98, 0x71374491, 0xb5c0fbcf, 0xe9b5dba5, 0x3956c25b, 0x59f111f1, 0x923f82a4, 0xab1c5ed5,
   0xd807aa98, 0x12835b01, 0x243185be, 0x550c7dc3, 0x72be5d74, 0x80deb1fe, 0x9bdc06a7, 0xc19bf174,
   0xe49b69c1, 0xefbe4786, 0x0fc19dc6, 0x240ca1cc, 0x2de92c6f, 0x4a7484aa, 0x5cb0a9dc, 0x76f988da,
   0x983e5152, 0xa831c66d, 0xb00327c8, 0xbf597fc7, 0xc6e00bf3, 0xd5a79147, 0x06ca6351, 0x14292967,
   0x27b70a85, 0x2e1b2138, 0x4d2c6dfc, 0x53380d13, 0x650a7354, 0x766a0abb, 0x81c2c92e, 0x92722c85,
   0xa2bfe8a1, 0xa81a664b, 0xc24b8b70, 0xc76c51a3, 0xd192e819, 0xd6990624, 0xf40e3585, 0x106aa070,
   0x19a4c116, 0x1e376c08, 0x2748774c, 0x34b0bcb5, 0x391c0cb3, 0x4ed8aa4a, 0x5b9cca4f, 0x682e6ff3,
   0x748f82ee, 0x78a5636f, 0x84c87814, 0x8cc70208, 0x90befffa, 0xa4506ceb, 0xbef9a3f7, 0xc67178f2]

structure State where
  a : UInt32
  b : UInt32
  c : UInt32
  d : UInt32
  e : UInt32
  f : UInt32
  g : UInt32
  h : UInt32
deriving DecidableEq

def State.initial : State :=
  ⟨0x6a09e667, 0xbb67ae85, 0x3c6ef372, 0xa54ff53a, 0x510e527f, 0x9b05688c, 0x1f83d9ab, 0x5be0cd19⟩

def rotateRight (x n : UInt32) : UInt32 := (x >>> n) ||| (x <<< (32 - n))

def State.round (s : State) (k w : UInt32) : State :=
  let s1 := rotateRight s.e 6 ^^^ rotateRight s.e 11 ^^^ rotateRight s.e 25
  let choice := (s.e &&& s.f) ^^^ ((~~~s.e) &&& s.g)
  let t1 := s.h + s1 + choice + k + w
  let s0 := rotateRight s.a 2 ^^^ rotateRight s.a 13 ^^^ rotateRight s.a 22
  let majority := (s.a &&& s.b) ^^^ (s.a &&& s.c) ^^^ (s.b &&& s.c)
  ⟨t1 + (s0 + majority), s.a, s.b, s.c, s.d + t1, s.e, s.f, s.g⟩

def State.add (s t : State) : State :=
  ⟨s.a + t.a, s.b + t.b, s.c + t.c, s.d + t.d, s.e + t.e, s.f + t.f, s.g + t.g, s.h + t.h⟩

def nextWord (w : Array UInt32) : UInt32 :=
  let w15 := w.getD (w.size - 15) 0
  let w2 := w.getD (w.size - 2) 0
  let s0 := rotateRight w15 7 ^^^ rotateRight w15 18 ^^^ (w15 >>> 3)
  let s1 := rotateRight w2 17 ^^^ rotateRight w2 19 ^^^ (w2 >>> 10)
  w.getD (w.size - 16) 0 + s0 + w.getD (w.size - 7) 0 + s1

def schedule (block : List UInt32) : List UInt32 :=
  ((List.range 48).foldl (fun w _ => w.push (nextWord w)) block.toArray).toList

def State.absorb (s : State) (block : List UInt32) : State :=
  s.add ((List.zip roundConstants (schedule block)).foldl (fun t kw => t.round kw.1 kw.2) s)

def wordOfBytes (a b c d : UInt8) : UInt32 :=
  (a.toUInt32 <<< 24) ||| (b.toUInt32 <<< 16) ||| (c.toUInt32 <<< 8) ||| d.toUInt32

def bytesOfWord (w : UInt32) : List UInt8 :=
  [(w >>> 24).toUInt8, (w >>> 16).toUInt8, (w >>> 8).toUInt8, w.toUInt8]

def wordsOfBytes : List UInt8 → List UInt32
  | a :: b :: c :: d :: rest => wordOfBytes a b c d :: wordsOfBytes rest
  | _ => []

/-- the message, a one bit, zeros, and the length in bits as eight bytes, in all a multiple of
sixty-four bytes -/
def pad (message : List UInt8) : List UInt8 :=
  let size := message.length
  let zeros := (119 - size % 64) % 64
  let bits := UInt64.ofNat (8 * size)
  message ++ (0x80 : UInt8) :: List.replicate zeros 0 ++
    bytesOfWord (bits >>> 32).toUInt32 ++ bytesOfWord bits.toUInt32

def State.absorbAll (s : State) : List UInt8 → State
  | [] => s
  | b :: bytes => (s.absorb (wordsOfBytes ((b :: bytes).take 64))).absorbAll ((b :: bytes).drop 64)
termination_by bytes => bytes.length
decreasing_by simp only [List.length_drop, List.length_cons]; omega

def State.toHash (s : State) : Hash :=
  ⟨[s.a, s.b, s.c, s.d, s.e, s.f, s.g, s.h].flatMap bytesOfWord, rfl⟩

def digest (message : List UInt8) : Hash :=
  (State.initial.absorbAll (pad message)).toHash

end Sha256

def doubleSha256 (message : List UInt8) : Hash :=
  Sha256.digest (Sha256.digest message).bytes

namespace Combiner

/-- a parent is the double hash of its left child followed by its right child -/
def doubleSha256 : Combiner := fun left right => BlockProof.doubleSha256 (left.bytes ++ right.bytes)

def rotateLeftOne (b : UInt8) : UInt8 := (b <<< 1) ||| (b >>> 7)

/-- byte by byte, the left child xor the right child turned left by one place -/
def rotatedXor : Combiner := fun left right =>
  ⟨List.zipWith (fun a b => a ^^^ rotateLeftOne b) left.bytes right.bytes, by simp⟩

end Combiner

/-! ## hexadecimal -/

inductive HexError where
  | oddLength
  /-- the byte at `index` of the text is no hexadecimal digit -/
  | badDigit (byte : UInt8) (index : Nat)
  /-- the digits spell `got` bytes and not thirty-two -/
  | wrongLength (got : Nat)
deriving DecidableEq

namespace Hex

def digit (n : Nat) : Char :=
  if n < 10 then Char.ofNat (48 + n) else Char.ofNat (87 + n)

/-- two digits a byte, lower case -/
def encode (bs : List UInt8) : String :=
  String.ofList (bs.flatMap fun b => [digit (b.toNat / 16), digit (b.toNat % 16)])

def digitValue? (b : UInt8) : Option Nat :=
  if 48 ≤ b ∧ b ≤ 57 then some (b.toNat - 48)
  else if 97 ≤ b ∧ b ≤ 102 then some (b.toNat - 87)
  else if 65 ≤ b ∧ b ≤ 70 then some (b.toNat - 55)
  else none

def textBytes (s : String) : List UInt8 := s.toList.flatMap String.utf8EncodeChar

/-- the bytes that pairs of digits spell; `index` counts the bytes already read -/
def decodePairs (index : Nat) : List UInt8 → Except HexError (List UInt8)
  | hi :: lo :: rest =>
    match digitValue? hi, digitValue? lo with
    | none, _ => .error (.badDigit hi index)
    | _, none => .error (.badDigit lo (index + 1))
    | some h, some l => (decodePairs (index + 2) rest).map (UInt8.ofNat (16 * h + l) :: ·)
  | _ => .ok []

def decode (s : String) : Except HexError (List UInt8) :=
  if (textBytes s).length % 2 = 1 then .error .oddLength else decodePairs 0 (textBytes s)

end Hex

namespace Hash

/-- a hash as people write it: last byte first -/
def toHex (x : Hash) : String := Hex.encode x.bytes.reverse

def ofHex (s : String) : Except HexError Hash := do
  let bytes ← Hex.decode s
  match ofBytes? bytes.reverse with
  | some x => .ok x
  | none => .error (.wrongLength bytes.length)

end Hash

namespace HexError

/-- a byte shown as the character of the same code, in single quotes; characters that cannot be
seen are shown by an escape -/
def quoteByte (b : UInt8) : String :=
  let body :=
    if b = 0 then "\\0"
    else if b = 9 then "\\t"
    else if b = 10 then "\\n"
    else if b = 13 then "\\r"
    else if b = 39 then "\\'"
    else if b = 92 then "\\\\"
    else if b < 32 ∨ (127 ≤ b ∧ b ≤ 160) ∨ b = 173 then
      "\\u\x7b" ++ String.ofList (Nat.toDigits 16 b.toNat) ++ "\x7d"
    else String.singleton (Char.ofNat b.toNat)
  "'" ++ body ++ "'"

def message : HexError → String
  | oddLength => "Invalid hex: Odd number of digits"
  | badDigit byte index =>
    "Invalid hex: Invalid character " ++ quoteByte byte ++ " at position " ++ toString index
  | wrongLength got => "Invalid hash length: " ++ toString got ++ " bytes, expected 32"

end HexError

end BlockProof
