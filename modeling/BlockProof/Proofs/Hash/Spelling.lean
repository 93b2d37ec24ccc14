import BlockProof.Hash

/-!
# How hashes are spelled

People read the digits of a text, a machine the bytes of its characters. A digit is one byte, and
each byte of a character beyond ASCII is beyond ASCII, so the two agree on which texts consist of
digits. Reading takes the bytes in pairs and stops at the first that is no digit.

* `Hex.IsDigit`, `Hex.Digits n s`   digits of either case, and texts of `n` of them;
* `Hex.forall_isDigit_iff_bytes`    a text consists of digits if its bytes are digits;
* `Hex.FirstBad bs b k`             the first byte that is no digit, and its index;
* `Hex.decodePairs_eq_ok_iff`, `Hex.decodePairs_eq_error_iff`   what pairs of bytes are read as;
* `Hex.decode_eq_ok_iff`            the texts that are read have a lower-case form that is written;
* `Hash.Unreadable`                 the refusals, in the order of their precedence;
* `hash_texts_are_digits`           the main result.
-/

namespace BlockProof

namespace Hex

/-! ## digits -/

/-- a hexadecimal digit, of either case -/
def IsDigit (c : Char) : Prop :=
  ('0' ≤ c ∧ c ≤ '9') ∨ ('a' ≤ c ∧ c ≤ 'f') ∨ ('A' ≤ c ∧ c ≤ 'F')

instance (c : Char) : Decidable (IsDigit c) := inferInstanceAs (Decidable (_ ∨ _ ∨ _))

def Digits (n : Nat) (s : String) : Prop := s.length = n ∧ ∀ c ∈ s.toList, IsDigit c

def ofCode (b : UInt8) : Char := Char.ofNat b.toNat

theorem isDigit_digit {n : Nat} (hn : n < 16) : IsDigit (digit n) := by
  have table : ∀ n < 16, IsDigit (digit n) := by decide +kernel
  exact table n hn

theorem toLower_digit {n : Nat} (hn : n < 16) : (digit n).toLower = digit n := by
  have table : ∀ n < 16, (digit n).toLower = digit n := by decide +kernel
  exact table n hn

/-- the bytes that have a value are the digits, and the value is told from the lower-case digit -/
theorem digitValue?_eq_some_iff {b : UInt8} {n : Nat} :
    digitValue? b = some n ↔ n < 16 ∧ (ofCode b).toLower = digit n := by
  have table : ∀ k < 256, (∀ n ∈ digitValue? (UInt8.ofNat k), n < 16) ∧
      ∀ n < 16, digitValue? (UInt8.ofNat k) = some n ↔ (Char.ofNat k).toLower = digit n := by
    decide +kernel
  obtain ⟨hlt, hiff⟩ := table b.toNat b.toNat_lt
  rw [UInt8.ofNat_toNat] at hlt hiff
  constructor
  · intro h
    exact ⟨hlt n h, (hiff n (hlt n h)).mp h⟩
  · intro h
    exact (hiff n h.1).mpr h.2

theorem digitValue?_eq_none_iff {b : UInt8} : digitValue? b = none ↔ ¬ IsDigit (ofCode b) := by
  have table : ∀ k < 256, digitValue? (UInt8.ofNat k) = none ↔ ¬ IsDigit (Char.ofNat k) := by
    decide +kernel
  have h := table b.toNat b.toNat_lt
  rwa [UInt8.ofNat_toNat] at h

theorem exists_digitValue? {b : UInt8} (h : IsDigit (ofCode b)) : ∃ n, digitValue? b = some n := by
  cases hb : digitValue? b with
  | none => exact absurd h (digitValue?_eq_none_iff.mp hb)
  | some n => exact ⟨n, rfl⟩

/-! ## texts and their bytes -/

theorem length_textBytes (s : String) : (textBytes s).length = s.utf8ByteSize := by
  rw [← String.size_toByteArray, ← String.utf8Encode_toList]
  simp [List.utf8Encode, textBytes]

/-- a character below 128 is one byte, its code; all bytes of any other are 128 or more -/
theorem utf8EncodeChar_cases (c : Char) :
    (c.toNat < 128 ∧ String.utf8EncodeChar c = [UInt8.ofNat c.toNat]) ∨
      ¬ c.toNat < 128 ∧ ∀ b ∈ String.utf8EncodeChar c, 128 ≤ b.toNat := by
  have hval : c.val.toNat = c.toNat := rfl
  simp only [String.utf8EncodeChar, hval]
  by_cases h1 : c.toNat ≤ 0x7f
  · rw [if_pos h1]
    exact .inl ⟨by omega, rfl⟩
  · refine .inr ⟨by omega, ?_⟩
    rw [if_neg h1]
    split
    · simp only [List.mem_cons, List.not_mem_nil, or_false]
      rintro b (rfl | rfl) <;> rw [UInt8.toNat_ofNat'] <;> omega
    split
    · simp only [List.mem_cons, List.not_mem_nil, or_false]
      rintro b (rfl | rfl | rfl) <;> rw [UInt8.toNat_ofNat'] <;> omega
    · simp only [List.mem_cons, List.not_mem_nil, or_false]
      rintro b (rfl | rfl | rfl | rfl) <;> rw [UInt8.toNat_ofNat'] <;> omega

theorem isDigit_iff_toNat {c : Char} : IsDigit c ↔ (48 ≤ c.toNat ∧ c.toNat ≤ 57) ∨
    (97 ≤ c.toNat ∧ c.toNat ≤ 102) ∨ (65 ≤ c.toNat ∧ c.toNat ≤ 70) := by
  simp only [IsDigit, Char.le_def, UInt32.le_iff_toNat_le]
  exact Iff.rfl

theorem IsDigit.toNat_lt {c : Char} (h : IsDigit c) : c.toNat < 128 := by
  rw [isDigit_iff_toNat] at h
  omega

theorem toNat_toLower (c : Char) :
    c.toLower.toNat = if 65 ≤ c.toNat ∧ c.toNat ≤ 90 then c.toNat + 32 else c.toNat := by
  by_cases h : 65 ≤ c.toNat ∧ c.toNat ≤ 90
  · have hval : c.val ≥ 'A'.val ∧ c.val ≤ 'Z'.val := h
    have hlower : c.toLower.toNat = (c.val.toNat + 32) % 2 ^ 32 :=
      congrArg Char.toNat (dif_pos hval)
    rw [if_pos h, hlower]
    exact Nat.mod_eq_of_lt (by have : c.val.toNat ≤ 90 := h.2; omega)
  · have hval : ¬ (c.val ≥ 'A'.val ∧ c.val ≤ 'Z'.val) := h
    rw [if_neg h]
    exact congrArg Char.toNat (dif_neg hval)

theorem toList_toLower (s : String) : s.toLower.toList = s.toList.map Char.toLower :=
  String.toList_map

theorem isDigit_toLower_iff {c : Char} : IsDigit c.toLower ↔ IsDigit c := by
  rw [isDigit_iff_toNat, isDigit_iff_toNat, toNat_toLower]
  split <;> omega

theorem ofCode_ofNat {c : Char} (h : c.toNat < 128) : ofCode (UInt8.ofNat c.toNat) = c := by
  rw [ofCode, UInt8.toNat_ofNat_of_lt' (Nat.lt_trans h (by decide)), Char.ofNat_toNat]

theorem utf8EncodeChar_of_isDigit {c : Char} (h : IsDigit c) :
    String.utf8EncodeChar c = [UInt8.ofNat c.toNat] := by
  rcases utf8EncodeChar_cases c with ⟨-, he⟩ | ⟨hbig, -⟩
  · exact he
  · exact absurd h.toNat_lt hbig

theorem toNat_ofCode (b : UInt8) : (ofCode b).toNat = b.toNat := by
  have hvalid : b.toNat.isValidChar := .inl (Nat.lt_trans b.toNat_lt (by decide))
  rw [ofCode, Char.ofNat, dif_pos hvalid]
  rfl

theorem isDigit_iff_bytes (c : Char) :
    IsDigit c ↔ ∀ b ∈ String.utf8EncodeChar c, IsDigit (ofCode b) := by
  rcases utf8EncodeChar_cases c with ⟨hlt, he⟩ | ⟨hbig, hbytes⟩
  · rw [he, List.forall_mem_singleton, ofCode_ofNat hlt]
  · constructor
    · intro h
      exact absurd h.toNat_lt hbig
    · intro h
      obtain ⟨b, hb⟩ := List.exists_mem_of_ne_nil _ (String.utf8EncodeChar_ne_nil (c := c))
      have hlt := (h b hb).toNat_lt
      rw [toNat_ofCode] at hlt
      exact absurd (hbytes b hb) (Nat.not_le.mpr hlt)

theorem forall_isDigit_iff_bytes (s : String) :
    (∀ c ∈ s.toList, IsDigit c) ↔ ∀ b ∈ textBytes s, IsDigit (ofCode b) := by
  simp only [textBytes, List.forall_mem_flatMap, ← isDigit_iff_bytes]

theorem map_ofCode_textBytes {s : String} (h : ∀ c ∈ s.toList, IsDigit c) :
    (textBytes s).map ofCode = s.toList := by
  have hchar : ∀ cs : List Char, (∀ c ∈ cs, IsDigit c) →
      (cs.flatMap String.utf8EncodeChar).map ofCode = cs := by
    intro cs hcs
    induction cs with
    | nil => rfl
    | cons c cs ih =>
      obtain ⟨hc, hcs⟩ := List.forall_mem_cons.mp hcs
      rw [List.flatMap_cons, utf8EncodeChar_of_isDigit hc, List.map_append, ih hcs,
        List.map_singleton, ofCode_ofNat hc.toNat_lt, List.singleton_append]
  exact hchar s.toList h

/-! ## pairs of digits -/

def digitPair (b : UInt8) : List Char := [digit (b.toNat / 16), digit (b.toNat % 16)]

theorem pair_eq_some_iff {hi lo x : UInt8} :
    (∃ h l, digitValue? hi = some h ∧ digitValue? lo = some l ∧ x = UInt8.ofNat (16 * h + l)) ↔
      [(ofCode hi).toLower, (ofCode lo).toLower] = digitPair x := by
  have hx : x.toNat < 256 := x.toNat_lt
  simp only [digitValue?_eq_some_iff, digitPair, List.cons.injEq, and_true]
  constructor
  · intro h
    obtain ⟨h, l, ⟨hh, hhi⟩, ⟨hl, hlo⟩, rfl⟩ := h
    have hval : (UInt8.ofNat (16 * h + l)).toNat = 16 * h + l :=
      UInt8.toNat_ofNat_of_lt' (by show _ < 256; omega)
    have hdiv : (16 * h + l) / 16 = h := by omega
    have hmod : (16 * h + l) % 16 = l := by omega
    rw [hval, hdiv, hmod]
    exact ⟨hhi, hlo⟩
  · intro h
    refine ⟨x.toNat / 16, x.toNat % 16, ⟨by omega, h.1⟩, ⟨by omega, h.2⟩, ?_⟩
    rw [Nat.div_add_mod, UInt8.ofNat_toNat]

section
variable {i : Nat} {hi lo : UInt8} {rest xs : List UInt8} {e : HexError}

theorem decodePairs_pair_eq_ok_iff :
    decodePairs i (hi :: lo :: rest) = .ok xs ↔
      ∃ x ys, xs = x :: ys ∧ [(ofCode hi).toLower, (ofCode lo).toLower] = digitPair x ∧
        decodePairs (i + 2) rest = .ok ys := by
  simp only [← pair_eq_some_iff, decodePairs]
  cases hhi : digitValue? hi with
  | none => simp
  | some h =>
    cases hlo : digitValue? lo with
    | none => simp
    | some l => cases decodePairs (i + 2) rest <;> simp [Except.map, eq_comm]

theorem decodePairs_pair_eq_error_iff :
    decodePairs i (hi :: lo :: rest) = .error e ↔
      (¬ IsDigit (ofCode hi) ∧ e = .badDigit hi i) ∨
        (IsDigit (ofCode hi) ∧ ¬ IsDigit (ofCode lo) ∧ e = .badDigit lo (i + 1)) ∨
          (IsDigit (ofCode hi) ∧ IsDigit (ofCode lo) ∧ decodePairs (i + 2) rest = .error e) := by
  by_cases hhi : IsDigit (ofCode hi)
  · obtain ⟨h, hh⟩ := exists_digitValue? hhi
    by_cases hlo : IsDigit (ofCode lo)
    · obtain ⟨l, hl⟩ := exists_digitValue? hlo
      rw [decodePairs, hh, hl]
      cases decodePairs (i + 2) rest <;> simp [Except.map, hhi, hlo]
    · rw [decodePairs, hh, digitValue?_eq_none_iff.mpr hlo]
      simp [hhi, hlo, eq_comm]
  · rw [decodePairs, digitValue?_eq_none_iff.mpr hhi]
    simp [hhi, eq_comm]

end

theorem exists_pair {n : Nat} {bs : List UInt8} (h : bs.length = 2 * (n + 1)) :
    ∃ hi lo rest, bs = hi :: lo :: rest ∧ rest.length = 2 * n := by
  obtain ⟨hi, bs, rfl⟩ := List.exists_cons_of_length_eq_add_one h
  obtain ⟨lo, rest, rfl⟩ := List.exists_cons_of_length_eq_add_one (Nat.succ.inj h)
  exact ⟨hi, lo, rest, rfl, Nat.succ.inj (Nat.succ.inj h)⟩

/-- pairs of bytes are read as the bytes that their lower-case form spells -/
theorem decodePairs_eq_ok_iff {n i : Nat} {bs xs : List UInt8} (hlen : bs.length = 2 * n) :
    decodePairs i bs = .ok xs ↔ (bs.map ofCode).map Char.toLower = xs.flatMap digitPair := by
  induction n generalizing i bs xs with
  | zero =>
    obtain rfl := List.length_eq_zero_iff.mp hlen
    cases xs <;> simp [decodePairs, digitPair]
  | succ n ih =>
    obtain ⟨hi, lo, rest, rfl, hrest⟩ := exists_pair hlen
    rw [decodePairs_pair_eq_ok_iff]
    constructor
    · intro h
      obtain ⟨x, ys, rfl, hpair, hys⟩ := h
      rw [List.flatMap_cons, ← hpair, ← (ih hrest).mp hys]
      rfl
    · intro h
      cases xs with
      | nil => cases h
      | cons x ys =>
        have hsplit : [(ofCode hi).toLower, (ofCode lo).toLower] ++
            (rest.map ofCode).map Char.toLower = digitPair x ++ ys.flatMap digitPair := h
        obtain ⟨hpair, hys⟩ := List.append_inj hsplit rfl
        exact ⟨x, ys, rfl, hpair, (ih hrest).mpr hys⟩

/-- `bs` has its first byte that is no digit at index `k`, and it is `b` -/
def FirstBad (bs : List UInt8) (b : UInt8) (k : Nat) : Prop :=
  ∃ front rest, bs = front ++ b :: rest ∧ front.length = k ∧
    (∀ c ∈ front, IsDigit (ofCode c)) ∧ ¬ IsDigit (ofCode b)

theorem firstBad_cons_iff {c b : UInt8} {bs : List UInt8} {k : Nat} :
    FirstBad (c :: bs) b k ↔
      (¬ IsDigit (ofCode c) ∧ b = c ∧ k = 0) ∨
        (IsDigit (ofCode c) ∧ ∃ j, k = j + 1 ∧ FirstBad bs b j) := by
  constructor
  · intro h
    obtain ⟨front, rest, heq, rfl, hfront, hb⟩ := h
    cases front with
    | nil =>
      obtain ⟨rfl, -⟩ := List.cons.inj heq
      exact .inl ⟨hb, rfl, rfl⟩
    | cons d front =>
      obtain ⟨rfl, rfl⟩ := List.cons.inj heq
      obtain ⟨hc, hfront⟩ := List.forall_mem_cons.mp hfront
      exact .inr ⟨hc, front.length, rfl, front, rest, rfl, rfl, hfront, hb⟩
  · intro h
    rcases h with ⟨hc, rfl, rfl⟩ | ⟨hc, j, rfl, front, rest, rfl, rfl, hfront, hb⟩
    · exact ⟨[], bs, rfl, rfl, fun _ hd => absurd hd List.not_mem_nil, hc⟩
    · exact ⟨c :: front, rest, rfl, rfl, List.forall_mem_cons.mpr ⟨hc, hfront⟩, hb⟩

/-- pairs of bytes are refused for the first of them that is no digit -/
theorem decodePairs_eq_error_iff {n i : Nat} {bs : List UInt8} {e : HexError}
    (hlen : bs.length = 2 * n) :
    decodePairs i bs = .error e ↔ ∃ b k, FirstBad bs b k ∧ e = .badDigit b (i + k) := by
  induction n generalizing i bs with
  | zero =>
    obtain rfl := List.length_eq_zero_iff.mp hlen
    simp [decodePairs, FirstBad]
  | succ n ih =>
    obtain ⟨hi, lo, rest, rfl, hrest⟩ := exists_pair hlen
    simp only [decodePairs_pair_eq_error_iff, ih hrest, firstBad_cons_iff]
    constructor
    · intro h
      rcases h with ⟨hhi, rfl⟩ | ⟨hhi, hlo, rfl⟩ | ⟨hhi, hlo, b, k, hbad, rfl⟩
      · exact ⟨hi, 0, .inl ⟨hhi, rfl, rfl⟩, rfl⟩
      · exact ⟨lo, 1, .inr ⟨hhi, 0, rfl, .inl ⟨hlo, rfl, rfl⟩⟩, rfl⟩
      · exact ⟨b, k + 2, .inr ⟨hhi, k + 1, rfl, .inr ⟨hlo, k, rfl, hbad⟩⟩, congrArg _ (by omega)⟩
    · intro h
      obtain ⟨b, k, hbad, rfl⟩ := h
      rcases hbad with ⟨hhi, rfl, rfl⟩ | ⟨hhi, j, rfl, ⟨hlo, rfl, rfl⟩ | ⟨hlo, k, rfl, hbad⟩⟩
      · exact .inl ⟨hhi, rfl⟩
      · exact .inr (.inl ⟨hhi, hlo, rfl⟩)
      · exact .inr (.inr ⟨hhi, hlo, b, k, hbad, congrArg _ (by omega)⟩)

/-! ## whole texts -/

theorem toList_encode (xs : List UInt8) : (encode xs).toList = xs.flatMap digitPair :=
  String.toList_ofList

theorem exists_digit_of_mem {xs : List UInt8} {c : Char} (hc : c ∈ xs.flatMap digitPair) :
    ∃ n < 16, c = digit n := by
  obtain ⟨x, -, hc⟩ := List.mem_flatMap.mp hc
  have hx : x.toNat < 256 := x.toNat_lt
  simp only [digitPair, List.mem_cons, List.not_mem_nil, or_false] at hc
  rcases hc with rfl | rfl
  · exact ⟨x.toNat / 16, by omega, rfl⟩
  · exact ⟨x.toNat % 16, by omega, rfl⟩

theorem toLower_encode (xs : List UInt8) : (encode xs).toLower = encode xs := by
  rw [← String.toList_inj, toList_toLower, toList_encode]
  refine (List.map_congr_left fun c hc => ?_).trans (List.map_id _)
  obtain ⟨n, hn, rfl⟩ := exists_digit_of_mem hc
  exact toLower_digit hn

theorem length_flatMap_digitPair (xs : List UInt8) :
    (xs.flatMap digitPair).length = 2 * xs.length := by
  induction xs with
  | nil => rfl
  | cons x xs ih =>
    rw [List.flatMap_cons, List.length_append, ih, List.length_cons, Nat.mul_succ, Nat.add_comm]
    rfl

theorem isDigit_of_map_toLower {cs : List Char} {xs : List UInt8}
    (h : cs.map Char.toLower = xs.flatMap digitPair) : ∀ c ∈ cs, IsDigit c := by
  intro c hc
  rw [← isDigit_toLower_iff]
  obtain ⟨n, hn, he⟩ := exists_digit_of_mem (h ▸ List.mem_map_of_mem hc)
  exact he ▸ isDigit_digit hn

theorem toLower_eq_encode_iff {s : String} {xs : List UInt8} :
    s.toLower = encode xs ↔
      ((textBytes s).map ofCode).map Char.toLower = xs.flatMap digitPair := by
  rw [← String.toList_inj, toList_encode, toList_toLower]
  constructor
  · intro h
    rwa [map_ofCode_textBytes (isDigit_of_map_toLower h)]
  · intro h
    have hs : ∀ c ∈ s.toList, IsDigit c := by
      rw [forall_isDigit_iff_bytes]
      exact List.forall_mem_map.mp (isDigit_of_map_toLower h)
    rwa [map_ofCode_textBytes hs] at h

/-- the texts that are read are those whose lower-case form is written -/
theorem decode_eq_ok_iff {s : String} {xs : List UInt8} :
    decode s = .ok xs ↔ s.toLower = encode xs := by
  rw [toLower_eq_encode_iff, decode]
  split
  · next hodd =>
    constructor
    · intro h
      cases h
    · intro h
      have hlen := congrArg List.length h
      rw [List.length_map, List.length_map, length_flatMap_digitPair] at hlen
      omega
  · next heven =>
    exact decodePairs_eq_ok_iff (n := (textBytes s).length / 2) (by omega)

theorem decode_eq_error_iff {s : String} {e : HexError} :
    decode s = .error e ↔ (s.utf8ByteSize % 2 = 1 ∧ e = .oddLength) ∨
      (s.utf8ByteSize % 2 = 0 ∧ ∃ b k, FirstBad (textBytes s) b k ∧ e = .badDigit b k) := by
  rw [decode, length_textBytes]
  split
  · next hodd => simp [hodd, eq_comm]
  · next heven =>
    have hlen : (textBytes s).length = 2 * (s.utf8ByteSize / 2) := by
      rw [length_textBytes]
      omega
    have hzero : s.utf8ByteSize % 2 = 0 := by omega
    simp [decodePairs_eq_error_iff hlen, hzero]

end Hex

namespace Hash

open Hex

/-- why a text names no hash -/
inductive Unreadable (s : String) : HexError → Prop where
  /-- an odd count of bytes, whatever they are -/
  | oddLength (hodd : s.utf8ByteSize % 2 = 1) : Unreadable s .oddLength
  /-- a byte that is no digit -/
  | badDigit {b : UInt8} {k : Nat} (heven : s.utf8ByteSize % 2 = 0)
    (hbad : FirstBad (textBytes s) b k) : Unreadable s (.badDigit b k)
  /-- digits, but not sixty-four of them -/
  | wrongLength (heven : s.utf8ByteSize % 2 = 0) (hdigits : ∀ c ∈ s.toList, IsDigit c)
    (hlen : s.utf8ByteSize ≠ 64) : Unreadable s (.wrongLength (s.utf8ByteSize / 2))

theorem ofHex_eq_ok_iff {s : String} {x : Hash} : ofHex s = .ok x ↔ s.toLower = x.toHex := by
  simp only [ofHex, bind_eq_ok_iff, decode_eq_ok_iff, toHex]
  constructor
  · intro h
    obtain ⟨xs, hs, h⟩ := h
    split at h
    · next y hy =>
      cases h
      rw [ofBytes?_eq_some] at hy
      rw [hs, ← hy, List.reverse_reverse]
    · cases h
  · intro h
    refine ⟨x.bytes.reverse, h, ?_⟩
    rw [List.reverse_reverse, ofBytes?_bytes]

theorem ofHex_eq_error_iff {s : String} {e : HexError} :
    ofHex s = .error e ↔ decode s = .error e ∨
      ∃ xs, decode s = .ok xs ∧ xs.length ≠ 32 ∧ e = .wrongLength xs.length := by
  rw [ofHex]
  cases hs : decode s with
  | error e' => simp [bind, Except.bind]
  | ok xs =>
    simp only [bind, Except.bind, reduceCtorEq, Except.ok.injEq, exists_eq_left', false_or]
    split
    · next x hx =>
      have hlen := x.length_bytes
      rw [← ofBytes?_eq_some.mp hx, List.length_reverse] at hlen
      simp [hlen]
    · next hx =>
      have hlen := ofBytes?_eq_none.mp hx
      rw [List.length_reverse] at hlen
      simp [hlen, eq_comm]

theorem digits_of_toLower {s : String} {xs : List UInt8} (h : s.toLower = encode xs) :
    (∀ c ∈ s.toList, IsDigit c) ∧ s.length = 2 * xs.length ∧ s.utf8ByteSize = 2 * xs.length := by
  have hbytes := toLower_eq_encode_iff.mp h
  have hs : ∀ c ∈ s.toList, IsDigit c := by
    rw [forall_isDigit_iff_bytes]
    exact List.forall_mem_map.mp (isDigit_of_map_toLower hbytes)
  have hlen := congrArg List.length hbytes
  rw [List.length_map, length_flatMap_digitPair] at hlen
  refine ⟨hs, ?_, ?_⟩
  · rwa [map_ofCode_textBytes hs, String.length_toList] at hlen
  · rwa [List.length_map, length_textBytes] at hlen

theorem exists_toLower {s : String} (hs : ∀ c ∈ s.toList, IsDigit c)
    (heven : s.utf8ByteSize % 2 = 0) : ∃ xs, s.toLower = encode xs := by
  cases hd : decode s with
  | ok xs => exact ⟨xs, decode_eq_ok_iff.mp hd⟩
  | error e =>
    rcases decode_eq_error_iff.mp hd with ⟨hodd, -⟩ | ⟨-, b, k, hbad, -⟩
    · exact absurd (heven.symm.trans hodd) (by decide)
    · obtain ⟨front, rest, heq, -, -, hb⟩ := hbad
      have hmem : b ∈ textBytes s := by
        rw [heq]
        exact List.mem_append_right _ List.mem_cons_self
      exact absurd ((forall_isDigit_iff_bytes s).mp hs b hmem) hb

theorem unreadable_iff {s : String} {e : HexError} : Unreadable s e ↔ ofHex s = .error e := by
  rw [ofHex_eq_error_iff, decode_eq_error_iff]
  constructor
  · intro h
    cases h with
    | oddLength hodd => exact .inl (.inl ⟨hodd, rfl⟩)
    | badDigit heven hbad => exact .inl (.inr ⟨heven, _, _, hbad, rfl⟩)
    | wrongLength heven hdigits hlen =>
      obtain ⟨xs, hxs⟩ := exists_toLower hdigits heven
      have hsize := (digits_of_toLower hxs).2.2
      exact .inr ⟨xs, decode_eq_ok_iff.mpr hxs, by omega, congrArg _ (by omega)⟩
  · intro h
    rcases h with (⟨hodd, rfl⟩ | ⟨heven, b, k, hbad, rfl⟩) | ⟨xs, hxs, hne, rfl⟩
    · exact .oddLength hodd
    · exact .badDigit heven hbad
    · obtain ⟨hdigits, -, hsize⟩ := digits_of_toLower (decode_eq_ok_iff.mp hxs)
      have hwrong := Unreadable.wrongLength (s := s) (by omega) hdigits (by omega)
      rwa [hsize, Nat.mul_div_cancel_left _ Nat.two_pos] at hwrong

theorem ofHex_toHex (x : Hash) : ofHex x.toHex = .ok x := by
  rw [ofHex_eq_ok_iff, toHex, toLower_encode]

/-- a text names a hash if it consists of sixty-four digits -/
theorem exists_ofHex_iff {s : String} : (∃ x, ofHex s = .ok x) ↔ Digits 64 s := by
  simp only [ofHex_eq_ok_iff, toHex]
  constructor
  · intro h
    obtain ⟨x, hx⟩ := h
    obtain ⟨hdigits, hlen, -⟩ := digits_of_toLower hx
    rw [List.length_reverse, x.length_bytes] at hlen
    exact ⟨hlen, hdigits⟩
  · intro h
    obtain ⟨hlen, hdigits⟩ := h
    have hsize : s.utf8ByteSize = s.length := by
      rw [← length_textBytes, ← String.length_toList, ← map_ofCode_textBytes hdigits,
        List.length_map]
    obtain ⟨xs, hxs⟩ := exists_toLower hdigits (by omega)
    have hsame := (digits_of_toLower hxs).2.1
    refine ⟨⟨xs.reverse, by rw [List.length_reverse]; omega⟩, ?_⟩
    rwa [List.reverse_reverse]

end Hash

/-- **A hash has one lower-case text, and reading accepts it in either case and nothing else.** The
text of a hash reads back as that hash. A text is read as a hash if it consists of sixty-four
digits, and then as the hash whose text is its lower-case form. Any other text is refused: for an
odd count of bytes, else for its first byte that is no digit, else for the count of bytes that its
digits spell. -/
theorem hash_texts_are_digits :
    (∀ x : Hash, Hash.ofHex x.toHex = .ok x) ∧
    (∀ s : String, (∃ x, Hash.ofHex s = .ok x) ↔ Hex.Digits 64 s) ∧
    (∀ (s : String) (x : Hash), Hash.ofHex s = .ok x ↔ Hex.Digits 64 s ∧ s.toLower = x.toHex) ∧
    ∀ (s : String) (e : HexError), Hash.ofHex s = .error e ↔ Hash.Unreadable s e := by
  refine ⟨Hash.ofHex_toHex, fun s => Hash.exists_ofHex_iff, fun s x => ?_,
    fun s e => Hash.unreadable_iff.symm⟩
  constructor
  · intro h
    exact ⟨Hash.exists_ofHex_iff.mp ⟨x, h⟩, Hash.ofHex_eq_ok_iff.mp h⟩
  · intro h
    exact Hash.ofHex_eq_ok_iff.mpr h.2

/-- two characters in three bytes; a byte that is no digit after one that is; two bytes of digits -/
example : Hash.ofHex "aé" = .error .oddLength ∧ Hash.ofHex "aéz" = .error (.badDigit 0xc3 1) ∧
    Hash.ofHex "00AB" = .error (.wrongLength 2) := ⟨rfl, rfl, rfl⟩

end BlockProof
