import BlockProof.Wire
import Mathlib.Algebra.Order.Floor.Semiring
import Mathlib.Data.Nat.BinaryRec
import Mathlib.Data.Rat.Floor
import Mathlib.Data.Set.Function
import Mathlib.Tactic.NormNum
import Mathlib.Tactic.Ring

/-!
# Packing is a bijection up to padding

Bytes survive unpacking and packing. Flags survive packing and unpacking, with zeros after them up
to the end of the last byte.

Flags can be packed one at a time: start from as many zero bytes as have room for them and set the
bits in turn, each with a mask of its own. To set a bit of the bytes is to set an entry of the list
that they unpack to, so after every flag that list holds what was written so far and zeros after it,
and in the end the bytes are the ones that packing yields. They are told by their bits alone.

* `getElem?_unpackBits`      flag number `8 * i + j` is bit `j` of byte `i`;
* `packBits_unpackBits`, `unpackBits_packBits`   bytes to flags and back, flags to bytes and back;
* `bitAt bs i`               bit number `i` of a row of bytes;
* `setFlag`, `writeFlags`    one flag, and flags in turn;
* `exists_setFlag`           setting a flag sets one entry of the list of bits;
* `writeFlags_zeros`         flags written in turn into zero bytes are packed;
* `HoldsFlags bs flags`      what the bits of packed flags are;
* `holdsFlags_iff`           no other bytes have those bits;
* `packing_bijective_up_to_padding`   the main result.
-/

namespace BlockProof

/-! ## one byte -/

theorem testBit_foldr_bits (f : Nat → Bool) (n a j : Nat) :
    ((List.range n).foldr (fun j rest => (f j).toNat <<< j + rest) (a <<< n)).testBit j =
      if j < n then f j else a.testBit (j - n) := by
  induction n generalizing a with
  | zero => rfl
  | succ n ih =>
    have hbit : (f n).toNat <<< n + a <<< (n + 1) = Nat.bit (f n) a <<< n := by
      simp only [Nat.shiftLeft_eq, Nat.bit_val, Nat.pow_succ]
      ring
    rw [List.range_succ, List.foldr_append, List.foldr_cons, List.foldr_nil, hbit, ih]
    rcases Nat.lt_trichotomy j n with h | rfl | h
    · rw [if_pos h, if_pos (by omega)]
    · rw [if_neg (Nat.lt_irrefl j), if_pos (Nat.lt_succ_self j), Nat.sub_self, Nat.testBit_bit_zero]
    · obtain ⟨k, rfl⟩ : ∃ k, j = n + 1 + k := ⟨j - (n + 1), by omega⟩
      have hk : n + 1 + k - n = k + 1 := by omega
      rw [if_neg (by omega), if_neg (by omega), hk, Nat.testBit_add_one, Nat.bit_div_two,
        Nat.add_sub_cancel_left]

theorem testBit_byteOfBits (f : Nat → Bool) (j : Nat) :
    (byteOfBits f).toNat.testBit j = (decide (j < 8) && f j) := by
  have hbits := testBit_foldr_bits f 8 0 j
  rw [Nat.zero_shiftLeft, Nat.zero_testBit] at hbits
  rw [byteOfBits, UInt8.toNat_ofNat', Nat.testBit_mod_two_pow, hbits]
  by_cases h : j < 8
  · rw [if_pos h]
  · rw [decide_eq_false h, Bool.false_and, Bool.false_and]

theorem byteOfBits_eq_iff {f : Nat → Bool} {b : UInt8} :
    byteOfBits f = b ↔ ∀ j < 8, f j = b.toNat.testBit j := by
  constructor
  · intro h j hj
    rw [← h, testBit_byteOfBits, decide_eq_true hj, Bool.true_and]
  · intro h
    apply UInt8.toNat_inj.mp
    apply Nat.eq_of_testBit_eq
    intro j
    rw [testBit_byteOfBits]
    by_cases hj : j < 8
    · rw [decide_eq_true hj, Bool.true_and, h j hj]
    · have hlt : b.toNat < 2 ^ j :=
        b.toNat_lt.trans_le (Nat.pow_le_pow_right Nat.two_pos (Nat.not_lt.mp hj))
      rw [decide_eq_false hj, Bool.false_and, Nat.testBit_lt_two_pow hlt]

/-! ## all bytes -/

theorem getElem?_bitsOfByte (b : UInt8) {j : Nat} (hj : j < 8) :
    (bitsOfByte b)[j]? = some (b.toNat.testBit j) := by
  rw [bitsOfByte, List.getElem?_map, List.getElem?_range hj]
  rfl

/-- flag number `8 * i + j` is bit `j` of byte `i` -/
theorem getElem?_unpackBits (bs : List UInt8) (i : Nat) {j : Nat} (hj : j < 8) :
    (unpackBits bs)[8 * i + j]? = bs[i]?.map fun b => b.toNat.testBit j := by
  induction bs generalizing i with
  | nil => rfl
  | cons b bs ih =>
    rw [unpackBits_cons]
    cases i with
    | zero =>
      rw [Nat.mul_zero, Nat.zero_add, List.getElem?_append_left (by rwa [length_bitsOfByte]),
        getElem?_bitsOfByte b hj]
      rfl
    | succ i =>
      have hpast : 8 * (i + 1) + j - 8 = 8 * i + j := by omega
      rw [List.getElem?_append_right (by rw [length_bitsOfByte]; omega), length_bitsOfByte, hpast,
        ih i, List.getElem?_cons_succ]

theorem getElem?_packBits (flags : List Bool) {i : Nat} (hi : 8 * i < flags.length) :
    (packBits flags.toArray)[i]? = some (byteOfBits fun j => flags[8 * i + j]?.getD false) := by
  have hlt : i < (flags.length + 7) / 8 := by omega
  simp only [packBits, List.size_toArray, List.getElem?_map, List.getElem?_range hlt,
    Option.map_some, Array.getD_eq_getD_getElem?, List.getElem?_toArray]

theorem packBits_unpackBits (bs : List UInt8) : packBits (unpackBits bs).toArray = bs := by
  have hlen : (packBits (unpackBits bs).toArray).length = bs.length := by
    rw [length_packBits, List.size_toArray, length_unpackBits]
    omega
  apply List.ext_getElem?
  intro i
  by_cases hi : i < bs.length
  · have hbit : byteOfBits (fun j => (unpackBits bs)[8 * i + j]?.getD false) = bs[i] := by
      rw [byteOfBits_eq_iff]
      intro j hj
      rw [getElem?_unpackBits bs i hj, List.getElem?_eq_getElem hi]
      rfl
    rw [getElem?_packBits _ (by rw [length_unpackBits]; omega), hbit, List.getElem?_eq_getElem hi]
  · rw [List.getElem?_eq_none (by omega), List.getElem?_eq_none (by omega)]

theorem unpackBits_packBits (flags : List Bool) : unpackBits (packBits flags.toArray) =
    flags ++ List.replicate (8 * ((flags.length + 7) / 8) - flags.length) false := by
  have hlen : (unpackBits (packBits flags.toArray)).length = 8 * ((flags.length + 7) / 8) := by
    rw [length_unpackBits, length_packBits, List.size_toArray]
  apply List.ext_getElem?
  intro k
  by_cases hk : k < 8 * ((flags.length + 7) / 8)
  · obtain ⟨i, j, hj, rfl⟩ : ∃ i j, j < 8 ∧ k = 8 * i + j :=
      ⟨k / 8, k % 8, Nat.mod_lt k (by decide), (Nat.div_add_mod k 8).symm⟩
    rw [getElem?_unpackBits _ i hj, getElem?_packBits flags (by omega), Option.map_some,
      testBit_byteOfBits, decide_eq_true hj, Bool.true_and]
    by_cases hin : 8 * i + j < flags.length
    · rw [List.getElem?_append_left hin, List.getElem?_eq_getElem hin]
      rfl
    · rw [List.getElem?_append_right (Nat.not_lt.mp hin), List.getElem?_replicate,
        if_pos (by omega), List.getElem?_eq_none (Nat.not_lt.mp hin)]
      rfl
  · rw [List.getElem?_eq_none (by omega), List.getElem?_eq_none]
    rw [List.length_append, List.length_replicate]
    omega

theorem unpackBits_packBits_of_dvd {flags : List Bool} (h : 8 ∣ flags.length) :
    unpackBits (packBits flags.toArray) = flags := by
  obtain ⟨k, hk⟩ := h
  have hpad : 8 * ((flags.length + 7) / 8) - flags.length = 0 := by omega
  rw [unpackBits_packBits, hpad, List.replicate_zero, List.append_nil]

/-! ## bits of a row of bytes -/

/-- bit number `i` of a row of bytes, the least significant of each byte first -/
def bitAt (bs : List UInt8) (i : Nat) : Option Bool :=
  bs[i / 8]?.map fun b => b.toNat.testBit (i % 8)

theorem getElem?_unpackBits_eq_bitAt (bs : List UInt8) (i : Nat) :
    (unpackBits bs)[i]? = bitAt bs i := by
  have hbit := getElem?_unpackBits bs (i / 8) (Nat.mod_lt i (by decide : 0 < 8))
  rwa [Nat.div_add_mod] at hbit

theorem unpackBits_injective : Function.Injective unpackBits := by
  have hleft : Function.LeftInverse (fun flags : List Bool => packBits flags.toArray) unpackBits :=
    packBits_unpackBits
  exact hleft.injective

theorem unpackBits_zeros (n : Nat) :
    unpackBits (List.replicate n 0) = List.replicate (8 * n) false := by
  induction n with
  | zero => rfl
  | succ n ih =>
    have hzero : bitsOfByte 0 = List.replicate 8 false := by decide
    rw [List.replicate_succ, unpackBits_cons, ih, hzero, List.replicate_append_replicate,
      Nat.mul_succ, Nat.add_comm]

/-! ## flags one at a time -/

def setBit (b : UInt8) (j : Nat) (v : Bool) : UInt8 :=
  let mask := 1 <<< UInt8.ofNat j
  if v then b ||| mask else b &&& ~~~mask

/-- flag number `i` set to `v`, if the bytes have room for it -/
def setFlag (bs : List UInt8) (i : Nat) (v : Bool) : Option (List UInt8) :=
  bs[i / 8]?.map fun b => bs.set (i / 8) (setBit b (i % 8) v)

/-- flags written one after another, the first of them as number `i` -/
def writeFlags : List UInt8 → Nat → List Bool → Option (List UInt8)
  | bs, _, [] => some bs
  | bs, i, v :: flags => (setFlag bs i v).bind fun bs => writeFlags bs (i + 1) flags

theorem testBit_setBit (b : UInt8) (v : Bool) {j k : Nat} (hj : j < 8) (hk : k < 8) :
    (setBit b j v).toNat.testBit k = if j = k then v else b.toNat.testBit k := by
  have hpow : 2 ^ j < 2 ^ 8 := Nat.pow_lt_pow_right (by decide) hj
  have hmask : ((1 : UInt8) <<< UInt8.ofNat j).toNat = 2 ^ j := by
    rw [UInt8.toNat_shiftLeft, UInt8.toNat_ofNat', Nat.mod_eq_of_lt (by omega : j < 2 ^ 8),
      Nat.mod_eq_of_lt hj, UInt8.toNat_one, Nat.one_shiftLeft, Nat.mod_eq_of_lt hpow]
  cases v with
  | true =>
    have hset : setBit b j true = b ||| 1 <<< UInt8.ofNat j := rfl
    rw [hset, UInt8.toNat_or, hmask, Nat.testBit_or, Nat.testBit_two_pow]
    by_cases h : j = k
    · rw [if_pos h, decide_eq_true h, Bool.or_true]
    · rw [if_neg h, decide_eq_false h, Bool.or_false]
  | false =>
    have hset : setBit b j false = b &&& ~~~(1 <<< UInt8.ofNat j) := rfl
    have hsize : UInt8.size = 2 ^ 8 := rfl
    have hnot : UInt8.size - 1 - 2 ^ j = 2 ^ 8 - (2 ^ j + 1) := by
      rw [hsize, Nat.sub_sub, Nat.add_comm 1]
    rw [hset, UInt8.toNat_and, UInt8.toNat_not, hmask, hnot, Nat.testBit_and,
      Nat.testBit_two_pow_sub_succ hpow, Nat.testBit_two_pow, decide_eq_true hk, Bool.true_and]
    by_cases h : j = k
    · rw [if_pos h, decide_eq_true h, Bool.not_true, Bool.and_false]
    · rw [if_neg h, decide_eq_false h, Bool.not_false, Bool.and_true]

theorem exists_setFlag (bs : List UInt8) {i : Nat} (hi : i < (unpackBits bs).length) (v : Bool) :
    ∃ bs', setFlag bs i v = some bs' ∧ unpackBits bs' = (unpackBits bs).set i v := by
  rw [length_unpackBits] at hi
  have hbyte : i / 8 < bs.length := by omega
  refine ⟨bs.set (i / 8) (setBit bs[i / 8] (i % 8) v), ?_, ?_⟩
  · rw [setFlag, List.getElem?_eq_getElem hbyte, Option.map_some]
  · apply List.ext_getElem?
    intro k
    rw [getElem?_unpackBits_eq_bitAt, List.getElem?_set, getElem?_unpackBits_eq_bitAt,
      length_unpackBits, if_pos hi, bitAt, bitAt, List.getElem?_set, if_pos hbyte]
    by_cases hsame : i / 8 = k / 8
    · rw [if_pos hsame, Option.map_some,
        testBit_setBit _ v (Nat.mod_lt i (by decide)) (Nat.mod_lt k (by decide)), ← hsame,
        List.getElem?_eq_getElem hbyte, Option.map_some]
      by_cases hik : i = k
      · rw [if_pos hik, if_pos (by rw [hik])]
      · rw [if_neg hik, if_neg (by omega)]
    · rw [if_neg hsame, if_neg (by rintro rfl; exact hsame rfl)]

/-- what was written so far, and zeros after it: each flag takes the place of the first zero -/
theorem exists_writeFlags (flags written : List Bool) (bs : List UInt8) (k : Nat)
    (hbits : unpackBits bs = written ++ List.replicate (flags.length + k) false) :
    ∃ bs', writeFlags bs written.length flags = some bs' ∧
      unpackBits bs' = written ++ flags ++ List.replicate k false := by
  induction flags generalizing written bs with
  | nil =>
    refine ⟨bs, rfl, ?_⟩
    rw [hbits, List.length_nil, Nat.zero_add, List.append_nil]
  | cons v flags ih =>
    have hroom : written.length < (unpackBits bs).length := by
      rw [hbits, List.length_append, List.length_replicate, List.length_cons]
      omega
    obtain ⟨bs₁, hset, hone⟩ := exists_setFlag bs hroom v
    have hnext : unpackBits bs₁ =
        (written ++ [v]) ++ List.replicate (flags.length + k) false := by
      rw [hone, hbits, List.set_append_right _ _ (Nat.le_refl _), Nat.sub_self, List.length_cons,
        Nat.add_right_comm, List.replicate_succ, List.set_cons_zero, List.append_assoc,
        List.singleton_append]
    obtain ⟨bs₂, hrun, hall⟩ := ih (written ++ [v]) bs₁ hnext
    refine ⟨bs₂, ?_, ?_⟩
    · rw [List.length_append, List.length_singleton] at hrun
      rw [writeFlags, hset, Option.bind_some, hrun]
    · rw [hall, List.append_assoc written, List.singleton_append]

/-- flags written in turn into zero bytes are packed -/
theorem writeFlags_zeros (flags : List Bool) :
    writeFlags (List.replicate ((flags.length + 7) / 8) 0) 0 flags =
      some (packBits flags.toArray) := by
  obtain ⟨k, hk⟩ : ∃ k, 8 * ((flags.length + 7) / 8) = flags.length + k :=
    ⟨8 * ((flags.length + 7) / 8) - flags.length, by omega⟩
  have hzeros : unpackBits (List.replicate ((flags.length + 7) / 8) 0) =
      [] ++ List.replicate (flags.length + k) false := by
    rw [unpackBits_zeros, hk, List.nil_append]
  obtain ⟨bs, hrun, hbits⟩ := exists_writeFlags flags [] _ k hzeros
  have hpacked : bs = packBits flags.toArray := by
    apply unpackBits_injective
    rw [hbits, unpackBits_packBits, hk, Nat.add_sub_cancel_left, List.nil_append]
  rw [← hpacked]
  exact hrun

/-! ## packed flags by their bits -/

/-- the bytes hold the flags, eight to a byte and zeros after them -/
structure HoldsFlags (bs : List UInt8) (flags : List Bool) : Prop where
  /-- as few bytes as have room for the flags -/
  length_eq : bs.length = ⌈(flags.length : ℚ) / 8⌉₊
  /-- flag number `i` is bit `i % 8` of byte `i / 8` -/
  flag : ∀ (i : Nat) (hi : i < flags.length), bitAt bs i = some flags[i]
  /-- all other bits are zero -/
  padding : ∀ i, flags.length ≤ i → i < 8 * bs.length → bitAt bs i = some false

theorem bytes_eq_ceil (n : Nat) : (n + 7) / 8 = ⌈(n : ℚ) / 8⌉₊ := by
  refine eq_of_forall_lt_iff fun k => ?_
  rw [Nat.lt_ceil, lt_div_iff₀ (by norm_num)]
  norm_cast
  omega

theorem HoldsFlags.unpackBits_eq {bs : List UInt8} {flags : List Bool} (h : HoldsFlags bs flags) :
    unpackBits bs = flags ++ List.replicate (8 * bs.length - flags.length) false := by
  have hroom : flags.length ≤ 8 * bs.length := by
    rw [h.length_eq, ← bytes_eq_ceil]
    omega
  apply List.ext_getElem?
  intro i
  by_cases hi : i < 8 * bs.length
  · rw [getElem?_unpackBits_eq_bitAt]
    by_cases hin : i < flags.length
    · rw [h.flag i hin, List.getElem?_append_left hin, List.getElem?_eq_getElem hin]
    · rw [h.padding i (Nat.not_lt.mp hin) hi, List.getElem?_append_right (Nat.not_lt.mp hin),
        List.getElem?_replicate, if_pos (by omega)]
  · rw [List.getElem?_eq_none (by rw [length_unpackBits]; omega), List.getElem?_eq_none]
    rw [List.length_append, List.length_replicate]
    omega

theorem holdsFlags_packBits (flags : List Bool) : HoldsFlags (packBits flags.toArray) flags where
  length_eq := by rw [length_packBits, List.size_toArray, bytes_eq_ceil]
  flag i hi := by
    rw [← getElem?_unpackBits_eq_bitAt, unpackBits_packBits, List.getElem?_append_left hi,
      List.getElem?_eq_getElem hi]
  padding i hi hbits := by
    rw [length_packBits, List.size_toArray] at hbits
    rw [← getElem?_unpackBits_eq_bitAt, unpackBits_packBits, List.getElem?_append_right hi,
      List.getElem?_replicate, if_pos (by omega)]

/-- packed flags are the only bytes with those bits -/
theorem holdsFlags_iff {bs : List UInt8} {flags : List Bool} :
    HoldsFlags bs flags ↔ packBits flags.toArray = bs := by
  constructor
  · intro h
    apply unpackBits_injective
    rw [h.unpackBits_eq, (holdsFlags_packBits flags).unpackBits_eq, h.length_eq,
      (holdsFlags_packBits flags).length_eq]
  · intro h
    rw [← h]
    exact holdsFlags_packBits flags

/-! ## what packing keeps -/

theorem exists_padding (flags : List Bool) :
    ∃ k < 8, unpackBits (packBits flags.toArray) = flags ++ List.replicate k false :=
  ⟨8 * ((flags.length + 7) / 8) - flags.length, by omega, unpackBits_packBits flags⟩

theorem injOn_packBits (n : Nat) :
    Set.InjOn (fun flags : List Bool => packBits flags.toArray) {flags | flags.length = n} := by
  intro f hf g hg hpack
  have hbits : unpackBits (packBits f.toArray) = unpackBits (packBits g.toArray) :=
    congrArg unpackBits hpack
  rw [unpackBits_packBits, unpackBits_packBits] at hbits
  exact List.append_inj_left hbits (hf.trans hg.symm)

theorem bijOn_packBits :
    Set.BijOn (fun flags : List Bool => packBits flags.toArray) {flags | 8 ∣ flags.length}
      Set.univ := by
  have hinv : Set.InvOn unpackBits (fun flags : List Bool => packBits flags.toArray)
      {flags | 8 ∣ flags.length} Set.univ :=
    ⟨fun _ hdvd => unpackBits_packBits_of_dvd hdvd, fun bs _ => packBits_unpackBits bs⟩
  refine hinv.bijOn (fun _ _ => Set.mem_univ _) fun bs _ => ?_
  exact ⟨bs.length, length_unpackBits bs⟩

/-- **Packing is a bijection up to padding.** Flags are packed by setting them in turn in zero
bytes, and the result is told by its bits: one byte for every eight flags or part of them, flag
number `i` as bit `i % 8` of byte `i / 8`, and zeros after the last. Unpacking yields them again
with fewer than eight zeros after them, or none where they fill their bytes. Bytes unpack to eight
flags each, and come back from these. So two lists of equally many flags that are packed to the
same bytes are the same list. -/
theorem packing_bijective_up_to_padding :
    (∀ flags : List Bool,
      writeFlags (List.replicate ((flags.length + 7) / 8) 0) 0 flags =
          some (packBits flags.toArray) ∧
        (∀ bs, HoldsFlags bs flags ↔ packBits flags.toArray = bs) ∧
        ∃ k < 8, unpackBits (packBits flags.toArray) = flags ++ List.replicate k false) ∧
    (∀ bs : List UInt8, (unpackBits bs).length = 8 * bs.length ∧
      packBits (unpackBits bs).toArray = bs) ∧
    Set.BijOn (fun flags : List Bool => packBits flags.toArray) {flags | 8 ∣ flags.length}
      Set.univ ∧
    ∀ n, Set.InjOn (fun flags : List Bool => packBits flags.toArray)
      {flags | flags.length = n} :=
  ⟨fun flags => ⟨writeFlags_zeros flags, fun _ => holdsFlags_iff, exists_padding flags⟩,
    fun bs => ⟨length_unpackBits bs, packBits_unpackBits bs⟩, bijOn_packBits, injOn_packBits⟩

/-- eleven flags, the last of them in the third bit of the second byte -/
example : packBits #[true, false, false, true, true, true, false, true, false, true, true] =
    [0xb9, 0x06] := by decide

end BlockProof
