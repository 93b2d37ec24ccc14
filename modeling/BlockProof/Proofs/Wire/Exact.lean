import BlockProof.Wire
import Mathlib.Tactic.Ring

/-!
# Readers that accept exactly what is written

A reader is exact for a way of writing values if it yields a value and a rest just when the bytes
are that value as written and then the rest. Exact readers compose: a value made of fields is read
exactly if each field is.

* `Exact r good write`   the property, for the values that are `good`;
* `takeBytes_eq_ok_iff`, `readNat_eq_ok_iff`   bytes and numbers of a fixed width;
* `takeBytes_eq_error_iff`   too few bytes;
* `exact_readUInt32`, `exact_readHash`, `exact_readHeader`   the fields of fixed width;
* `Exact.readMany`       a counted run of values;
* `Exact.readAll_eq_ok_iff`   a value that leaves nothing over.
-/

namespace BlockProof

/-- `r` accepts exactly the good values as `write` writes them, whatever follows -/
def Exact {α : Type} (r : Reader α) (good : α → Prop) (write : α → List UInt8) : Prop :=
  ∀ bs x rest, r bs = .ok (x, rest) ↔ good x ∧ bs = write x ++ rest

/-! ## fields of a fixed width -/

theorem takeBytes_eq_ok_iff {n : Nat} {bs front rest : List UInt8} :
    takeBytes n bs = .ok (front, rest) ↔ front.length = n ∧ bs = front ++ rest := by
  constructor
  · intro h
    rw [takeBytes] at h
    split at h
    · next hlen =>
      cases h
      exact ⟨hlen, (List.take_append_drop n bs).symm⟩
    · cases h
  · intro h
    obtain ⟨hlen, rfl⟩ := h
    exact takeBytes_append hlen rest

theorem takeBytes_eq_error_iff {n : Nat} {bs : List UInt8} {e : WireError} :
    takeBytes n bs = .error e ↔ bs.length < n ∧ e = .unexpectedEnd := by
  rw [takeBytes, List.length_take]
  by_cases hn : n ≤ bs.length
  · rw [if_pos (Nat.min_eq_left hn)]
    constructor
    · intro h
      cases h
    · intro h
      exact absurd hn (Nat.not_le.mpr h.1)
  · rw [if_neg (by omega), Except.error.injEq, eq_comm]
    exact ⟨fun h => ⟨Nat.not_le.mp hn, h⟩, fun h => h.2⟩

theorem littleEndian_eq_iff {w n : Nat} {bs : List UInt8} :
    bs = littleEndian w n ∧ n < 1 <<< (8 * w) ↔ bs.length = w ∧ n = ofLittleEndian bs := by
  constructor
  · intro h
    obtain ⟨rfl, hn⟩ := h
    refine ⟨length_littleEndian w n, ?_⟩
    rw [ofLittleEndian_littleEndian, Nat.mod_eq_of_lt hn]
  · intro h
    obtain ⟨rfl, rfl⟩ := h
    exact ⟨(littleEndian_ofLittleEndian bs).symm, ofLittleEndian_lt bs⟩

theorem readNat_eq_ok_iff {w n : Nat} {bs rest : List UInt8} :
    readNat w bs = .ok (n, rest) ↔ n < 1 <<< (8 * w) ∧ bs = littleEndian w n ++ rest := by
  simp only [readNat, bind_eq_ok_iff, Prod.exists, takeBytes_eq_ok_iff, pure_eq_ok_iff,
    Prod.mk.injEq]
  constructor
  · intro h
    obtain ⟨front, b, ⟨hlen, rfl⟩, rfl, rfl⟩ := h
    obtain ⟨hfront, hn⟩ := littleEndian_eq_iff.mpr ⟨hlen, rfl⟩
    exact ⟨hn, congrArg (· ++ b) hfront⟩
  · intro h
    obtain ⟨hn, rfl⟩ := h
    obtain ⟨hlen, hval⟩ := littleEndian_eq_iff.mp ⟨rfl, hn⟩
    exact ⟨littleEndian w n, rest, ⟨hlen, rfl⟩, hval.symm, rfl⟩

theorem exact_readUInt32 : Exact readUInt32 (fun _ => True) encodeUInt32 := by
  intro bs x rest
  simp only [readUInt32, bind_eq_ok_iff, Prod.exists, readNat_eq_ok_iff, pure_eq_ok_iff,
    Prod.mk.injEq, true_and]
  constructor
  · intro h
    obtain ⟨n, b, ⟨hn, rfl⟩, rfl, rfl⟩ := h
    have hval : (UInt32.ofNat n).toNat = n := UInt32.toNat_ofNat_of_lt' hn
    rw [encodeUInt32, hval]
  · intro h
    subst h
    exact ⟨x.toNat, rest, ⟨x.toNat_lt, rfl⟩, UInt32.ofNat_toNat, rfl⟩

theorem exact_readHash : Exact readHash (fun _ => True) Hash.bytes := by
  intro bs x rest
  simp only [readHash, bind_eq_ok_iff, Prod.exists, takeBytes_eq_ok_iff, true_and]
  constructor
  · intro h
    obtain ⟨front, b, ⟨hlen, rfl⟩, h⟩ := h
    cases hx : Hash.ofBytes? front with
    | none => exact absurd hlen (Hash.ofBytes?_eq_none.mp hx)
    | some y =>
      rw [hx] at h
      obtain ⟨rfl, rfl⟩ := Prod.mk.inj (pure_eq_ok_iff.mp h)
      rw [Hash.ofBytes?_eq_some.mp hx]
  · intro h
    subst h
    refine ⟨x.bytes, rest, ⟨x.length_bytes, rfl⟩, ?_⟩
    rw [Hash.ofBytes?_bytes]
    rfl

theorem exact_readHeader : Exact readHeader (fun _ => True) Header.toBytes := by
  intro bs x rest
  simp only [readHeader, bind_eq_ok_iff, Prod.exists, exact_readUInt32 _ _ _, exact_readHash _ _ _,
    pure_eq_ok_iff, Prod.mk.injEq, true_and]
  constructor
  · intro h
    obtain ⟨version, _, rfl, prev, _, rfl, root, _, rfl, time, _, rfl, bits, _, rfl, nonce, _, rfl,
      rfl, rfl⟩ := h
    simp only [Header.toBytes, encodeUInt32, UInt32.toUInt32_toInt32, List.append_assoc]
  · intro h
    subst h
    refine ⟨x.version.toUInt32, _, ?_, x.prevBlock, _, rfl, x.merkleRoot, _, rfl, x.timestamp, _, rfl,
      x.bits, _, rfl, x.nonce, rest, rfl, ?_, rfl⟩
    · simp only [Header.toBytes, encodeUInt32, List.append_assoc]
    · rw [Int32.toInt32_toUInt32]

/-! ## runs of values -/

theorem Exact.readMany {α : Type} {r : Reader α} {good : α → Prop} {write : α → List UInt8}
    (hr : Exact r good write) {n : Nat} {bs rest : List UInt8} {xs : List α} :
    readMany r n bs = .ok (xs, rest) ↔
      xs.length = n ∧ (∀ x ∈ xs, good x) ∧ bs = xs.flatMap write ++ rest := by
  induction n generalizing bs xs rest with
  | zero =>
    rw [readMany_zero, List.length_eq_zero_iff]
    constructor
    · intro h
      cases h
      exact ⟨rfl, by simp, rfl⟩
    · intro h
      obtain ⟨rfl, -, rfl⟩ := h
      rfl
  | succ n ih =>
    simp only [readMany_succ, bind_eq_ok_iff, Prod.exists, hr _ _ _, ih, pure_eq_ok_iff,
      Prod.mk.injEq]
    constructor
    · intro h
      obtain ⟨x, _, ⟨hx, rfl⟩, ys, _, ⟨hlen, hys, rfl⟩, rfl, rfl⟩ := h
      refine ⟨by rw [List.length_cons, hlen], List.forall_mem_cons.mpr ⟨hx, hys⟩, ?_⟩
      rw [List.flatMap_cons, List.append_assoc]
    · intro h
      obtain ⟨hlen, hxs, rfl⟩ := h
      cases xs with
      | nil => cases hlen
      | cons x ys =>
        obtain ⟨hx, hys⟩ := List.forall_mem_cons.mp hxs
        refine ⟨x, _, ⟨hx, ?_⟩, ys, rest, ⟨Nat.succ.inj hlen, hys, rfl⟩, rfl, rfl⟩
        rw [List.flatMap_cons, List.append_assoc]

theorem Exact.readAll_eq_ok_iff {α : Type} {r : Reader α} {good : α → Prop}
    {write : α → List UInt8} (hr : Exact r good write) {bs : List UInt8} {x : α} :
    readAll r bs = .ok x ↔ good x ∧ bs = write x := by
  simp only [readAll, bind_eq_ok_iff, Prod.exists, hr _ _ _]
  constructor
  · intro h
    obtain ⟨y, rest, ⟨hy, rfl⟩, h⟩ := h
    cases rest with
    | nil =>
      cases h
      exact ⟨hy, List.append_nil _⟩
    | cons b rest => cases h
  · intro h
    obtain ⟨hx, rfl⟩ := h
    exact ⟨x, [], ⟨hx, (List.append_nil _).symm⟩, rfl⟩

end BlockProof
