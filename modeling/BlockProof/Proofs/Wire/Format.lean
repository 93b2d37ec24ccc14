import BlockProof.Proofs.Wire.CompactSize
import BlockProof.Proofs.Wire.Packing

/-!
# The one wire form of a merkle block

The bytes that are accepted are described here without the reader: fields of fixed widths and two
lists, each behind a count in its shortest form. Reading accepts exactly these bytes, and what it
yields is written as the bytes it came from.

* `FixedWidth write k`    a value is any `k` bytes;
* `TreeForm`, `MerkleBlockForm`   the accepted bytes, in terms of lengths and counts;
* `Canonical`             a reader that accepts a form and is undone by a writer;
* `exact_readTree`, `exact_readMerkleBlock`   the readers are exact;
* `readers_canonical`     the main result, for trees and for merkle blocks.
-/

namespace BlockProof

/-! ## values that are any bytes of one length -/

/-- the values are written as the byte strings of length `k`, all of them -/
structure FixedWidth {α : Type} (write : α → List UInt8) (k : Nat) : Prop where
  length : ∀ x, (write x).length = k
  onto : ∀ bs, bs.length = k → ∃ x, write x = bs

namespace FixedWidth
section
variable {α : Type} {write : α → List UInt8} {k : Nat}

theorem exists_append (hw : FixedWidth write k) {l : Nat} {bs : List UInt8}
    (h : bs.length = k + l) : ∃ x rest, rest.length = l ∧ bs = write x ++ rest := by
  obtain ⟨x, hx⟩ := hw.onto (bs.take k) (by rw [List.length_take]; omega)
  refine ⟨x, bs.drop k, by rw [List.length_drop]; omega, ?_⟩
  rw [hx, List.take_append_drop]

theorem length_flatMap (hw : FixedWidth write k) (xs : List α) :
    (xs.flatMap write).length = k * xs.length := by
  induction xs with
  | nil => rfl
  | cons x xs ih =>
    rw [List.flatMap_cons, List.length_append, hw.length, ih, List.length_cons, Nat.mul_succ,
      Nat.add_comm]

theorem exists_flatMap (hw : FixedWidth write k) {n : Nat} {bs : List UInt8}
    (h : bs.length = k * n) : ∃ xs : List α, xs.length = n ∧ xs.flatMap write = bs := by
  induction n generalizing bs with
  | zero => exact ⟨[], rfl, (List.eq_nil_of_length_eq_zero h).symm⟩
  | succ n ih =>
    rw [Nat.mul_succ, Nat.add_comm] at h
    obtain ⟨x, rest, hrest, rfl⟩ := hw.exists_append h
    obtain ⟨xs, rfl, rfl⟩ := ih hrest
    exact ⟨x :: xs, rfl, List.flatMap_cons⟩

end
end FixedWidth

theorem fixedWidth_word : FixedWidth encodeUInt32 4 where
  length x := length_littleEndian 4 x.toNat
  onto bs h := by
    obtain ⟨hbs, hlt⟩ := littleEndian_eq_iff.mpr ⟨h, rfl⟩
    have hval : (UInt32.ofNat (ofLittleEndian bs)).toNat = ofLittleEndian bs :=
      UInt32.toNat_ofNat_of_lt' hlt
    exact ⟨UInt32.ofNat (ofLittleEndian bs), by rw [encodeUInt32, hval, ← hbs]⟩

theorem fixedWidth_hash : FixedWidth Hash.bytes 32 where
  length x := x.length_bytes
  onto bs h := ⟨⟨bs, h⟩, rfl⟩

theorem fixedWidth_header : FixedWidth Header.toBytes 80 where
  length x := x.length_toBytes
  onto bs h := by
    obtain ⟨version, bs1, h1, rfl⟩ := fixedWidth_word.exists_append (l := 76) h
    obtain ⟨prevBlock, bs2, h2, rfl⟩ := fixedWidth_hash.exists_append (l := 44) h1
    obtain ⟨merkleRoot, bs3, h3, rfl⟩ := fixedWidth_hash.exists_append (l := 12) h2
    obtain ⟨timestamp, bs4, h4, rfl⟩ := fixedWidth_word.exists_append (l := 8) h3
    obtain ⟨bits, bs5, h5, rfl⟩ := fixedWidth_word.exists_append (l := 4) h4
    obtain ⟨nonce, rfl⟩ := fixedWidth_word.onto bs5 h5
    refine ⟨⟨version.toInt32, prevBlock, merkleRoot, timestamp, bits, nonce⟩, ?_⟩
    simp only [Header.toBytes, encodeUInt32, UInt32.toUInt32_toInt32, List.append_assoc]

/-! ## the accepted bytes -/

/-- the bytes of a tree: the leaf count, the hashes after their count, the packed flags after the
count of their bytes -/
inductive TreeForm : List UInt8 → Prop where
  | intro {leafCount hashCount hashes flagCount flags : List UInt8} {n m : Nat}
      (length_leafCount : leafCount.length = 4)
      (hashCount_shortest : CompactSize.Shortest hashCount n)
      (hashes_fit : 32 * n ≤ 4000000)
      (length_hashes : hashes.length = 32 * n)
      (flagCount_shortest : CompactSize.Shortest flagCount m)
      (flags_fit : m ≤ 4000000)
      (length_flags : flags.length = m) :
      TreeForm (leafCount ++ hashCount ++ hashes ++ flagCount ++ flags)

/-- the bytes of a merkle block: the header, then the tree -/
inductive MerkleBlockForm : List UInt8 → Prop where
  | intro {header tree : List UInt8} (length_header : header.length = 80)
      (tree_form : TreeForm tree) : MerkleBlockForm (header ++ tree)

/-- reading a whole byte string accepts those of a form and no others, writing gives them back,
and therefore no two of them give one value -/
structure Canonical {α : Type} (r : Reader α) (write : α → List UInt8)
    (form : List UInt8 → Prop) : Prop where
  accepts_iff : ∀ bs, (∃ x, readAll r bs = .ok x) ↔ form bs
  write_read : ∀ bs x, readAll r bs = .ok x → write x = bs
  injective : ∀ bs cs x, readAll r bs = .ok x → readAll r cs = .ok x → bs = cs

theorem Exact.canonical {α : Type} {r : Reader α} {good : α → Prop} {write : α → List UInt8}
    {form : List UInt8 → Prop} (hr : Exact r good write)
    (hform : ∀ bs, form bs ↔ ∃ x, good x ∧ bs = write x) : Canonical r write form where
  accepts_iff bs := by simp only [hr.readAll_eq_ok_iff, hform]
  write_read bs x h := (hr.readAll_eq_ok_iff.mp h).2.symm
  injective bs cs x hb hc := by
    rw [(hr.readAll_eq_ok_iff.mp hb).2, (hr.readAll_eq_ok_iff.mp hc).2]

/-! ## trees -/

/-- a tree as reading leaves it: within the limits, its flags filling whole bytes -/
structure PartialTree.Whole (t : PartialTree) : Prop where
  hashes_fit : Fits 32 t.hashes.length
  flags_fit : Fits 1 (packBits t.flags.toArray).length
  flags_fill : 8 ∣ t.flags.length

theorem encodeTree_eq (t : PartialTree) :
    encodeTree t = encodeUInt32 t.leafCount ++ encodeCount t.hashes.length ++
      t.hashes.flatMap Hash.bytes ++ encodeCount (packBits t.flags.toArray).length ++
      packBits t.flags.toArray := rfl

theorem exact_readTree : Exact readTree PartialTree.Whole encodeTree := by
  intro bs t rest
  simp only [readTree, bind_eq_ok_iff, Prod.exists, exact_readUInt32 _ _ _,
    exact_readCount (Nat.succ_pos _) _ _ _, exact_readHash.readMany, takeBytes_eq_ok_iff,
    pure_eq_ok_iff, Prod.mk.injEq, true_and]
  constructor
  · intro h
    obtain ⟨leafCount, _, rfl, n, _, ⟨hn, rfl⟩, hashes, _, ⟨rfl, -, rfl⟩, m, _, ⟨hm, rfl⟩, flags, _,
      ⟨rfl, rfl⟩, rfl, rfl⟩ := h
    have hpack := packBits_unpackBits flags
    refine ⟨⟨hn, ?_, ⟨flags.length, length_unpackBits flags⟩⟩, ?_⟩
    · rw [hpack]
      exact hm
    · rw [encodeTree_eq, hpack]
      simp only [List.append_assoc]
  · intro h
    obtain ⟨⟨hhashes, hflags, hfill⟩, rfl⟩ := h
    refine ⟨t.leafCount, _, ?_, t.hashes.length, _, ⟨hhashes, rfl⟩, t.hashes, _,
      ⟨rfl, fun _ _ => trivial, rfl⟩, (packBits t.flags.toArray).length, _, ⟨hflags, rfl⟩,
      packBits t.flags.toArray, rest, ⟨rfl, rfl⟩, ?_, rfl⟩
    · rw [encodeTree_eq]
      simp only [List.append_assoc]
    · rw [unpackBits_packBits_of_dvd hfill]

theorem treeForm_iff (bs : List UInt8) :
    TreeForm bs ↔ ∃ t : PartialTree, t.Whole ∧ bs = encodeTree t := by
  constructor
  · intro h
    cases h with
    | @intro leafCount hashCount hashes flagCount flags n m hleaf hn hnfit hhashes hm hmfit hflags =>
      obtain ⟨word, rfl⟩ := fixedWidth_word.onto leafCount hleaf
      obtain ⟨xs, rfl, rfl⟩ := fixedWidth_hash.exists_flatMap hhashes
      subst hflags
      have hxs : Fits 32 xs.length := by
        rw [Fits, Nat.mul_comm]
        exact hnfit
      have hbits : Fits 1 flags.length := by
        rw [Fits, Nat.mul_one]
        exact hmfit
      rw [shortest_count_iff (by decide) hxs] at hn
      rw [shortest_count_iff (by decide) hbits] at hm
      have hpack := packBits_unpackBits flags
      refine ⟨⟨word, unpackBits flags, xs⟩, ⟨hxs, ?_, ⟨flags.length, length_unpackBits flags⟩⟩, ?_⟩
      · rw [hpack]
        exact hbits
      · rw [encodeTree_eq, hpack, hn, hm]
  · intro h
    obtain ⟨t, ⟨hhashes, hflags, -⟩, rfl⟩ := h
    refine .intro (fixedWidth_word.length t.leafCount)
      ((shortest_count_iff (by decide) hhashes).mpr rfl) ?_ (fixedWidth_hash.length_flatMap t.hashes)
      ((shortest_count_iff (by decide) hflags).mpr rfl) ?_ rfl
    · rw [Fits, Nat.mul_comm] at hhashes
      exact hhashes
    · rw [Fits, Nat.mul_one] at hflags
      exact hflags

/-! ## merkle blocks -/

theorem exact_readMerkleBlock :
    Exact readMerkleBlock (fun b => b.tree.Whole) encodeMerkleBlock := by
  intro bs b rest
  simp only [readMerkleBlock, bind_eq_ok_iff, Prod.exists, exact_readHeader _ _ _,
    exact_readTree _ _ _, pure_eq_ok_iff, Prod.mk.injEq, true_and]
  constructor
  · intro h
    obtain ⟨header, _, rfl, tree, _, ⟨htree, rfl⟩, rfl, rfl⟩ := h
    exact ⟨htree, (List.append_assoc _ _ _).symm⟩
  · intro h
    obtain ⟨htree, rfl⟩ := h
    exact ⟨b.header, _, List.append_assoc _ _ _, b.tree, rest, ⟨htree, rfl⟩, rfl, rfl⟩

theorem merkleBlockForm_iff (bs : List UInt8) :
    MerkleBlockForm bs ↔ ∃ b : MerkleBlock, b.tree.Whole ∧ bs = encodeMerkleBlock b := by
  constructor
  · intro h
    cases h with
    | intro hheader htree =>
      obtain ⟨header, rfl⟩ := fixedWidth_header.onto _ hheader
      obtain ⟨tree, hwhole, rfl⟩ := (treeForm_iff _).mp htree
      exact ⟨⟨header, tree⟩, hwhole, rfl⟩
  · intro h
    obtain ⟨b, hwhole, rfl⟩ := h
    exact .intro (fixedWidth_header.length b.header) ((treeForm_iff _).mpr ⟨b.tree, hwhole, rfl⟩)

/-- **Readers accept their form and nothing else, and writers undo them.** Whole byte strings are
read as merkle blocks, or as trees without the header, just when they have the form; writing what
was read gives the same bytes, so two byte strings that are read as one value are equal. -/
theorem readers_canonical :
    Canonical readMerkleBlock encodeMerkleBlock MerkleBlockForm ∧
      Canonical readTree encodeTree TreeForm :=
  ⟨exact_readMerkleBlock.canonical merkleBlockForm_iff, exact_readTree.canonical treeForm_iff⟩

end BlockProof
