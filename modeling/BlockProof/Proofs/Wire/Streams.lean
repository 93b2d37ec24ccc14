import BlockProof.Proofs.Wire.Format

/-!
# What comes back of a written value, inside a stream

A value that was written is read from the front of a stream, whatever follows it, and reading stops
where the value ends. Flags come back with the padding of their last byte. A tree with too many
hashes or too many bytes of flags is written all the same; reading it names the first list that is
too long.

* `PartialTree.padded`             a tree as it comes back;
* `PartialTree.delivered`          what reading a written tree yields, the two limits included;
* `ReadsBack r write fits out`     reading what was written ends where it ends, with outcome `out`;
* `ReadsBack.readAll_eq`           the same when nothing follows;
* `WireValue.InLimits`             a value that is written within the limits;
* `readStream_flatMap_encode`      values of several types come back one after another;
* `written_values_read_back`       the main result, for each type and for streams of them.
-/

namespace BlockProof

/-! ## trees as they come back -/

namespace PartialTree

def flagBytes (t : PartialTree) : Nat := (t.flags.length + 7) / 8

/-- the tree whose flags go on with `false` to the end of their last byte -/
def padded (t : PartialTree) : PartialTree :=
  { t with flags := t.flags ++ List.replicate (8 * t.flagBytes - t.flags.length) false }

/-- the lists of the tree fit a memory with addresses of 64 bits, so that their lengths do -/
structure Addressable (t : PartialTree) : Prop where
  hashes : 32 * t.hashes.length < UInt64.size
  flags : t.flags.length < UInt64.size

/-- the lists of the tree keep the limits on lists in a message -/
structure InLimits (t : PartialTree) : Prop where
  hashes : t.hashes.length ≤ 125000
  flags : t.flagBytes ≤ 4000000

/-- what reading the tree as it is written yields -/
def delivered (t : PartialTree) : Except WireError PartialTree :=
  if 125000 < t.hashes.length then .error (.oversized (32 * t.hashes.length))
  else if 4000000 < t.flagBytes then .error (.oversized t.flagBytes)
  else .ok t.padded

theorem length_packBits_flags (t : PartialTree) :
    (packBits t.flags.toArray).length = t.flagBytes := length_packBits t.flags.toArray

theorem padded_flags (t : PartialTree) :
    t.padded.flags = unpackBits (packBits t.flags.toArray) := (unpackBits_packBits t.flags).symm

theorem encodeTree_padded (t : PartialTree) : encodeTree t.padded = encodeTree t := by
  have hpack : packBits t.padded.flags.toArray = packBits t.flags.toArray := by
    rw [padded_flags, packBits_unpackBits]
  rw [encodeTree_eq, encodeTree_eq, hpack]
  rfl

theorem InLimits.addressable {t : PartialTree} (h : t.InLimits) : t.Addressable := by
  have hsize : UInt64.size = 18446744073709551616 := rfl
  have hhashes := h.hashes
  have hflags := h.flags
  rw [flagBytes] at hflags
  exact ⟨by omega, by omega⟩

theorem InLimits.whole_padded {t : PartialTree} (h : t.InLimits) : t.padded.Whole := by
  have hbytes : (packBits t.padded.flags.toArray).length = t.flagBytes := by
    rw [padded_flags, packBits_unpackBits, length_packBits_flags]
  have hhashes : t.padded.hashes.length * 32 ≤ 4000000 := Nat.mul_le_mul_right 32 h.hashes
  have hflags : t.flagBytes * 1 ≤ 4000000 := by
    rw [Nat.mul_one]
    exact h.flags
  refine ⟨hhashes, ?_, ?_⟩
  · rw [hbytes]
    exact hflags
  · rw [padded_flags, length_unpackBits]
    exact Nat.dvd_mul_right 8 _

theorem delivered_of_inLimits {t : PartialTree} (h : t.InLimits) : t.delivered = .ok t.padded := by
  rw [delivered, if_neg (Nat.not_lt.mpr h.hashes), if_neg (Nat.not_lt.mpr h.flags)]

end PartialTree

/-! ## reading back -/

/-- reading a value as it is written, with anything after it, ends where the value ends, and its
outcome is `out` -/
def ReadsBack {α : Type} (r : Reader α) (write : α → List UInt8) (fits : α → Prop)
    (out : α → Except WireError α) : Prop :=
  ∀ x rest, fits x → r (write x ++ rest) = (out x).map fun y => (y, rest)

theorem Exact.readsBack {α : Type} {r : Reader α} {write : α → List UInt8}
    (hr : Exact r (fun _ => True) write) : ReadsBack r write (fun _ => True) .ok := by
  intro x rest _
  exact (hr _ x rest).mpr ⟨trivial, rfl⟩

theorem ReadsBack.readAll_eq {α : Type} {r : Reader α} {write : α → List UInt8} {fits : α → Prop}
    {out : α → Except WireError α} (hr : ReadsBack r write fits out) {x : α} (hx : fits x) :
    readAll r (write x) = out x := by
  have hread := hr x [] hx
  rw [List.append_nil] at hread
  rw [readAll, hread]
  cases out x <;> rfl

/-- a count that is too large is refused as it stands, before any element is looked at -/
theorem readCount_encodeCount {size n : Nat} (hsize : 0 < size) (hn : size * n < UInt64.size)
    (rest : List UInt8) : readCount size (encodeCount n ++ rest) =
      if maxListBytes < size * n then .error (.oversized (size * n)) else .ok (n, rest) := by
  have hlt : n < UInt64.size := (Nat.le_mul_of_pos_left n hsize).trans_lt hn
  have hval : (UInt64.ofNat n).toNat = n := UInt64.toNat_ofNat_of_lt' hlt
  have hdecode : CompactSize.decode (encodeCount n ++ rest) = .ok (UInt64.ofNat n, rest) :=
    CompactSize.exact_decode.readsBack _ rest trivial
  have hmin : min (n * size) (UInt64.size - 1) = size * n := by
    rw [Nat.mul_comm n size]
    omega
  rw [readCount, hdecode]
  show (if maxListBytes < min ((UInt64.ofNat n).toNat * size) (UInt64.size - 1) then _ else _) = _
  rw [hval, hmin]

section
variable {t : PartialTree} (rest : List UInt8)

theorem encodeTree_append (t : PartialTree) : encodeTree t ++ rest = encodeUInt32 t.leafCount ++
    (encodeCount t.hashes.length ++ (t.hashes.flatMap Hash.bytes ++
      (encodeCount t.flagBytes ++ (packBits t.flags.toArray ++ rest)))) := by
  rw [encodeTree_eq, PartialTree.length_packBits_flags]
  simp only [List.append_assoc]

theorem readTree_of_inLimits (h : t.InLimits) :
    readTree (encodeTree t ++ rest) = .ok (t.padded, rest) := by
  rw [← PartialTree.encodeTree_padded]
  exact (exact_readTree _ _ _).mpr ⟨h.whole_padded, rfl⟩

theorem readTree_of_hashes (haddr : t.Addressable) (hmany : 125000 < t.hashes.length) :
    readTree (encodeTree t ++ rest) = .error (.oversized (32 * t.hashes.length)) := by
  have hover : maxListBytes < 32 * t.hashes.length := by
    show 4000000 < 32 * t.hashes.length
    omega
  have hword := exact_readUInt32.readsBack t.leafCount
  rw [encodeTree_append, readTree, hword _ trivial]
  show (readCount 32 _ >>= _) = _
  rw [readCount_encodeCount (Nat.succ_pos 31) haddr.hashes, if_pos hover]
  rfl

theorem readTree_of_flags (haddr : t.Addressable) (hfew : t.hashes.length ≤ 125000)
    (hmany : 4000000 < t.flagBytes) :
    readTree (encodeTree t ++ rest) = .error (.oversized t.flagBytes) := by
  have hfit : ¬ maxListBytes < 32 * t.hashes.length := by
    show ¬ 4000000 < 32 * t.hashes.length
    omega
  have hover : maxListBytes < t.flagBytes := hmany
  have hsize : 1 * t.flagBytes < UInt64.size := by
    have hflags := haddr.flags
    rw [PartialTree.flagBytes] at hmany ⊢
    omega
  have hword := exact_readUInt32.readsBack t.leafCount
  have hrun (bs : List UInt8) : readMany readHash t.hashes.length
      (t.hashes.flatMap Hash.bytes ++ bs) = .ok (t.hashes, bs) :=
    exact_readHash.readMany.mpr ⟨rfl, fun _ _ => trivial, rfl⟩
  rw [encodeTree_append, readTree, hword _ trivial]
  show (readCount 32 _ >>= _) = _
  rw [readCount_encodeCount (Nat.succ_pos 31) haddr.hashes, if_neg hfit]
  show (readMany readHash t.hashes.length _ >>= _) = _
  rw [hrun]
  show (readCount 1 _ >>= _) = _
  rw [readCount_encodeCount Nat.one_pos hsize, Nat.one_mul, if_pos hover]
  rfl

end

theorem readTree_readsBack :
    ReadsBack readTree encodeTree PartialTree.Addressable PartialTree.delivered := by
  intro t rest haddr
  rw [PartialTree.delivered]
  by_cases hhashes : 125000 < t.hashes.length
  · rw [if_pos hhashes, readTree_of_hashes rest haddr hhashes]
    rfl
  · by_cases hflags : 4000000 < t.flagBytes
    · rw [if_neg hhashes, if_pos hflags,
        readTree_of_flags rest haddr (Nat.not_lt.mp hhashes) hflags]
      rfl
    · rw [if_neg hhashes, if_neg hflags,
        readTree_of_inLimits rest ⟨Nat.not_lt.mp hhashes, Nat.not_lt.mp hflags⟩]
      rfl

namespace MerkleBlock

def padded (b : MerkleBlock) : MerkleBlock := ⟨b.header, b.tree.padded⟩

def delivered (b : MerkleBlock) : Except WireError MerkleBlock :=
  b.tree.delivered.map fun t => ⟨b.header, t⟩

theorem delivered_of_inLimits {b : MerkleBlock} (h : b.tree.InLimits) :
    b.delivered = .ok b.padded := by
  rw [delivered, PartialTree.delivered_of_inLimits h]
  rfl

end MerkleBlock

theorem readMerkleBlock_readsBack : ReadsBack readMerkleBlock encodeMerkleBlock
    (fun b => b.tree.Addressable) MerkleBlock.delivered := by
  intro b rest haddr
  have hheader := exact_readHeader.readsBack b.header (encodeTree b.tree ++ rest) trivial
  have htree := readTree_readsBack b.tree rest haddr
  rw [encodeMerkleBlock, List.append_assoc, readMerkleBlock, hheader]
  show (readTree _ >>= _) = _
  rw [htree, MerkleBlock.delivered]
  cases b.tree.delivered with
  | error e => rfl
  | ok t => rfl

theorem readMerkleBlock_of_inLimits {b : MerkleBlock} (h : b.tree.InLimits) (rest : List UInt8) :
    readMerkleBlock (encodeMerkleBlock b ++ rest) = .ok (b.padded, rest) := by
  rw [readMerkleBlock_readsBack b rest h.addressable, MerkleBlock.delivered_of_inLimits h]
  rfl

/-! ## streams of several types -/

namespace WireValue

def InLimits : WireValue → Prop
  | tree t => t.InLimits
  | merkleBlock b => b.tree.InLimits
  | _ => True

def padded : WireValue → WireValue
  | tree t => tree t.padded
  | merkleBlock b => merkleBlock b.padded
  | v => v

theorem map_label {α : Type} (label : α → WireValue) {outcome : Except WireError (α × List UInt8)}
    {x : α} {rest : List UInt8} (h : outcome = .ok (x, rest)) :
    outcome.map (fun (x, rest) => (label x, rest)) = .ok (label x, rest) := by
  rw [h]
  rfl

theorem read_encode {v : WireValue} (hv : v.InLimits) (rest : List UInt8) :
    v.type.read (v.encode ++ rest) = .ok (v.padded, rest) := by
  cases v with
  | compactSize n => exact map_label .compactSize (CompactSize.exact_decode.readsBack n rest trivial)
  | word n => exact map_label .word (exact_readUInt32.readsBack n rest trivial)
  | hash x => exact map_label .hash (exact_readHash.readsBack x rest trivial)
  | header h => exact map_label .header (exact_readHeader.readsBack h rest trivial)
  | tree t => exact map_label .tree (readTree_of_inLimits rest hv)
  | merkleBlock b => exact map_label .merkleBlock (readMerkleBlock_of_inLimits hv rest)

def totalLength (vs : List WireValue) : Nat := vs.foldr (fun v n => v.encode.length + n) 0

theorem length_flatMap_encode (vs : List WireValue) :
    (vs.flatMap encode).length = totalLength vs := by
  induction vs with
  | nil => rfl
  | cons v vs ih =>
    rw [List.flatMap_cons, List.length_append, ih]
    rfl

end WireValue

theorem readStream_cons {v : WireValue} (hv : v.InLimits) (types : List WireType)
    (rest : List UInt8) : readStream (v.type :: types) (v.encode ++ rest) =
      ((v.padded, rest) :: (readStream types rest).1, (readStream types rest).2) := by
  rw [readStream, WireValue.read_encode hv]

/-- values that keep the limits come back one after another, and value number `k` ends where the
first `k + 1` values end -/
theorem readStream_flatMap_encode {vs : List WireValue} (hvs : ∀ v ∈ vs, v.InLimits)
    (rest : List UInt8) :
    ∃ steps, readStream (vs.map WireValue.type) (vs.flatMap WireValue.encode ++ rest) =
        (steps, none) ∧ steps.map Prod.fst = vs.map WireValue.padded ∧
      ∀ (k : Nat) (v : WireValue) (left : List UInt8), steps[k]? = some (v, left) →
        vs.flatMap WireValue.encode ++ rest = (vs.take (k + 1)).flatMap WireValue.encode ++ left := by
  induction vs with
  | nil =>
    refine ⟨[], rfl, rfl, ?_⟩
    intro k v left hk
    cases hk
  | cons w vs ih =>
    obtain ⟨hw, hvs⟩ := List.forall_mem_cons.mp hvs
    obtain ⟨steps, hread, hvalues, hends⟩ := ih hvs
    refine ⟨(w.padded, vs.flatMap WireValue.encode ++ rest) :: steps, ?_, ?_, ?_⟩
    · rw [List.map_cons, List.flatMap_cons, List.append_assoc, readStream_cons hw, hread]
    · rw [List.map_cons, List.map_cons, hvalues]
    · intro k v left hk
      rw [List.flatMap_cons, List.append_assoc]
      cases k with
      | zero =>
        have hleft : vs.flatMap WireValue.encode ++ rest = left :=
          congrArg Prod.snd (Option.some.inj hk)
        rw [hleft]
        simp
      | succ k =>
        rw [hends k v left hk, List.take_succ_cons, List.flatMap_cons, List.append_assoc]

/-- **Written values come back, whatever follows them.** Merkle blocks and trees come back with
their flags padded, or are refused for the first of their two lists that is too long; values of
fixed width and counts come back as they were. So a stream of values of any types within the limits
yields all of them, each ending at the sum of the lengths so far. -/
theorem written_values_read_back :
    ReadsBack readMerkleBlock encodeMerkleBlock (fun b => b.tree.Addressable) MerkleBlock.delivered ∧
    ReadsBack readTree encodeTree PartialTree.Addressable PartialTree.delivered ∧
    ReadsBack CompactSize.decode CompactSize.encode (fun _ => True) .ok ∧
    ReadsBack readUInt32 encodeUInt32 (fun _ => True) .ok ∧
    ReadsBack readHash Hash.bytes (fun _ => True) .ok ∧
    ReadsBack readHeader Header.toBytes (fun _ => True) .ok ∧
    ∀ (vs : List WireValue) (rest : List UInt8), (∀ v ∈ vs, v.InLimits) →
      ∃ steps, readStream (vs.map WireValue.type) (vs.flatMap WireValue.encode ++ rest) =
          (steps, none) ∧ steps.map Prod.fst = vs.map WireValue.padded ∧
        ∀ (k : Nat) (v : WireValue) (left : List UInt8), steps[k]? = some (v, left) →
          vs.flatMap WireValue.encode ++ rest =
              (vs.take (k + 1)).flatMap WireValue.encode ++ left ∧
            (vs.flatMap WireValue.encode ++ rest).length - left.length =
              WireValue.totalLength (vs.take (k + 1)) := by
  refine ⟨readMerkleBlock_readsBack, readTree_readsBack, CompactSize.exact_decode.readsBack,
    exact_readUInt32.readsBack, exact_readHash.readsBack, exact_readHeader.readsBack, ?_⟩
  intro vs rest hvs
  obtain ⟨steps, hread, hvalues, hends⟩ := readStream_flatMap_encode hvs rest
  refine ⟨steps, hread, hvalues, ?_⟩
  intro k v left hk
  have hsplit := hends k v left hk
  refine ⟨hsplit, ?_⟩
  rw [hsplit, List.length_append, Nat.add_sub_cancel, WireValue.length_flatMap_encode]

/-- a tree with one hash too many is refused, and a padded tree is followed by a count -/
theorem written_values_read_back_one_over :
    (∃ t : PartialTree, t.Addressable ∧ t.hashes.length = 125001 ∧
      readTree (encodeTree t ++ [7]) = .error (.oversized 4000032)) ∧
    ∃ steps, readStream [.tree, .compactSize]
        (encodeTree ⟨1, [true], [Hash.zero]⟩ ++ CompactSize.encode 253 ++ [7]) = (steps, none) ∧
      steps.map Prod.fst = [.tree ⟨1, true :: List.replicate 7 false, [Hash.zero]⟩,
        .compactSize 253] := by
  obtain ⟨-, htree, -, -, -, -, hstream⟩ := written_values_read_back
  refine ⟨?_, ?_⟩
  · obtain ⟨xs, hlen⟩ : ∃ xs : List Hash, xs.length = 125001 :=
      ⟨List.replicate 125001 Hash.zero, List.length_replicate⟩
    have haddr : (⟨1, [], xs⟩ : PartialTree).Addressable :=
      ⟨by rw [hlen]; decide, Nat.zero_lt_succ _⟩
    refine ⟨⟨1, [], xs⟩, haddr, hlen, ?_⟩
    rw [htree _ _ haddr, PartialTree.delivered, hlen]
    rfl
  · obtain ⟨steps, hread, hvalues, -⟩ := hstream
      [.tree ⟨1, [true], [Hash.zero]⟩, .compactSize 253] [7]
      (List.forall_mem_cons.mpr ⟨⟨by decide, by decide⟩, List.forall_mem_singleton.mpr trivial⟩)
    rw [List.append_assoc]
    exact ⟨steps, hread, hvalues⟩

end BlockProof
