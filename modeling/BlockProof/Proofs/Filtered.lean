import BlockProof.Prover
import BlockProof.Proofs.Scan.Steps
import BlockProof.Proofs.Tree.Building
import BlockProof.Proofs.Wire.Streams

/-!
# Proofs on the other side of the wire

A filtered block is made by a scan and a builder, sent, read and checked. What comes back has its
flags padded, but carries the same pruned tree, so the check sees what the builder put in: the
marked leaves under the header's root, unless the header has another root or two children of an
opened node share one hash. For the same reason a proof that is accepted, whoever made it, is
accepted wherever it is sent, even if it carries flags that it does not use.

* `PartialTree.Carries.padded`   padding leaves the pruned tree as it is;
* `PartialTree.inLimits_of_carries`   a proof that keeps the limit on hashes keeps that on flags;
* `PartialTree.addressable_of_carries`   no proof is too long for a memory;
* `mem_markedPositions_iff`, `pairwise_markedPositions`   the positions of the marks;
* `Prover.Twins`            two children of one hash above a matched position;
* `Prover.Verdict`          what a check of the proof yields;
* `filterBlock_survives_the_wire`   the main result for built proofs, for every matcher;
* `PartialTree.extract_padded_eq_ok`    what is accepted is accepted with its padding;
* `Prover.verify_eq_ok_iff`             a merkle block is accepted if its proof leads to its root;
* `accepted_proof_survives_the_wire`    the main result for accepted proofs.
-/

namespace BlockProof

/-! ## proofs as they come back -/

namespace PartialTree

section
variable {t : PartialTree} {n : Nat} {P : Pruned n (treeHeight n) 0}

theorem Carries.padded (hP : t.Carries P) : t.padded.Carries P := by
  have hlen : t.padded.flags.length = 8 * t.flagBytes := by
    rw [padded_flags, length_unpackBits, length_packBits_flags]
  refine ⟨hP.count, hP.flags.trans (List.prefix_append _ _), ?_, hP.hashes⟩
  rw [hlen, hP.lastByte, flagBytes]
  omega

theorem extract_padded (combine : Combiner) {max : UInt32} (hP : t.Carries P)
    (hcount : 1 ≤ t.leafCount) (hmax : t.leafCount ≤ max) :
    t.padded.extract combine max = t.extract combine max := by
  rw [extract_of_carries combine hP.padded hcount hmax, extract_of_carries combine hP hcount hmax,
    replay_of_carries combine hP.padded, replay_of_carries combine hP]

theorem extract_padded_ofLeaves (combine : Combiner) {leaves : Array Hash} (marked : Array Bool)
    {max : UInt32} (hne : 0 < leaves.size) (hmax : leaves.size ≤ max.toNat) :
    (ofLeaves combine leaves marked).padded.extract combine max =
      match (postOrder leaves.size (treeHeight leaves.size) 0).find?
        (fun v => Clash combine leaves marked v.1 v.2) with
      | some v => .error (.identicalSiblings v.1 v.2)
      | none => .ok ⟨merkleRoot combine leaves, markedLeaves leaves marked⟩ := by
  have hcarries := carries_ofLeaves combine marked (hmax.trans_lt max.toNat_lt)
  have hcount := hcarries.count
  have hleast : 1 ≤ (ofLeaves combine leaves marked).leafCount := by
    rw [UInt32.le_iff_toNat_le, hcount]
    exact hne
  have hmost : (ofLeaves combine leaves marked).leafCount ≤ max := by
    rw [UInt32.le_iff_toNat_le, hcount]
    exact hmax
  exact (extract_padded combine hcarries hleast hmost).trans
    (extract_ofLeaves combine marked hne hmax)

/-- a count of 32 bits allows for one flag a level above each hash, on 33 levels -/
theorem length_flags_of_carries (hP : t.Carries P) : P.flags.length ≤ 33 * t.hashes.length := by
  have hheight : treeHeight n ≤ 32 := treeHeight_le (hP.count ▸ t.leafCount.toNat_lt.le)
  rw [← hP.hashes]
  exact P.length_flags_le.trans (Nat.mul_le_mul_right _ (Nat.succ_le_succ hheight))

theorem inLimits_of_carries (hP : t.Carries P) (hhashes : t.hashes.length ≤ 125000) :
    t.InLimits := by
  have hflags := length_flags_of_carries hP
  refine ⟨hhashes, ?_⟩
  rw [flagBytes, ← hP.lastByte]
  omega

theorem addressable_of_carries (hP : t.Carries P) (hcount : 1 ≤ t.leafCount) : t.Addressable := by
  have hflags := length_flags_of_carries hP
  have hhashes := P.length_hashes_le_leaves (hP.leaves_pos hcount)
  have hlast := hP.lastByte
  have hsize : n < 2 ^ 32 := hP.count ▸ t.leafCount.toNat_lt
  have hmax : UInt64.size = 18446744073709551616 := rfl
  rw [hP.hashes] at hhashes
  exact ⟨by omega, by omega⟩

end

end PartialTree

theorem MerkleBlock.readAll_of_inLimits {b : MerkleBlock} (h : b.tree.InLimits) :
    readAll readMerkleBlock (encodeMerkleBlock b) = .ok b.padded := by
  refine exact_readMerkleBlock.readAll_eq_ok_iff.mpr ⟨h.whole_padded, ?_⟩
  rw [encodeMerkleBlock, encodeMerkleBlock, MerkleBlock.padded, PartialTree.encodeTree_padded]

/-! ## positions of marks -/

namespace Prover

section
variable {marked : Array Bool} (hsize : marked.size < UInt32.size)
include hsize

theorem mem_markedPositions_iff {i : UInt32} :
    i ∈ markedPositions marked ↔ marked[i.toNat]? = some true := by
  simp only [markedPositions, List.mem_map, List.mem_filter, List.mem_range, getD_eq_true_iff]
  refine ⟨?_, ?_⟩
  · intro h
    obtain ⟨k, ⟨hk, hmark⟩, rfl⟩ := h
    rw [UInt32.toNat_ofNat_of_lt' (hk.trans hsize)]
    exact hmark
  · intro hmark
    obtain ⟨hlt, -⟩ := Array.getElem?_eq_some_iff.mp hmark
    exact ⟨i.toNat, ⟨hlt, hmark⟩, UInt32.ofNat_toNat⟩

theorem pairwise_markedPositions : (markedPositions marked).Pairwise (· < ·) := by
  have hrange : ((List.range marked.size).filter fun i => marked.getD i false).Pairwise (· < ·) :=
    List.pairwise_lt_range.filter _
  refine List.pairwise_map.mpr (hrange.imp_of_mem ?_)
  intro i k hi hk hlt
  have hi : i < UInt32.size := (List.mem_range.mp (List.mem_filter.mp hi).1).trans hsize
  have hk : k < UInt32.size := (List.mem_range.mp (List.mem_filter.mp hk).1).trans hsize
  rw [UInt32.lt_iff_toNat_lt, UInt32.toNat_ofNat_of_lt' hi, UInt32.toNat_ofNat_of_lt' hk]
  exact hlt

end

/-! ## what a check of a built proof yields -/

variable (p : Prover) (b : Block)

/-- node `(h, q)` of the tree over `b` is an inner one with a position of `idx` below it, and its
two children have one hash -/
def Twins (idx : List UInt32) (h q : Nat) : Prop :=
  IsNode b.txids.toArray.size h q ∧ 1 ≤ h ∧
    (∃ i ∈ idx, q * 2 ^ h ≤ i.toNat ∧ i.toNat < (q + 1) * 2 ^ h) ∧
    hasRightChild b.txids.toArray.size h q = true ∧
    nodeHash p.combine b.txids.toArray (h - 1) (2 * q) =
      nodeHash p.combine b.txids.toArray (h - 1) (2 * q + 1)

instance (idx : List UInt32) (h q : Nat) : Decidable (p.Twins b idx h q) :=
  inferInstanceAs (Decidable (_ ∧ _ ∧ (∃ i ∈ idx, _) ∧ _ ∧ _))

/-- the outcome of checking a proof of the positions `idx` of `b`, whose transactions have the root
`root` -/
structure Verdict (idx : List UInt32) (root : Hash) (outcome : Except ProofError MatchResult) :
    Prop where
  of_twins : (∃ h q, p.Twins b idx h q) →
    ∃ h q, p.Twins b idx h q ∧ outcome = .error (.identicalSiblings h q)
  of_ne : (∀ h q, ¬ p.Twins b idx h q) → b.header.merkleRoot ≠ root →
    outcome = .error (.rootMismatch b.header.merkleRoot root)
  of_eq : (∀ h q, ¬ p.Twins b idx h q) → b.header.merkleRoot = root →
    ∃ leaves, outcome = .ok ⟨b.header.merkleRoot, leaves⟩ ∧ leaves.map (·.position) = idx ∧
      ∀ leaf ∈ leaves, b.txids[leaf.position.toNat]? = some leaf.hash

variable {p b}

section
variable {mb : MerkleBlock}

theorem verify_of_error {e : ProofError} (h : p.extract mb.tree = .error e) :
    p.verify mb = .error e := by
  rw [verify, h]
  rfl

theorem verify_of_ne {r : MatchResult} (h : p.extract mb.tree = .ok r)
    (hroot : mb.header.merkleRoot ≠ r.root) :
    p.verify mb = .error (.rootMismatch mb.header.merkleRoot r.root) := by
  rw [verify, h]
  show (checkRoot _ _ >>= _) = _
  rw [checkRoot, if_pos hroot]
  rfl

theorem verify_of_eq {r : MatchResult} (h : p.extract mb.tree = .ok r)
    (hroot : mb.header.merkleRoot = r.root) : p.verify mb = .ok r := by
  rw [verify, h]
  show (checkRoot _ _ >>= _) = _
  rw [checkRoot, if_neg (not_not.mpr hroot)]
  rfl

end

section
variable {marked : Array Bool}

theorem twins_iff_clash (hsize : marked.size < UInt32.size) (h q : Nat) :
    p.Twins b (markedPositions marked) h q ↔
      IsNode b.txids.toArray.size h q ∧ Clash p.combine b.txids.toArray marked h q := by
  have hbelow : (∃ i ∈ markedPositions marked, q * 2 ^ h ≤ i.toNat ∧ i.toNat < (q + 1) * 2 ^ h) ↔
      ∃ i, q * 2 ^ h ≤ i ∧ i < (q + 1) * 2 ^ h ∧ marked[i]? = some true := by
    refine ⟨?_, ?_⟩
    · intro hi
      obtain ⟨i, hi, hlo, hhi⟩ := hi
      exact ⟨i.toNat, hlo, hhi, (mem_markedPositions_iff hsize).mp hi⟩
    · intro hi
      obtain ⟨i, hlo, hhi, hmark⟩ := hi
      obtain ⟨hlt, -⟩ := Array.getElem?_eq_some_iff.mp hmark
      have hval : (UInt32.ofNat i).toNat = i := UInt32.toNat_ofNat_of_lt' (hlt.trans hsize)
      refine ⟨UInt32.ofNat i, (mem_markedPositions_iff hsize).mpr ?_, ?_, ?_⟩
      · rw [hval]
        exact hmark
      · rw [hval]
        exact hlo
      · rw [hval]
        exact hhi
  rw [Twins, hbelow, Clash, Opened, and_assoc (a := 1 ≤ h)]

theorem map_position_markedLeaves {leaves : Array Hash} (hmarks : marked.size = leaves.size) :
    (markedLeaves leaves marked).map (·.position) = markedPositions marked := by
  rw [markedLeaves, List.map_map, markedPositions, hmarks]
  rfl

theorem getElem?_of_mem_markedLeaves {leaves : Array Hash} (hsize : leaves.size < UInt32.size)
    {leaf : MatchedLeaf} (h : leaf ∈ markedLeaves leaves marked) :
    leaves[leaf.position.toNat]? = some leaf.hash := by
  rw [markedLeaves, List.mem_map] at h
  obtain ⟨i, hi, rfl⟩ := h
  have hlt : i < leaves.size := List.mem_range.mp (List.mem_filter.mp hi).1
  show leaves[(UInt32.ofNat i).toNat]? = some (leaves.getD i Hash.zero)
  rw [UInt32.toNat_ofNat_of_lt' (hlt.trans hsize), Array.getD_eq_getD_getElem?,
    Array.getElem?_eq_getElem hlt]
  rfl

/-- the check of a built proof, as it comes back, is decided by its first twins, then by the root -/
theorem verdict_padded (hne : 0 < b.txids.toArray.size)
    (hmax : b.txids.toArray.size ≤ p.maxLeafCount.toNat)
    (hmarks : marked.size = b.txids.toArray.size) :
    p.Verdict b (markedPositions marked) (merkleRoot p.combine b.txids.toArray)
      (p.verify (p.merkleBlock b.header b.txids.toArray marked).padded) := by
  have hsize : b.txids.toArray.size < UInt32.size := hmax.trans_lt p.maxLeafCount.toNat_lt
  have hread : p.extract (p.merkleBlock b.header b.txids.toArray marked).padded.tree = _ :=
    PartialTree.extract_padded_ofLeaves p.combine marked hne hmax
  have htwins := twins_iff_clash (p := p) (b := b) (hmarks ▸ hsize : marked.size < UInt32.size)
  cases hfind : (postOrder b.txids.toArray.size (treeHeight b.txids.toArray.size) 0).find?
      (fun v => Clash p.combine b.txids.toArray marked v.1 v.2) with
  | some v =>
    rw [hfind] at hread
    have hclash := List.find?_some hfind
    have hnode := (mem_postOrder_root_iff hne).mp (List.mem_of_find?_eq_some hfind)
    have hv : p.Twins b (markedPositions marked) v.1 v.2 :=
      (htwins _ _).mpr ⟨hnode, of_decide_eq_true hclash⟩
    exact ⟨fun _ => ⟨v.1, v.2, hv, verify_of_error hread⟩, fun hnone => absurd hv (hnone _ _),
      fun hnone => absurd hv (hnone _ _)⟩
  | none =>
    rw [hfind] at hread
    have hnone (h q : Nat) : ¬ p.Twins b (markedPositions marked) h q := by
      intro hv
      obtain ⟨hnode, hclash⟩ := (htwins h q).mp hv
      have hno := List.find?_eq_none.mp hfind (h, q) ((mem_postOrder_root_iff hne).mpr hnode)
      exact hno (decide_eq_true hclash)
    refine ⟨?_, fun _ hroot => verify_of_ne hread hroot, ?_⟩
    · intro hsome
      obtain ⟨h, q, hv⟩ := hsome
      exact absurd hv (hnone h q)
    · intro _ hroot
      refine ⟨markedLeaves b.txids.toArray marked, ?_, map_position_markedLeaves hmarks, ?_⟩
      · rw [verify_of_eq hread hroot, hroot]
      · intro leaf hleaf
        have hget := getElem?_of_mem_markedLeaves hsize hleaf
        rw [List.getElem?_toArray] at hget
        exact hget

end

end Prover

/-- **A filtered block proves what the matcher let pass, on the other side of the wire**, for every
matcher, unless the proof has too many hashes to be read. -/
theorem filterBlock_survives_the_wire {σ : Type} (p : Prover) (ask : Matcher σ) (b : Block) (m : σ)
    (hne : 1 ≤ b.transactions.length) (hmax : b.transactions.length ≤ p.maxLeafCount.toNat) :
    ∃ f root, p.filterBlock ask b m = .ok f ∧ f.matcher = (matchBitmap ask b m).2 ∧
      f.indices.Pairwise (· < ·) ∧ f.indices = matchedIndices ask b m ∧
      p.prove b.header b.txids.toArray (matchBitmap ask b m).1 = .ok (f.merkleBlock, f.indices) ∧
      merkleRoot? p.combine b.txids.toArray = some root ∧
      (f.merkleBlock.tree.hashes.length ≤ 125000 → ∃ received,
        readAll readMerkleBlock (encodeMerkleBlock f.merkleBlock) = .ok received ∧
          p.Verdict b f.indices root (p.verify received)) := by
  have hlen : b.txids.toArray.size = b.transactions.length := List.length_map _
  have hmarks : (matchBitmap ask b m).1.size = b.txids.toArray.size :=
    (Scan.size_passed_scan ask b.transactions m).trans hlen.symm
  rw [← hlen] at hne hmax
  have hsize : b.txids.toArray.size < UInt32.size := hmax.trans_lt p.maxLeafCount.toNat_lt
  have hprove : p.prove b.header b.txids.toArray (matchBitmap ask b m).1 =
      .ok (p.merkleBlock b.header b.txids.toArray (matchBitmap ask b m).1,
        matchedIndices ask b m) :=
    p.prove_eq_ok b.header hne hmarks hsize
  refine ⟨⟨p.merkleBlock b.header b.txids.toArray (matchBitmap ask b m).1,
    matchedIndices ask b m, (matchBitmap ask b m).2⟩, merkleRoot p.combine b.txids.toArray,
    ?_, rfl, Prover.pairwise_markedPositions (hmarks ▸ hsize), rfl, hprove,
    merkleRoot?_eq_some_iff.mpr ⟨hne, rfl⟩, ?_⟩
  · have hfull : b.transactions ≠ [] := by
      rw [← List.length_pos_iff, ← hlen]
      exact hne
    rw [p.filterBlock_of_ne_nil ask m hfull, hprove]
    rfl
  · intro hhashes
    have hcarries := PartialTree.carries_ofLeaves p.combine (matchBitmap ask b m).1 hsize
    exact ⟨_, MerkleBlock.readAll_of_inLimits (PartialTree.inLimits_of_carries hcarries hhashes),
      Prover.verdict_padded hne hmax hmarks⟩

/-- a matcher that lets every other transaction pass, over a block of three -/
theorem filterBlock_survives_the_wire_every_other :
    ∃ (p : Prover) (ask : Matcher Nat) (b : Block) (f : FilteredBlock Nat) (received : MerkleBlock)
      (leaves : List MatchedLeaf),
      1 ≤ b.transactions.length ∧ b.transactions.length ≤ p.maxLeafCount.toNat ∧
        p.filterBlock ask b 0 = .ok f ∧ f.indices = [0, 2] ∧
        readAll readMerkleBlock (encodeMerkleBlock f.merkleBlock) = .ok received ∧
        p.verify received = .ok ⟨b.header.merkleRoot, leaves⟩ ∧
          leaves.map (·.position) = [0, 2] := by
  let p : Prover := ⟨fun y _ => y, .standard, rfl⟩
  let ask : Matcher Nat := fun k _ => (k % 2 == 0, k + 1)
  let b : Block := ⟨{ (default : Header) with merkleRoot := .fill 1 },
    [⟨.fill 1, [], []⟩, ⟨.fill 2, [], []⟩, ⟨.fill 3, [], []⟩]⟩
  have hne : 1 ≤ b.transactions.length := by decide
  have hmax : b.transactions.length ≤ p.maxLeafCount.toNat := by decide +kernel
  have hindices : matchedIndices ask b 0 = [0, 2] := by decide +kernel
  have hapart : ∀ h ≤ treeHeight b.txids.toArray.size, ∀ q < width b.txids.toArray.size h,
      ¬ p.Twins b [0, 2] h q := by decide +kernel
  have hroot : merkleRoot? p.combine b.txids.toArray = some b.header.merkleRoot := by
    decide +kernel
  have hcount : (p.prove b.header b.txids.toArray (matchBitmap ask b 0).1).map
      (fun r => r.1.tree.hashes.length) = .ok 3 := by decide +kernel
  obtain ⟨f, root, hf, -, -, hidx, hprove, hroot', hwire⟩ :=
    filterBlock_survives_the_wire p ask b 0 hne hmax
  rw [hprove] at hcount
  have hfew : f.merkleBlock.tree.hashes.length = 3 := Except.ok.inj hcount
  obtain ⟨received, hread, hverdict⟩ := hwire (by rw [hfew]; decide)
  rw [hidx, hindices] at hverdict
  obtain ⟨leaves, hok, hpositions, -⟩ :=
    hverdict.of_eq (fun h q hv => hapart h hv.1.1 q hv.1.2 hv)
      (Option.some.inj (hroot.symm.trans hroot'))
  exact ⟨p, ask, b, f, received, leaves, hne, hmax, hf, hidx.trans hindices, hread, hok,
    hpositions⟩

/-! ## proofs that were accepted before they are sent -/

theorem PartialTree.extract_padded_eq_ok {combine : Combiner} {max : UInt32} {t : PartialTree}
    {r : MatchResult} (hr : t.extract combine max = .ok r) :
    t.padded.extract combine max = .ok r := by
  obtain ⟨hcount, hmax, P, hP, -, -⟩ := (extract_ok_iff_pruned combine max t r).mp hr
  rw [extract_padded combine hP hcount hmax, hr]

theorem checkRoot_eq_ok {expected computed : Hash} :
    checkRoot expected computed = .ok () ↔ expected = computed := by
  unfold checkRoot
  split <;> simp_all

theorem Prover.verify_eq_ok_iff {p : Prover} {b : MerkleBlock} {r : MatchResult} :
    p.verify b = .ok r ↔ p.extract b.tree = .ok r ∧ b.header.merkleRoot = r.root := by
  refine ⟨?_, fun h => verify_of_eq h.1 h.2⟩
  intro h
  obtain ⟨r', hread, h⟩ := bind_eq_ok_iff.mp h
  obtain ⟨_, hroot, h⟩ := bind_eq_ok_iff.mp h
  obtain rfl : r' = r := pure_eq_ok_iff.mp h
  exact ⟨hread, checkRoot_eq_ok.mp hroot⟩

theorem Prover.verify_padded_eq_ok {p : Prover} {b : MerkleBlock} {r : MatchResult}
    (hr : p.verify b = .ok r) : p.verify b.padded = .ok r := by
  obtain ⟨hread, hroot⟩ := verify_eq_ok_iff.mp hr
  exact verify_eq_ok_iff.mpr ⟨PartialTree.extract_padded_eq_ok hread, hroot⟩

theorem encodeMerkleBlock_padded (b : MerkleBlock) :
    encodeMerkleBlock b.padded = encodeMerkleBlock b := by
  rw [encodeMerkleBlock, encodeMerkleBlock, MerkleBlock.padded, PartialTree.encodeTree_padded]

/-- **An accepted proof is accepted on the other side of the wire**, with the same result, for every
combiner and every bound, whoever made the proof. What comes back is sent on unchanged. -/
theorem accepted_proof_survives_the_wire (b : MerkleBlock) (hb : b.tree.InLimits) :
    ∃ received, readAll readMerkleBlock (encodeMerkleBlock b) = .ok received ∧
      (∀ (combine : Combiner) (max : UInt32) (r : MatchResult),
        b.tree.extract combine max = .ok r → received.tree.extract combine max = .ok r) ∧
      (∀ (p : Prover) (r : MatchResult), p.verify b = .ok r → p.verify received = .ok r) ∧
      (∀ r, b.verify = .ok r → received.verify = .ok r) ∧
      received.blockHash = b.blockHash ∧
      readAll readMerkleBlock (encodeMerkleBlock received) = .ok received := by
  have hread := MerkleBlock.readAll_of_inLimits hb
  refine ⟨b.padded, hread, ?_, ?_, ?_, rfl, ?_⟩
  · intro combine max r hr
    exact PartialTree.extract_padded_eq_ok hr
  · intro p r hr
    exact Prover.verify_padded_eq_ok hr
  · intro r hr
    exact Prover.verify_padded_eq_ok hr
  · rw [encodeMerkleBlock_padded]
    exact hread

/-- a proof with a flag that it does not use, which is set -/
theorem accepted_proof_survives_the_wire_unused_flag :
    ∃ (p : Prover) (x : Hash) (b received : MerkleBlock), b.tree.InLimits ∧
      b.tree.flags = [true, true] ∧ p.verify b = .ok ⟨x, [⟨0, x⟩]⟩ ∧
      readAll readMerkleBlock (encodeMerkleBlock b) = .ok received ∧
      received.tree.flags = [true, true, false, false, false, false, false, false] ∧
      p.verify received = .ok ⟨x, [⟨0, x⟩]⟩ := by
  let x : Hash := .fill 1
  let p : Prover := ⟨fun y _ => y, .standard, rfl⟩
  let b : MerkleBlock := ⟨{ (default : Header) with merkleRoot := x }, ⟨1, [true, true], [x]⟩⟩
  have hb : b.tree.InLimits := ⟨by decide, by decide⟩
  have hr : p.verify b = .ok ⟨x, [⟨0, x⟩]⟩ := by decide +kernel
  have hflags : (readAll readMerkleBlock (encodeMerkleBlock b)).map (fun c => c.tree.flags) =
      .ok [true, true, false, false, false, false, false, false] := by decide +kernel
  obtain ⟨received, hread, -, hverify, -, -, -⟩ := accepted_proof_survives_the_wire b hb
  rw [hread] at hflags
  exact ⟨p, x, b, received, hb, rfl, hr, hread, Except.ok.inj hflags, hverify p _ hr⟩

end BlockProof
