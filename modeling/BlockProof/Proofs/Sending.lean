import BlockProof.Proofs.Filtered

/-!
# How large a proof can be sent

Reading refuses a list of more than four million bytes, whatever the bound on the leaves of a block
is. A proof that carries a pruned tree therefore comes back just if it has at most 125000 hashes;
with more of them, reading names their size. As the proof of a block whose transactions are all
marked has one hash a transaction, a prover whose bound is higher makes proofs that no one can read.

* `MerkleBlock.Arrives`          header, leaf count and hashes come back;
* `MerkleBlock.arrives_iff`      which merkle blocks do, and what becomes of the others;
* `Pruned.Built.length_hashes_of_all_marked`   a block with all its transactions marked;
* `Prover.Takes`                 the blocks and marks that a prover makes a proof for;
* `built_proofs_arrive_within_limit`   the main result.
-/

namespace BlockProof

/-! ## sending a proof -/

namespace MerkleBlock

/-- what was sent comes back: the header, the leaf count and the hashes -/
def Arrives (b : MerkleBlock) : Prop :=
  ∃ received, readAll readMerkleBlock (encodeMerkleBlock b) = .ok received ∧
    received.header = b.header ∧ received.tree.leafCount = b.tree.leafCount ∧
      received.tree.hashes = b.tree.hashes

section
variable {b : MerkleBlock} {n : Nat} {P : Pruned n (treeHeight n) 0}

theorem readAll_of_carries (hP : b.tree.Carries P) (hcount : 1 ≤ b.tree.leafCount)
    (hmany : 125000 < b.tree.hashes.length) :
    readAll readMerkleBlock (encodeMerkleBlock b) =
      .error (.oversized (32 * b.tree.hashes.length)) := by
  have haddr := PartialTree.addressable_of_carries hP hcount
  rw [readMerkleBlock_readsBack.readAll_eq haddr, delivered, PartialTree.delivered, if_pos hmany]
  rfl

theorem arrives_iff (hP : b.tree.Carries P) (hcount : 1 ≤ b.tree.leafCount) :
    b.Arrives ↔ b.tree.hashes.length ≤ 125000 := by
  refine ⟨?_, ?_⟩
  · rintro ⟨received, hread, -⟩
    refine Nat.not_lt.mp fun hmany => ?_
    rw [readAll_of_carries hP hcount hmany] at hread
    cases hread
  · intro hfew
    exact ⟨b.padded, readAll_of_inLimits (PartialTree.inLimits_of_carries hP hfew), rfl, rfl, rfl⟩

end

end MerkleBlock

/-! ## blocks with all their transactions marked -/

theorem hasMatch_of_all_marked {n h p : Nat} {marked : Array Bool}
    (hall : ∀ i < n, marked[i]? = some true) (hp : p < width n h) : hasMatch marked h p = true := by
  have hstart : p * 2 ^ h < n := (lt_width_iff n h p).mp hp
  have hpos : 0 < 2 ^ h := Nat.two_pow_pos h
  refine (hasMatch_iff marked h p).mpr ⟨p * 2 ^ h, Nat.le_refl _, ?_, hall _ hstart⟩
  rw [Nat.succ_mul]
  omega

theorem Pruned.Built.length_hashes_of_all_marked {combine : Combiner} {leaves : Array Hash}
    {marked : Array Bool} (hall : ∀ i < leaves.size, marked[i]? = some true) {h p : Nat}
    {P : Pruned leaves.size h p} (hP : Built combine leaves marked P)
    (hp : p < width leaves.size h) : P.hashes.length = span leaves.size h p := by
  induction hP with
  | hidden hnone =>
    exact absurd (hnone.symm.trans (hasMatch_of_all_marked hall hp)) Bool.false_ne_true
  | leaf => exact (span_zero hp).symm
  | @single _ _ hsome only _ _ ih => rw [hashes, ih (left_lt_width hp), span_single only]
  | @pair _ _ hsome both _ _ _ _ ihl ihr =>
    rw [hashes, List.length_append, ihl (left_lt_width hp), ihr (right_lt_width both),
      span_pair both]

/-! ## what a prover sends -/

namespace Prover

/-- the block is not empty and keeps the bound of the prover, and there is one mark a transaction -/
structure Takes (p : Prover) (txids : Array Hash) (marked : Array Bool) : Prop where
  nonempty : 0 < txids.size
  bounded : txids.size ≤ p.maxLeafCount.toNat
  marks : marked.size = txids.size

section
variable {p : Prover} {txids : Array Hash} {marked : Array Bool}

theorem Takes.lt_size (h : p.Takes txids marked) : txids.size < UInt32.size :=
  h.bounded.trans_lt p.maxLeafCount.toNat_lt

theorem Takes.prove_eq (h : p.Takes txids marked) (header : Header) :
    p.prove header txids marked =
      .ok (p.merkleBlock header txids marked, markedPositions marked) :=
  p.prove_eq_ok header h.nonempty h.marks h.lt_size

theorem Takes.carries (h : p.Takes txids marked) (header : Header) :
    (p.merkleBlock header txids marked).tree.Carries
      (Pruned.ofMarked p.combine txids marked (treeHeight txids.size) 0) :=
  PartialTree.carries_ofLeaves p.combine marked h.lt_size

theorem Takes.one_le_leafCount (h : p.Takes txids marked) (header : Header) :
    1 ≤ (p.merkleBlock header txids marked).tree.leafCount := by
  rw [UInt32.le_iff_toNat_le, (h.carries header).count]
  exact h.nonempty

theorem Takes.arrives_iff (h : p.Takes txids marked) (header : Header) :
    (p.merkleBlock header txids marked).Arrives ↔
      (p.merkleBlock header txids marked).tree.hashes.length ≤ 125000 :=
  MerkleBlock.arrives_iff (h.carries header) (h.one_le_leafCount header)

theorem Takes.length_hashes_le (h : p.Takes txids marked) (header : Header) :
    (p.merkleBlock header txids marked).tree.hashes.length ≤ txids.size := by
  rw [← (h.carries header).hashes]
  exact Pruned.length_hashes_le_leaves h.nonempty _

theorem Takes.readAll_eq (h : p.Takes txids marked) (header : Header)
    (hmany : 125000 < (p.merkleBlock header txids marked).tree.hashes.length) :
    readAll readMerkleBlock (encodeMerkleBlock (p.merkleBlock header txids marked)) =
      .error (.oversized (32 * (p.merkleBlock header txids marked).tree.hashes.length)) :=
  MerkleBlock.readAll_of_carries (h.carries header) (h.one_le_leafCount header) hmany

theorem Takes.length_hashes_all {n : Nat} (h : p.Takes txids (Array.replicate n true))
    (header : Header) :
    (p.merkleBlock header txids (Array.replicate n true)).tree.hashes.length = n := by
  have hn : n = txids.size := Array.size_replicate.symm.trans h.marks
  have hall : ∀ i < txids.size, (Array.replicate n true)[i]? = some true := by
    intro i hi
    rw [Array.getElem?_replicate, if_pos (hn.symm ▸ hi)]
  rw [← (h.carries header).hashes,
    (Pruned.built_ofMarked ..).length_hashes_of_all_marked hall (root_lt_width h.nonempty),
    span_root h.nonempty, hn]

end

end Prover

/-- **Built proofs arrive up to 125000 hashes**, whatever the prover, the block and the marks, and
reading refuses all others. So all proofs that a prover builds arrive just if its bound is no
higher. -/
theorem built_proofs_arrive_within_limit (p : Prover) :
    (∀ (header : Header) (txids : Array Hash) (marked : Array Bool), p.Takes txids marked →
      ∃ mb positions, p.prove header txids marked = .ok (mb, positions) ∧
        (mb.Arrives ↔ mb.tree.hashes.length ≤ 125000) ∧
        (125000 < mb.tree.hashes.length → readAll readMerkleBlock (encodeMerkleBlock mb) =
          .error (.oversized (32 * mb.tree.hashes.length)))) ∧
    ((∀ (header : Header) (txids : Array Hash) (marked : Array Bool), p.Takes txids marked →
      ∀ mb positions, p.prove header txids marked = .ok (mb, positions) → mb.Arrives) ↔
        p.maxLeafCount.toNat ≤ 125000) := by
  refine ⟨?_, ?_, ?_⟩
  · intro header txids marked h
    exact ⟨_, _, h.prove_eq header, h.arrives_iff header, h.readAll_eq header⟩
  · intro hall
    refine Nat.not_lt.mp fun hmax => ?_
    obtain ⟨txids, hsize⟩ : ∃ txids : Array Hash, txids.size = 125001 :=
      ⟨Array.replicate 125001 Hash.zero, Array.size_replicate⟩
    have htakes : p.Takes txids (Array.replicate 125001 true) :=
      ⟨by omega, by omega, hsize ▸ Array.size_replicate⟩
    have hfew := (htakes.arrives_iff default).mp (hall _ _ _ htakes _ _ (htakes.prove_eq default))
    rw [htakes.length_hashes_all default] at hfew
    exact Nat.not_succ_le_self 125000 hfew
  · intro hmax header txids marked h mb positions hmb
    obtain ⟨rfl, -⟩ := Prod.mk.inj (Except.ok.inj ((h.prove_eq header).symm.trans hmb))
    exact (h.arrives_iff header).mpr ((h.length_hashes_le header).trans (h.bounded.trans hmax))

/-- the prover for trials sends a block of three transactions with one of them marked, and every
other block that it takes -/
theorem built_proofs_arrive_within_limit_trial :
    ∃ (p : Prover) (txids : Array Hash) (mb : MerkleBlock) (positions : List UInt32),
      p.config = .trial ∧ txids.size = 3 ∧ p.Takes txids #[false, true, false] ∧
        p.prove default txids #[false, true, false] = .ok (mb, positions) ∧
          mb.tree.hashes.length = 3 ∧ mb.Arrives ∧
            ∀ (header : Header) (txids : Array Hash) (marked : Array Bool), p.Takes txids marked →
              ∀ mb positions, p.prove header txids marked = .ok (mb, positions) → mb.Arrives := by
  let p : Prover := ⟨Combiner.doubleSha256, .trial, rfl⟩
  let txids : Array Hash := #[.fill 1, .fill 2, .fill 3]
  have htakes : p.Takes txids #[false, true, false] := ⟨by decide, by decide +kernel, rfl⟩
  obtain ⟨hsend, hbound⟩ := built_proofs_arrive_within_limit p
  obtain ⟨mb, positions, hmb, harrives, -⟩ := hsend default txids #[false, true, false] htakes
  have hcount : mb.tree.hashes.length = 3 := by
    obtain ⟨rfl, -⟩ := Prod.mk.inj (Except.ok.inj ((htakes.prove_eq default).symm.trans hmb))
    decide +kernel
  exact ⟨p, txids, mb, positions, rfl, rfl, htakes, hmb, hcount,
    harrives.mpr (hcount.trans_le (by decide)), hbound.mpr (by decide +kernel)⟩

def numberedHash (i : Nat) : Hash :=
  ⟨littleEndian 4 i ++ List.replicate 27 0 ++ [0x5a], by
    rw [List.length_append, List.length_append, length_littleEndian, List.length_replicate]
    rfl⟩

/-- of a block of 125001 transactions, all of them marked, the standard prover makes a proof that
cannot be read -/
theorem standard_prover_exceeds_list_limit :
    ∃ mb positions,
      Prover.standard.Takes ((Array.range 125001).map numberedHash) (Array.replicate 125001 true) ∧
        Prover.standard.prove default ((Array.range 125001).map numberedHash)
          (Array.replicate 125001 true) = .ok (mb, positions) ∧
        readAll readMerkleBlock (encodeMerkleBlock mb) = .error (.oversized 4000032) ∧
        ¬ mb.Arrives := by
  generalize htxids : (Array.range 125001).map numberedHash = txids
  have hsize : txids.size = 125001 := by
    rw [← htxids, Array.size_map, Array.size_range]
  have hbound : Prover.standard.maxLeafCount.toNat = 524590 := by decide +kernel
  have htakes : Prover.standard.Takes txids (Array.replicate 125001 true) :=
    ⟨by omega, by omega, hsize ▸ Array.size_replicate⟩
  have hcount := htakes.length_hashes_all default
  have hread := htakes.readAll_eq default (by rw [hcount]; exact Nat.lt_succ_self 125000)
  rw [hcount] at hread
  refine ⟨_, _, htakes, htakes.prove_eq default, hread, ?_⟩
  rw [htakes.arrives_iff, hcount]
  exact Nat.not_succ_le_self 125000

end BlockProof
