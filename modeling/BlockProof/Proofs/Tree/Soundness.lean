import BlockProof.Proofs.Tree.Reading

/-!
# What an accepted proof shows is in the block

Take any proof that is accepted and leads to the root of a block. If the two trees have one height,
every leaf that the proof shows stands in the block where the proof says, or else the walk combined
a pair of child hashes that is not the block's although both become one hash. The proof's tree may
be wider than the block's: where it has a right child that the block lacks, the block counts its
left child twice, so equal pairs would be twins.

* `childHashes`          the pair of child hashes of a node over a block;
* `Join.Collides`        a pair of child hashes that is not the block's but becomes the same hash;
* `Pruned.sound`         the induction over the proof's tree;
* `extract_sound`        the same for a proof that is read.
-/

namespace BlockProof

/-- the hashes of the children, at height `h`, of node `(h + 1, p)`; an only child counts twice -/
def childHashes (combine : Combiner) (leaves : Array Hash) (h p : Nat) : Hash × Hash :=
  (nodeHash combine leaves h (2 * p),
    if hasRightChild leaves.size (h + 1) p then nodeHash combine leaves h (2 * p + 1)
    else nodeHash combine leaves h (2 * p))

section
variable {combine : Combiner} {leaves : Array Hash} {h p : Nat}

theorem childHashes_of_both (both : hasRightChild leaves.size (h + 1) p = true) :
    childHashes combine leaves h p =
      (nodeHash combine leaves h (2 * p), nodeHash combine leaves h (2 * p + 1)) := by
  rw [childHashes, if_pos both]

theorem childHashes_of_only (only : hasRightChild leaves.size (h + 1) p = false) :
    childHashes combine leaves h p =
      (nodeHash combine leaves h (2 * p), nodeHash combine leaves h (2 * p)) := by
  rw [childHashes, only, if_neg Bool.false_ne_true]

end

theorem nodeHash_succ (combine : Combiner) (leaves : Array Hash) (h p : Nat) :
    nodeHash combine leaves (h + 1) p =
      combine (childHashes combine leaves h p).1 (childHashes combine leaves h p).2 := by
  rw [nodeHash, childHashes]
  cases hasRightChild leaves.size (h + 1) p <;> rfl

/-- the tree over `n` leaves and the one over `leaves` have node `j` in common, and the child hashes
that `j` combines there are not those of `leaves`, although both pairs become one hash -/
structure Join.Collides (combine : Combiner) (leaves : Array Hash) (n : Nat) (j : Join) : Prop where
  inner : 1 ≤ j.height
  node : IsNode n j.height j.position
  honest : IsNode leaves.size j.height j.position
  differ : (j.left, j.right) ≠ childHashes combine leaves (j.height - 1) j.position
  agree : combine j.left j.right =
    combine (childHashes combine leaves (j.height - 1) j.position).1
      (childHashes combine leaves (j.height - 1) j.position).2

theorem IsNode.left {n h p : Nat} (hv : IsNode n (h + 1) p) : IsNode n h (2 * p) :=
  ⟨(Nat.le_succ h).trans hv.1, left_lt_width hv.2⟩

theorem IsNode.right {n h p : Nat} (hv : IsNode n (h + 1) p)
    (both : hasRightChild n (h + 1) p = true) : IsNode n h (2 * p + 1) :=
  ⟨(Nat.le_succ h).trans hv.1, right_lt_width both⟩

namespace Pruned

variable {combine : Combiner} {leaves : Array Hash} {n : Nat}

theorem collides_or_eq {h p : Nat} {x y : Hash} (hn : IsNode n (h + 1) p)
    (hl : IsNode leaves.size (h + 1) p)
    (hroot : combine x y = nodeHash combine leaves (h + 1) p) :
    (x, y) = childHashes combine leaves h p ∨
      (⟨h + 1, p, x, y⟩ : Join).Collides combine leaves n := by
  by_cases heq : (x, y) = childHashes combine leaves h p
  · exact .inl heq
  · refine .inr ⟨Nat.le_add_left 1 h, hn, hl, heq, ?_⟩
    rw [hroot, nodeHash_succ]
    rfl

/-- every leaf that a pruned tree shows below a node with the block's hash is the block's, or else
some pair of child hashes collides -/
theorem sound (hsize : n ≤ UInt32.size) {h p : Nat} (P : Pruned n h p) (hn : IsNode n h p)
    (hl : IsNode leaves.size h p) (htwins : P.twins combine = [])
    (hroot : P.root combine = nodeHash combine leaves h p) :
    (∀ m ∈ P.matched, leaves[m.position.toNat]? = some m.hash) ∨
      ∃ j ∈ P.joins combine, j.Collides combine leaves n := by
  induction P with
  | hidden x =>
    left
    intro m hm
    cases hm
  | @leaf p flag x =>
    left
    intro m hm
    have hp : p < UInt32.size := ((lt_width_zero n p).mp hn.2).trans_le hsize
    have hlt : p < leaves.size := (lt_width_zero _ p).mp hl.2
    have hx : x = leaves.getD p Hash.zero := hroot
    cases flag with
    | false => cases hm
    | true =>
      rw [matched, if_pos rfl, List.mem_singleton] at hm
      rw [hm, UInt32.toNat_ofNat_of_lt' hp, hx, Array.getElem?_eq_getElem hlt,
        Array.getD_eq_getD_getElem?, Array.getElem?_eq_getElem hlt, Option.getD_some]
  | @single h p only left ih =>
    rcases collides_or_eq hn hl hroot with heq | hc
    · rcases ih hn.left hl.left htwins (congrArg Prod.fst heq) with hall | ⟨j, hj, hjc⟩
      · exact .inl hall
      · exact .inr ⟨j, List.mem_append_left _ hj, hjc⟩
    · exact .inr ⟨_, List.mem_append_right _ (List.mem_singleton_self _), hc⟩
  | @pair h p both left right ihl ihr =>
    obtain ⟨htl, htr, hne⟩ := twins_pair_eq_nil_iff.mp htwins
    rcases collides_or_eq hn hl hroot with heq | hc
    · cases hb : hasRightChild leaves.size (h + 1) p with
      | false =>
        -- the block has no right child here: the two equal hashes would be twins
        rw [childHashes_of_only hb] at heq
        obtain ⟨hleft, hright⟩ := Prod.mk.inj heq
        exact absurd (hright.trans hleft.symm) hne
      | true =>
        rw [childHashes_of_both hb] at heq
        obtain ⟨hleft, hright⟩ := Prod.mk.inj heq
        rcases ihl hn.left hl.left htl hleft with hall | ⟨j, hj, hjc⟩
        · rcases ihr (hn.right both) (hl.right hb) htr hright with hall' | ⟨j, hj, hjc⟩
          · left
            intro m hm
            rcases List.mem_append.mp hm with hm | hm
            · exact hall m hm
            · exact hall' m hm
          · exact .inr ⟨j, List.mem_append_left _ (List.mem_append_right _ hj), hjc⟩
        · exact .inr ⟨j, List.mem_append_left _ (List.mem_append_left _ hj), hjc⟩
    · exact .inr ⟨_, List.mem_append_right _ (List.mem_singleton_self _), hc⟩

end Pruned

/-- **An accepted proof shows only leaves of the block.** If it leads to the root of a block of the
same height, each leaf it shows stands in the block at its position, or else reading it combined a
pair of child hashes that collides with the block's at the same node. -/
theorem extract_sound (combine : Combiner) (max : UInt32) (leaves : Array Hash) (t : PartialTree)
    (r : MatchResult) (hr : t.extract combine max = .ok r)
    (hroot : merkleRoot? combine leaves = some r.root)
    (hheight : treeHeight t.leafCount.toNat = treeHeight leaves.size) :
    (∀ m ∈ r.leaves, leaves[m.position.toNat]? = some m.hash) ∨
      ∃ j ∈ t.joins combine, j.Collides combine leaves t.leafCount.toNat := by
  obtain ⟨hcount, -, P, hP, htwins, rfl⟩ := (PartialTree.extract_ok_iff_pruned combine max t r).mp hr
  obtain ⟨hne, hroot⟩ := merkleRoot?_eq_some_iff.mp hroot
  have hn : IsNode t.leafCount.toNat (treeHeight t.leafCount.toNat) 0 :=
    ⟨Nat.le_refl _, root_lt_width (UInt32.le_iff_toNat_le.mp hcount)⟩
  have hl : IsNode leaves.size (treeHeight t.leafCount.toNat) 0 := by
    rw [hheight]
    exact ⟨Nat.le_refl _, root_lt_width hne⟩
  rw [merkleRoot, ← hheight] at hroot
  rw [PartialTree.joins_of_carries combine hP]
  exact P.sound t.leafCount.toNat_lt.le hn hl htwins hroot

/-- a proof over four leaves that leads to the root of a block of three -/
theorem extract_sound_wider_proof :
    ∃ a b c : Hash,
      (⟨4, [true, true, true, false, false], [a, b, c]⟩ : PartialTree).extract (fun x _ => x) 4 =
          .ok ⟨a, [⟨0, a⟩]⟩ ∧
        merkleRoot? (fun x _ => x) #[a, b, c] = some a ∧
        treeHeight (UInt32.toNat 4) = treeHeight #[a, b, c].size ∧
        ((∀ m ∈ [(⟨0, a⟩ : MatchedLeaf)], #[a, b, c][m.position.toNat]? = some m.hash) ∨
          ∃ j ∈ PartialTree.joins (fun x _ => x)
              ⟨4, [true, true, true, false, false], [a, b, c]⟩,
            j.Collides (fun x _ => x) #[a, b, c] (UInt32.toNat 4)) := by
  let a : Hash := .fill 1
  let b : Hash := .fill 2
  let c : Hash := .fill 3
  have hr : (⟨4, [true, true, true, false, false], [a, b, c]⟩ : PartialTree).extract
      (fun x _ => x) 4 = .ok ⟨a, [⟨0, a⟩]⟩ := by decide +kernel
  have hroot : merkleRoot? (fun x _ => x) #[a, b, c] = some a := by decide +kernel
  have hheight : treeHeight (UInt32.toNat 4) = treeHeight #[a, b, c].size := by decide +kernel
  exact ⟨a, b, c, hr, hroot, hheight, extract_sound (fun x _ => x) 4 #[a, b, c] _ _ hr hroot hheight⟩

end BlockProof
