import BlockProof.Proofs.Tree.Building
import BlockProof.Proofs.Tree.Levels

/-!
# A tail written twice

A level with an odd number of nodes counts its last node twice. So if the last `2 ^ h` leaves fill
that node, the block in which they are written twice has the same root, whatever combines the
hashes: from the next level on the two blocks have the same hashes. A proof over the longer block
that shows one of these leaves, from the tail or from its copy, has to open their parent, whose
children have one hash, and is refused.

* `repeatTail`                  the leaves with the last of them once more;
* `level_repeat`                both blocks at the height of the tail, where the longer one has one
                                more entry, equal to the last;
* `level_repeat_of_lt`          the same hashes above;
* `treeHeight_repeat`, `merkleRoot_repeatTail`   the same height and root;
* `clash_repeatTail`            the parent of the tail and its copy;
* `repeated_tail_keeps_root_without_proof`       the main result.
-/

namespace BlockProof

def repeatTail (leaves : Array Hash) (count : Nat) : Array Hash :=
  leaves ++ leaves.drop (leaves.size - count)

theorem toList_repeatTail (leaves : Array Hash) (count : Nat) :
    (repeatTail leaves count).toList =
      leaves.toList ++ leaves.toList.drop (leaves.size - count) := by
  rw [repeatTail, Array.toList_append, Array.toList_extract, List.extract_eq_take_drop,
    List.take_of_length_le]
  rw [List.length_drop, Array.length_toList]

/-! ## levels -/

section
variable (combine : Combiner) {h u : Nat} {front tail : List Hash}

theorem level_tail (htail : tail.length = 2 ^ h) : ∃ x, level combine tail h = [x] := by
  exact List.length_eq_one_iff.mp (length_level_of_fill combine (by rw [htail, Nat.one_mul]))

variable (hfront : front.length = 2 * u * 2 ^ h) (htail : tail.length = 2 ^ h)
include hfront htail

theorem level_repeat : ∃ x, level combine (front ++ tail) h = level combine front h ++ [x] ∧
    level combine (front ++ tail ++ tail) h = level combine front h ++ [x, x] := by
  have hboth : (front ++ tail).length = (2 * u + 1) * 2 ^ h := by
    rw [List.length_append, hfront, htail, right_mul_two_pow]
  obtain ⟨x, hx⟩ := level_tail combine htail
  have hone : level combine (front ++ tail) h = level combine front h ++ [x] := by
    rw [level_append combine hfront, hx]
  refine ⟨x, hone, ?_⟩
  rw [level_append combine hboth, hone, hx, List.append_assoc]
  rfl

/-- from the next level on the copy of the tail leaves no trace -/
theorem level_repeat_of_lt {k : Nat} (hk : h < k) :
    level combine (front ++ tail ++ tail) k = level combine (front ++ tail) k := by
  induction k, hk using Nat.le_induction with
  | base =>
    obtain ⟨x, hone, htwo⟩ := level_repeat combine hfront htail
    -- all before the tail pairs up by itself, and the tail's pair is the same with and without copy
    have heven := length_level_of_fill combine hfront
    rw [level, level, hone, htwo, combinePairs_append combine heven,
      combinePairs_append combine heven]
    rfl
  | succ k _ ih => rw [level, level, ih]

end

/-! ## heights -/

section
variable {u h : Nat}

theorem width_repeat {k : Nat} (hk : h < k) :
    width ((2 * u + 2) * 2 ^ h) k = width ((2 * u + 1) * 2 ^ h) k := by
  induction k, hk using Nat.le_induction with
  | base =>
    rw [width_succ, width_succ, width_mul_two_pow, width_mul_two_pow]
    omega
  | succ k _ ih => rw [width_succ, width_succ, ih]

theorem lt_treeHeight_of_fill {w : Nat} (hw : 1 < w) : h < treeHeight (w * 2 ^ h) := by
  rw [lt_treeHeight_iff, width_mul_two_pow]
  exact hw

theorem treeHeight_repeat (hu : 1 ≤ u) :
    treeHeight ((2 * u + 2) * 2 ^ h) = treeHeight ((2 * u + 1) * 2 ^ h) := by
  refine eq_of_forall_lt_iff fun k => ?_
  by_cases hk : h < k
  · rw [lt_treeHeight_iff, lt_treeHeight_iff, width_repeat hk]
  · have hle : k ≤ h := Nat.not_lt.mp hk
    have hone : h < treeHeight ((2 * u + 1) * 2 ^ h) := lt_treeHeight_of_fill (by omega)
    have htwo : h < treeHeight ((2 * u + 2) * 2 ^ h) := lt_treeHeight_of_fill (by omega)
    exact iff_of_true (hle.trans_lt htwo) (hle.trans_lt hone)

end

/-! ## blocks -/

section
variable {leaves : Array Hash} {h u : Nat} (hsize : leaves.size = (2 * u + 1) * 2 ^ h)
include hsize

theorem exists_front_tail : ∃ front tail : List Hash,
    front.length = 2 * u * 2 ^ h ∧ tail.length = 2 ^ h ∧ leaves.toList = front ++ tail ∧
      (repeatTail leaves (2 ^ h)).toList = front ++ tail ++ tail := by
  have hall : leaves.toList.length = 2 * u * 2 ^ h + 2 ^ h := hsize.trans (right_mul_two_pow u h)
  have hcut : leaves.size - 2 ^ h = 2 * u * 2 ^ h := by
    rw [hsize, right_mul_two_pow, Nat.add_sub_cancel]
  have hsplit := List.take_append_drop (2 * u * 2 ^ h) leaves.toList
  refine ⟨_, _, ?_, ?_, hsplit.symm, ?_⟩
  · exact List.length_take_of_le (hall ▸ Nat.le_add_right _ _)
  · rw [List.length_drop, hall, Nat.add_sub_cancel_left]
  · rw [toList_repeatTail, hsplit, hcut]

theorem size_repeatTail : (repeatTail leaves (2 ^ h)).size = (2 * u + 2) * 2 ^ h := by
  obtain ⟨front, tail, hfront, htail, -, htwo⟩ := exists_front_tail hsize
  rw [← Array.length_toList, htwo, List.length_append, List.length_append, hfront, htail,
    Nat.succ_mul (2 * u + 1), right_mul_two_pow]

variable (combine : Combiner)

theorem nodeHash_repeatTail :
    nodeHash combine (repeatTail leaves (2 ^ h)) h (2 * u) =
      nodeHash combine (repeatTail leaves (2 ^ h)) h (2 * u + 1) := by
  obtain ⟨front, tail, hfront, htail, -, htwo⟩ := exists_front_tail hsize
  obtain ⟨x, -, hx⟩ := level_repeat combine hfront htail
  have hlen := length_level_of_fill combine hfront
  have hwidth : width (repeatTail leaves (2 ^ h)).size h = 2 * u + 2 := by
    rw [size_repeatTail hsize, width_mul_two_pow]
  have hentry {i : Nat} (hi : i < 2) :
      some (nodeHash combine (repeatTail leaves (2 ^ h)) h (2 * u + i)) = some x := by
    rw [← getElem?_level combine _ (by omega), htwo, hx, ← hlen,
      List.getElem?_append_right (Nat.le_add_right _ _), Nat.add_sub_cancel_left]
    exact List.getElem?_replicate_of_lt hi
  exact Option.some.inj ((hentry Nat.two_pos).trans (hentry Nat.one_lt_two).symm)

theorem merkleRoot_repeatTail (hu : 1 ≤ u) :
    merkleRoot combine (repeatTail leaves (2 ^ h)) = merkleRoot combine leaves := by
  obtain ⟨front, tail, hfront, htail, hone, htwo⟩ := exists_front_tail hsize
  have hpos : 0 < 2 ^ h := Nat.two_pow_pos h
  have hbig := size_repeatTail hsize
  have hheight : treeHeight (repeatTail leaves (2 ^ h)).size = treeHeight leaves.size := by
    rw [hbig, hsize, treeHeight_repeat hu]
  have hlow : h < treeHeight leaves.size := by
    rw [hsize]
    exact lt_treeHeight_of_fill (by omega)
  have hne : 0 < leaves.size := hsize ▸ Nat.mul_pos (Nat.succ_pos _) hpos
  have hne' : 0 < (repeatTail leaves (2 ^ h)).size := hbig ▸ Nat.mul_pos (Nat.succ_pos _) hpos
  have hroot := level_treeHeight combine hne
  have hroot' := level_treeHeight combine hne'
  rw [hheight, htwo, level_repeat_of_lt combine hfront htail hlow, ← hone, hroot] at hroot'
  exact (List.cons.inj hroot').1.symm

/-- the tail's parent is a clash if a leaf of the tail or of its copy is marked -/
theorem clash_repeatTail {marked : Array Bool} {i : Nat}
    (hmarks : marked.size = (repeatTail leaves (2 ^ h)).size) (hi : 2 * u * 2 ^ h ≤ i)
    (hmark : marked[i]? = some true) :
    Clash combine (repeatTail leaves (2 ^ h)) marked (h + 1) u := by
  have hbig := size_repeatTail hsize
  have hlt : i < marked.size := (Array.getElem?_eq_some_iff.mp hmark).1
  rw [hmarks, hbig] at hlt
  refine ⟨⟨Nat.le_add_left 1 h, i, ?_, ?_, hmark⟩, ?_, nodeHash_repeatTail hsize combine⟩
  · rw [mul_two_pow_succ]
    exact hi
  · rw [mul_two_pow_succ]
    exact hlt
  · rw [hasRightChild_iff, hbig, width_mul_two_pow]
    exact Nat.lt_succ_self _

end

/-! ## the main result -/

theorem PartialTree.extract_ofLeaves_of_clash (combine : Combiner) {leaves : Array Hash}
    {marked : Array Bool} {max : UInt32} {h p : Nat} (hne : 0 < leaves.size)
    (hmax : leaves.size ≤ max.toNat) (hnode : IsNode leaves.size h p)
    (hc : Clash combine leaves marked h p) :
    ∃ k q, (ofLeaves combine leaves marked).extract combine max = .error (.identicalSiblings k q) := by
  have hfound : ((postOrder leaves.size (treeHeight leaves.size) 0).find?
      fun v => Clash combine leaves marked v.1 v.2).isSome :=
    List.find?_isSome.mpr ⟨(h, p), (mem_postOrder_root_iff hne).mpr hnode, decide_eq_true hc⟩
  obtain ⟨v, hv⟩ := Option.isSome_iff_exists.mp hfound
  refine ⟨v.1, v.2, ?_⟩
  rw [extract_ofLeaves combine marked hne hmax, hv]

/-- **Writing a tail twice keeps the root, and no proof shows it.** Let the leaves fill an odd number
`w` of nodes of height `h`, at least three. With the last `2 ^ h` of them written twice the block
has the same root, and each proof built over it for marks in the tail or in its copy is refused for
two siblings with one hash. -/
theorem repeated_tail_keeps_root_without_proof (combine : Combiner) (max : UInt32)
    (leaves : Array Hash) (h w : Nat) (hodd : w % 2 = 1) (hw : 3 ≤ w)
    (hsize : leaves.size = w * 2 ^ h) (hmax : (repeatTail leaves (2 ^ h)).size ≤ max.toNat) :
    (∃ root, merkleRoot? combine leaves = some root ∧
      merkleRoot? combine (repeatTail leaves (2 ^ h)) = some root) ∧
    ∀ marked : Array Bool, marked.size = (repeatTail leaves (2 ^ h)).size →
      (∃ i, (w - 1) * 2 ^ h ≤ i ∧ marked[i]? = some true) →
        ∃ t, PartialTree.build combine (repeatTail leaves (2 ^ h)) marked = .ok t ∧
          ∃ k q, t.extract combine max = .error (.identicalSiblings k q) := by
  obtain ⟨u, rfl⟩ : ∃ u, w = 2 * u + 1 := ⟨w / 2, by omega⟩
  have hpos : 0 < 2 ^ h := Nat.two_pow_pos h
  have hne : 0 < leaves.size := hsize ▸ Nat.mul_pos (Nat.succ_pos _) hpos
  have hbig := size_repeatTail hsize
  have hne' : 0 < (repeatTail leaves (2 ^ h)).size := hbig ▸ Nat.mul_pos (Nat.succ_pos _) hpos
  refine ⟨⟨merkleRoot combine leaves, ?_, ?_⟩, ?_⟩
  · exact merkleRoot?_eq_some_iff.mpr ⟨hne, rfl⟩
  · exact merkleRoot?_eq_some_iff.mpr ⟨hne', (merkleRoot_repeatTail hsize combine (by omega)).symm⟩
  · intro marked hmarks hmarked
    obtain ⟨i, hi, hmark⟩ := hmarked
    rw [Nat.add_sub_cancel] at hi
    have hc := clash_repeatTail hsize combine hmarks hi hmark
    have hnode : IsNode (repeatTail leaves (2 ^ h)).size (h + 1) u := by
      rw [hbig]
      refine ⟨lt_treeHeight_of_fill (by omega), ?_⟩
      rw [width_succ, width_mul_two_pow]
      omega
    exact ⟨PartialTree.ofLeaves combine (repeatTail leaves (2 ^ h)) marked,
      PartialTree.build_eq_ok combine hne' hmarks (hmax.trans_lt max.toNat_lt),
      PartialTree.extract_ofLeaves_of_clash combine hne' hmax hnode hc⟩

/-- six leaves, the last two of them written twice, and a mark in the copy -/
theorem repeated_tail_keeps_root_without_proof_six :
    ∃ (front tail : Array Hash) (marked : Array Bool) (t : PartialTree) (root : Hash),
      front.size = 4 ∧ tail.size = 2 ∧ (front ++ tail).size = 3 * 2 ^ 1 ∧
        repeatTail (front ++ tail) (2 ^ 1) = front ++ tail ++ tail ∧
          (repeatTail (front ++ tail) (2 ^ 1)).size ≤ UInt32.toNat 8 ∧
            marked = #[false, false, false, false, false, false, true, false] ∧
              merkleRoot? (fun _ y => y) (front ++ tail) = some root ∧
                merkleRoot? (fun _ y => y) (front ++ tail ++ tail) = some root ∧
                  PartialTree.build (fun _ y => y) (front ++ tail ++ tail) marked = .ok t ∧
                    ∃ k q, t.extract (fun _ y => y) 8 = .error (.identicalSiblings k q) := by
  let front : Array Hash := #[.fill 1, .fill 2, .fill 3, .fill 4]
  let tail : Array Hash := #[.fill 5, .fill 6]
  let marked : Array Bool := #[false, false, false, false, false, false, true, false]
  have hsize : (front ++ tail).size = 3 * 2 ^ 1 := by decide +kernel
  have hcopy : repeatTail (front ++ tail) (2 ^ 1) = front ++ tail ++ tail := by decide +kernel
  have hmax : (repeatTail (front ++ tail) (2 ^ 1)).size ≤ UInt32.toNat 8 := by decide +kernel
  have hmarks : marked.size = (repeatTail (front ++ tail) (2 ^ 1)).size := by decide +kernel
  obtain ⟨⟨root, hroot, hroot'⟩, hproof⟩ := repeated_tail_keeps_root_without_proof (fun _ y => y) 8
    (front ++ tail) 1 3 rfl (Nat.le_refl 3) hsize hmax
  obtain ⟨t, hbuild, hread⟩ := hproof marked hmarks ⟨6, by decide, rfl⟩
  rw [hcopy] at hroot' hbuild
  exact ⟨front, tail, marked, t, root, rfl, rfl, hsize, hcopy, hmax, rfl, hroot, hroot', hbuild,
    hread⟩

end BlockProof
