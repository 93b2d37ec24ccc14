import BlockProof.Proofs.Tree.Agreement
import BlockProof.Proofs.Tree.Building

/-!
# A built proof is the smallest one for its marks

Whoever makes a proof that is accepted and shows exactly the marked leaves has to open every node
above a marked leaf, and nothing makes up for a node that is opened besides. So the builder's tree
is part of any other, and an accepted proof of the same marks has at least as many hashes and uses
at least as many flags. With as many flags it has the same ones: flags that are tampered with never
show the same leaves again. Nothing is assumed about how hashes are combined.

* `MatchResult.Shows`, `Pruned.Shows`   the leaves shown are the marked ones;
* `Pruned.NoLarger`, `PartialTree.NoLarger`   no more hashes, no more flags, and as many flags only
                                        if they are the same;
* `Pruned.ofMarked_noLarger`            the induction over the other tree;
* `built_proof_is_smallest`             the main result.
-/

namespace BlockProof

def MatchResult.Shows (r : MatchResult) (marked : Array Bool) : Prop :=
  ∀ i, (∃ leaf ∈ r.leaves, leaf.position.toNat = i) ↔ marked[i]? = some true

namespace Pruned

variable {n : Nat}

/-! ## what a tree shows -/

def Shows (marked : Array Bool) {h p : Nat} (P : Pruned n h p) : Prop :=
  ∀ i, p * 2 ^ h ≤ i → i < (p + 1) * 2 ^ h →
    ((∃ leaf ∈ P.matched, leaf.position.toNat = i) ↔ marked[i]? = some true)

theorem below_of_mem_matched (hsize : n ≤ UInt32.size) {h p : Nat} (P : Pruned n h p)
    (hp : p < width n h) {leaf : MatchedLeaf} (hleaf : leaf ∈ P.matched) :
    p * 2 ^ h ≤ leaf.position.toNat ∧ leaf.position.toNat < (p + 1) * 2 ^ h := by
  have hpos : 0 < 2 ^ h := Nat.two_pow_pos h
  have hvisit : (⟨0, leaf.position.toNat, leaf.hash⟩ : Visit) ∈ P.visits fun x _ => x :=
    P.mem_visits_of_mem_matched hsize hp hleaf
  have hdiv : leaf.position.toNat / 2 ^ h = p := (P.below_of_mem_visits hvisit).2
  rw [← Nat.le_div_iff_mul_le hpos, ← Nat.div_lt_iff_lt_mul hpos, hdiv]
  exact ⟨Nat.le_refl p, Nat.lt_succ_self p⟩

section
variable {marked : Array Bool} {h p : Nat}

theorem Shows.hasMatch_eq_false {x : Hash}
    (hshows : (hidden x : Pruned n (h + 1) p).Shows marked) :
    hasMatch marked (h + 1) p = false := by
  rw [Bool.eq_false_iff]
  intro hsome
  obtain ⟨i, hlo, hhi, hmark⟩ := (hasMatch_iff marked (h + 1) p).mp hsome
  obtain ⟨leaf, hleaf, -⟩ := (hshows i hlo hhi).mpr hmark
  cases hleaf

theorem Shows.flag_eq (hsize : n ≤ UInt32.size) (hp : p < width n 0) {flag : Bool} {x : Hash}
    (hshows : (leaf flag x : Pruned n 0 p).Shows marked) : flag = hasMatch marked 0 p := by
  have hlt : p < UInt32.size := ((lt_width_zero n p).mp hp).trans_le hsize
  have hiff := hshows p (by omega) (by omega)
  rw [hasMatch_zero, Bool.eq_iff_iff, getD_eq_true_iff, ← hiff]
  cases flag with
  | false => simp [matched]
  | true => simp [matched, UInt32.toNat_ofNat_of_lt' hlt]

theorem Shows.of_single {only : hasRightChild n (h + 1) p = false} {left : Pruned n h (2 * p)}
    (hshows : (single only left).Shows marked) : left.Shows marked := by
  intro i hlo hhi
  rw [right_mul_two_pow] at hhi
  exact hshows i (by rw [mul_two_pow_succ]; exact hlo) (by rw [next_mul_two_pow_succ]; omega)

theorem Shows.of_pair (hsize : n ≤ UInt32.size) (hp : p < width n (h + 1))
    {both : hasRightChild n (h + 1) p = true} {left : Pruned n h (2 * p)}
    {right : Pruned n h (2 * p + 1)} (hshows : (pair both left right).Shows marked) :
    left.Shows marked ∧ right.Shows marked := by
  have hleft {leaf : MatchedLeaf} (hleaf : leaf ∈ left.matched) :=
    left.below_of_mem_matched hsize (left_lt_width hp) hleaf
  have hright {leaf : MatchedLeaf} (hleaf : leaf ∈ right.matched) :=
    right.below_of_mem_matched hsize (right_lt_width both) hleaf
  rw [Shows, mul_two_pow_succ, next_mul_two_pow_succ] at hshows
  simp only [Nat.succ_mul (2 * p + 1), right_mul_two_pow] at hleft hright
  refine ⟨?_, ?_⟩
  · intro i hlo hhi
    rw [right_mul_two_pow] at hhi
    rw [← hshows i hlo (by omega)]
    refine ⟨fun ⟨m, hm, hi⟩ => ⟨m, List.mem_append_left _ hm, hi⟩, ?_⟩
    rintro ⟨m, hm, hi⟩
    rcases List.mem_append.mp hm with hm | hm
    · exact ⟨m, hm, hi⟩
    · have := hright hm
      omega
  · intro i hlo hhi
    rw [right_mul_two_pow] at hlo
    rw [Nat.succ_mul (2 * p + 1), right_mul_two_pow] at hhi
    rw [← hshows i (by omega) hhi]
    refine ⟨fun ⟨m, hm, hi⟩ => ⟨m, List.mem_append_right _ hm, hi⟩, ?_⟩
    rintro ⟨m, hm, hi⟩
    rcases List.mem_append.mp hm with hm | hm
    · have := hleft hm
      omega
    · exact ⟨m, hm, hi⟩

end

/-! ## comparing two trees -/

/-- `P` has no more hashes and flags than `Q`, and as many flags only if they are the same -/
structure NoLarger {h p : Nat} (P Q : Pruned n h p) : Prop where
  hashes : P.hashes.length ≤ Q.hashes.length
  flags : P.flags.length ≤ Q.flags.length
  eq_of_length : Q.flags.length = P.flags.length → Q.flags = P.flags

theorem length_flags_pos {h p : Nat} (P : Pruned n h p) : 0 < P.flags.length :=
  P.length_hashes_pos.trans_le P.length_hashes_le_flags

section
variable {h p : Nat}

theorem hidden_noLarger (x : Hash) (Q : Pruned n (h + 1) p) :
    (hidden x : Pruned n (h + 1) p).NoLarger Q := by
  refine ⟨Q.length_hashes_pos, Q.length_flags_pos, ?_⟩
  intro hlen
  cases Q with
  | hidden y => rfl
  | single only left =>
    have hpos := left.length_flags_pos
    rw [Pruned.flags, Pruned.flags, List.length_cons, List.length_singleton] at hlen
    omega
  | pair both left right =>
    have hpos := left.length_flags_pos
    rw [Pruned.flags, Pruned.flags, List.length_cons, List.length_append,
      List.length_singleton] at hlen
    omega

theorem NoLarger.single {only : hasRightChild n (h + 1) p = false} {left left' : Pruned n h (2 * p)}
    (hl : left.NoLarger left') : (single only left).NoLarger (single only left') := by
  refine ⟨hl.hashes, Nat.succ_le_succ hl.flags, ?_⟩
  intro hlen
  exact congrArg (true :: ·) (hl.eq_of_length (Nat.succ.inj hlen))

theorem NoLarger.pair {both : hasRightChild n (h + 1) p = true} {left left' : Pruned n h (2 * p)}
    {right right' : Pruned n h (2 * p + 1)} (hl : left.NoLarger left')
    (hr : right.NoLarger right') : (pair both left right).NoLarger (pair both left' right') := by
  have hlf := hl.flags
  have hrf := hr.flags
  refine ⟨?_, ?_, ?_⟩
  · rw [Pruned.hashes, Pruned.hashes, List.length_append, List.length_append]
    exact Nat.add_le_add hl.hashes hr.hashes
  · rw [Pruned.flags, Pruned.flags, List.length_cons, List.length_cons, List.length_append,
      List.length_append]
    omega
  · intro hlen
    rw [Pruned.flags, Pruned.flags, List.length_cons, List.length_cons, List.length_append,
      List.length_append] at hlen
    rw [Pruned.flags, Pruned.flags, hl.eq_of_length (by omega), hr.eq_of_length (by omega)]

end

variable {leaves : Array Hash} {marked : Array Bool}

theorem ofMarked_noLarger (combine : Combiner) (hsize : leaves.size ≤ UInt32.size) {h p : Nat}
    (Q : Pruned leaves.size h p) (hp : p < width leaves.size h) (hshows : Q.Shows marked) :
    (ofMarked combine leaves marked h p).NoLarger Q := by
  induction Q with
  | @hidden h p x =>
    rw [ofMarked_hidden _ _ _ hshows.hasMatch_eq_false]
    exact hidden_noLarger _ _
  | @leaf p flag x =>
    obtain rfl := hshows.flag_eq hsize hp
    exact ⟨Nat.le_refl 1, Nat.le_refl 1, fun _ => rfl⟩
  | @single h p only left ih =>
    cases hm : hasMatch marked (h + 1) p with
    | false =>
      rw [ofMarked_hidden _ _ _ hm]
      exact hidden_noLarger _ _
    | true =>
      rw [ofMarked_single _ _ _ hm only]
      exact (ih (left_lt_width hp) hshows.of_single).single
  | @pair h p both left right ihl ihr =>
    cases hm : hasMatch marked (h + 1) p with
    | false =>
      rw [ofMarked_hidden _ _ _ hm]
      exact hidden_noLarger _ _
    | true =>
      obtain ⟨hl, hr⟩ := hshows.of_pair hsize hp
      rw [ofMarked_pair _ _ _ hm both]
      exact (ihl (left_lt_width hp) hl).pair (ihr (right_lt_width both) hr)

end Pruned

/-! ## proofs that are read -/

theorem markedLeaves_show {leaves : Array Hash} {marked : Array Bool}
    (hmarks : marked.size = leaves.size) (hsize : leaves.size < UInt32.size) (root : Hash) :
    (⟨root, markedLeaves leaves marked⟩ : MatchResult).Shows marked := by
  have htoNat {i : Nat} (hi : i < leaves.size) : (UInt32.ofNat i).toNat = i :=
    UInt32.toNat_ofNat_of_lt' (hi.trans hsize)
  intro i
  show (∃ m ∈ markedLeaves leaves marked, m.position.toNat = i) ↔ _
  simp only [markedLeaves, List.mem_map, List.mem_filter, List.mem_range, getD_eq_true_iff]
  constructor
  · rintro ⟨m, ⟨j, ⟨hj, hmark⟩, rfl⟩, hi⟩
    obtain rfl : j = i := (htoNat hj).symm.trans hi
    exact hmark
  · intro hmark
    have hi : i < leaves.size := hmarks ▸ (Array.getElem?_eq_some_iff.mp hmark).1
    exact ⟨_, ⟨i, ⟨hi, hmark⟩, rfl⟩, htoNat hi⟩

namespace PartialTree

/-- `t` has no more hashes than `t'` and no more flags than reading `t'` uses, and `t'` has as many
flags only if they are the same -/
structure NoLarger (combine : Combiner) (t t' : PartialTree) : Prop where
  hashes : t.hashes.length ≤ t'.hashes.length
  flags : t.flags.length ≤ (t'.flagsUsed combine).length
  eq_of_length : t'.flags.length = t.flags.length → t'.flags = t.flags

variable {combine : Combiner} {t t' : PartialTree} {leaves : Array Hash} {marked : Array Bool}
  {max : UInt32} {r : MatchResult}

theorem exists_carries_of_extract {n : Nat} (hcount : t.leafCount.toNat = n)
    (hr : t.extract combine max = .ok r) :
    ∃ P : Pruned n (treeHeight n) 0, t.Carries P ∧ r = ⟨P.root combine, P.matched⟩ := by
  subst hcount
  obtain ⟨-, -, P, hP, -, hr⟩ := (extract_ok_iff_pruned combine max t r).mp hr
  exact ⟨P, hP, hr⟩

section
variable (hne : 0 < leaves.size) (hsize : leaves.size < UInt32.size)
include hne hsize

theorem ofLeaves_noLarger (hcount : t.leafCount.toNat = leaves.size)
    (hr : t.extract combine max = .ok r) (hshows : r.Shows marked) :
    (ofLeaves combine leaves marked).NoLarger combine t := by
  obtain ⟨Q, hQ, rfl⟩ := exists_carries_of_extract hcount hr
  have hP := carries_ofLeaves combine marked hsize
  have hle := Q.ofMarked_noLarger combine hsize.le (root_lt_width hne) fun i _ _ => hshows i
  refine ⟨?_, ?_, ?_⟩
  · rw [← hP.hashes, ← hQ.hashes]
    exact hle.hashes
  · rw [flagsUsed_of_carries hQ, flags_ofLeaves]
    exact hle.flags
  · intro hlen
    have hprefix := hQ.flags.length_le
    have hleast := hle.flags
    rw [flags_ofLeaves] at hlen ⊢
    rw [← hQ.flags.eq_of_length (by omega)]
    exact hle.eq_of_length (by omega)

theorem ofLeaves_shows (hmarks : marked.size = leaves.size)
    (hr : (ofLeaves combine leaves marked).extract combine max = .ok r) : r.Shows marked := by
  have hP := carries_ofLeaves combine marked hsize
  obtain ⟨Q, hQ, rfl⟩ := exists_carries_of_extract hP.count hr
  rw [eq_of_carries hQ hP, (Pruned.built_ofMarked ..).matched_eq (root_lt_width hne), span_root hne,
    Nat.zero_mul, markedFrom_all]
  exact markedLeaves_show hmarks hsize _

end

end PartialTree

/-- **A built proof is the smallest one for its marks.** Any other proof over as many leaves that is
accepted and shows exactly the marked leaves has at least as many hashes and uses at least as many
flags, and if it has as many flags as the built one, they are the same. So a built proof whose flags
have been tampered with never has the result it had, even where all hashes combine to one. -/
theorem built_proof_is_smallest (combine : Combiner) (leaves : Array Hash) (marked : Array Bool)
    (hne : 0 < leaves.size) (hmarks : marked.size = leaves.size)
    (hsize : leaves.size < UInt32.size) :
    ∃ t, PartialTree.build combine leaves marked = .ok t ∧
      (∀ (max : UInt32) (t' : PartialTree) (r : MatchResult), t'.leafCount.toNat = leaves.size →
        t'.extract combine max = .ok r → r.Shows marked → t.NoLarger combine t') ∧
      ∀ (max max' : UInt32) (flags : List Bool) (r : MatchResult),
        flags.length = t.flags.length → flags ≠ t.flags → t.extract combine max = .ok r →
          ({ t with flags := flags } : PartialTree).extract combine max' ≠ .ok r := by
  refine ⟨PartialTree.ofLeaves combine leaves marked,
    PartialTree.build_eq_ok combine hne hmarks hsize, ?_, ?_⟩
  · intro max t' r hcount hr hshows
    exact PartialTree.ofLeaves_noLarger hne hsize hcount hr hshows
  · intro max max' flags r hlen hflags hr hr'
    have hshows := PartialTree.ofLeaves_shows hne hsize hmarks hr
    have hcount : (PartialTree.ofLeaves combine leaves marked).leafCount.toNat = leaves.size :=
      (PartialTree.carries_ofLeaves combine marked hsize).count
    have hno : (PartialTree.ofLeaves combine leaves marked).NoLarger combine
        { PartialTree.ofLeaves combine leaves marked with flags := flags } :=
      PartialTree.ofLeaves_noLarger hne hsize hcount hr' hshows
    exact hflags (hno.eq_of_length hlen)

/-- one more hash and two more flags show the second of four leaves as well, and no other value for
the five flags of the built proof does -/
theorem built_proof_is_smallest_four :
    ∃ (leaves : Array Hash) (marked : Array Bool) (t t' : PartialTree) (r : MatchResult),
      leaves.size = 4 ∧ marked = #[false, true, false, false] ∧
        PartialTree.build (fun x _ => x) leaves marked = .ok t ∧
          t.extract (fun x _ => x) 4 = .ok r ∧ t'.extract (fun x _ => x) 4 = .ok r ∧
            t.flags.length = 5 ∧ t'.flags.length = 7 ∧ t.NoLarger (fun x _ => x) t' ∧
              ∀ flags, flags.length = 5 → flags ≠ t.flags →
                ({ t with flags := flags } : PartialTree).extract (fun x _ => x) 4 ≠ .ok r := by
  let a : Hash := .fill 1
  let b : Hash := .fill 2
  let c : Hash := .fill 3
  let d : Hash := .fill 4
  let leaves : Array Hash := #[a, b, c, d]
  let marked : Array Bool := #[false, true, false, false]
  let built : PartialTree := ⟨4, [true, true, false, true, false], [a, b, c]⟩
  let t' : PartialTree := ⟨4, [true, true, false, true, true, false, false], [a, b, c, d]⟩
  have hbuild : PartialTree.build (fun x _ => x) leaves marked = .ok built := by decide +kernel
  have hr : built.extract (fun x _ => x) 4 = .ok ⟨a, [⟨1, b⟩]⟩ := by decide +kernel
  have hr' : t'.extract (fun x _ => x) 4 = .ok ⟨a, [⟨1, b⟩]⟩ := by decide +kernel
  have hfound : [⟨1, b⟩] = markedLeaves leaves marked := by decide +kernel
  have hshows : (⟨a, [⟨1, b⟩]⟩ : MatchResult).Shows marked := by
    rw [hfound]
    exact markedLeaves_show rfl (by decide) a
  obtain ⟨t, ht, hsmallest, htamper⟩ := built_proof_is_smallest (fun x _ => x) leaves marked
    (by decide) rfl (by decide)
  obtain rfl : t = built := Except.ok.inj (ht.symm.trans hbuild)
  exact ⟨leaves, marked, built, t', _, rfl, rfl, ht, hr, hr', rfl, rfl,
    hsmallest 4 t' _ rfl hr' hshows, fun flags hlen hflags => htamper 4 4 flags _ hlen hflags hr⟩

end BlockProof
