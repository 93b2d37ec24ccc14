import BlockProof.Proofs.Tree.Reading
import BlockProof.Prover

/-!
# Building a proof and reading it back

The builder's walk writes down the lists of one pruned tree, `Pruned.ofMarked`, which is cut off
where no marked leaf stands below. Reading them back therefore yields the root and the marked leaves
of the block, unless some node that the walk enters has two children with one hash.

* `Opened marked h p`    inner node `(h, p)` stands above a marked leaf, so that the walk enters it;
* `Clash`                an opened node whose two children have one hash;
* `markedLeaves`         the marked leaves with their positions;
* `prune_eq`             the builder's walk writes down its tree;
* `Pruned.Built`         the builder's tree, as a predicate to do induction on: its root, its leaves
                         and its twins are told from it;
* `PartialTree.build_eq_ok`, `Prover.prove_eq_ok`   the leaves and marks that a proof is made for;
* `extract_build`        what reading a built proof yields, and when it fails instead.
-/

namespace BlockProof

/-! ## marks -/

/-- inner node `(h, p)` stands above a marked leaf -/
def Opened (marked : Array Bool) (h p : Nat) : Prop :=
  1 ≤ h ∧ ∃ i, p * 2 ^ h ≤ i ∧ i < (p + 1) * 2 ^ h ∧ marked[i]? = some true

/-- node `(h, p)` is opened, and its two children have one hash -/
def Clash (combine : Combiner) (leaves : Array Hash) (marked : Array Bool) (h p : Nat) : Prop :=
  Opened marked h p ∧ hasRightChild leaves.size h p = true ∧
    nodeHash combine leaves (h - 1) (2 * p) = nodeHash combine leaves (h - 1) (2 * p + 1)

/-- the marked ones among `count` leaves from leaf `start` on -/
def markedFrom (leaves : Array Hash) (marked : Array Bool) (start count : Nat) :
    List MatchedLeaf :=
  ((List.range' start count).filter fun i => marked.getD i false).map fun i =>
    ⟨UInt32.ofNat i, leaves.getD i Hash.zero⟩

def markedLeaves (leaves : Array Hash) (marked : Array Bool) : List MatchedLeaf :=
  ((List.range leaves.size).filter fun i => marked.getD i false).map fun i =>
    ⟨UInt32.ofNat i, leaves.getD i Hash.zero⟩

theorem hasMatch_iff (marked : Array Bool) (h p : Nat) : hasMatch marked h p = true ↔
    ∃ i, p * 2 ^ h ≤ i ∧ i < (p + 1) * 2 ^ h ∧ marked[i]? = some true := by
  rw [hasMatch, Array.any_eq_true]
  simp only [Nat.shiftLeft_eq, Array.size_extract, Array.getElem_extract, id]
  constructor
  · intro hmatch
    obtain ⟨i, hi, hm⟩ := hmatch
    refine ⟨p * 2 ^ h + i, by omega, by omega, ?_⟩
    rw [Array.getElem?_eq_getElem (by omega), hm]
  · intro hmatch
    obtain ⟨i, hlo, hhi, hm⟩ := hmatch
    obtain ⟨hsize, hm⟩ := Array.getElem?_eq_some_iff.mp hm
    refine ⟨i - p * 2 ^ h, by omega, ?_⟩
    simp only [Nat.add_sub_cancel' hlo, hm]

theorem opened_succ_iff (marked : Array Bool) (h p : Nat) :
    Opened marked (h + 1) p ↔ hasMatch marked (h + 1) p = true := by
  rw [Opened, hasMatch_iff]
  exact and_iff_right (Nat.le_add_left 1 h)

instance (marked : Array Bool) (h p : Nat) : Decidable (Opened marked h p) :=
  decidable_of_iff (1 ≤ h ∧ hasMatch marked h p = true)
    (and_congr_right fun _ => hasMatch_iff marked h p)

instance (combine : Combiner) (leaves : Array Hash) (marked : Array Bool) (h p : Nat) :
    Decidable (Clash combine leaves marked h p) :=
  inferInstanceAs (Decidable (_ ∧ _ ∧ _))

theorem getD_eq_true_iff (marked : Array Bool) (i : Nat) :
    marked.getD i false = true ↔ marked[i]? = some true := by
  rw [Array.getD_eq_getD_getElem?]
  cases marked[i]? <;> simp

theorem hasMatch_zero (marked : Array Bool) (p : Nat) :
    hasMatch marked 0 p = marked.getD p false := by
  rw [Bool.eq_iff_iff, hasMatch_iff, getD_eq_true_iff]
  constructor
  · intro hmatch
    obtain ⟨i, hlo, hhi, hm⟩ := hmatch
    have hi : i = p := by omega
    rw [← hi, hm]
  · intro hm
    exact ⟨p, by omega, by omega, hm⟩

theorem hasMatch_succ (marked : Array Bool) (h p : Nat) :
    hasMatch marked (h + 1) p = (hasMatch marked h (2 * p) || hasMatch marked h (2 * p + 1)) := by
  rw [Bool.eq_iff_iff, Bool.or_eq_true, hasMatch_iff, hasMatch_iff, hasMatch_iff, mul_two_pow_succ,
    next_mul_two_pow_succ, Nat.succ_mul (2 * p + 1), right_mul_two_pow]
  constructor
  · intro hmatch
    obtain ⟨i, hlo, hhi, hm⟩ := hmatch
    by_cases hside : i < 2 * p * 2 ^ h + 2 ^ h
    · exact .inl ⟨i, hlo, hside, hm⟩
    · exact .inr ⟨i, Nat.not_lt.mp hside, hhi, hm⟩
  · intro hmatch
    rcases hmatch with ⟨i, hlo, hhi, hm⟩ | ⟨i, hlo, hhi, hm⟩
    · exact ⟨i, hlo, hhi.trans_le (Nat.le_add_right _ _), hm⟩
    · exact ⟨i, (Nat.le_add_right _ _).trans hlo, hhi, hm⟩

theorem not_opened_of_mem_postOrder {n h p : Nat} {marked : Array Bool}
    (hnone : hasMatch marked h p = false) {v : Nat × Nat} (hv : v ∈ postOrder n h p) :
    ¬ Opened marked v.1 v.2 := by
  induction h generalizing p with
  | zero =>
    rw [postOrder, List.mem_singleton] at hv
    rw [hv]
    exact fun hopen => absurd hopen.1 (Nat.not_succ_le_zero 0)
  | succ h ih =>
    have hboth := hnone
    rw [hasMatch_succ, Bool.or_eq_false_iff] at hboth
    rw [postOrder, List.mem_append, List.mem_append, List.mem_singleton] at hv
    rcases hv with (hl | hr) | rfl
    · exact ih hboth.1 hl
    · split at hr
      · exact ih hboth.2 hr
      · cases hr
    · rw [opened_succ_iff, hnone]
      exact Bool.false_ne_true

theorem markedFrom_append (leaves : Array Hash) (marked : Array Bool) (start a b : Nat) :
    markedFrom leaves marked start (a + b) =
      markedFrom leaves marked start a ++ markedFrom leaves marked (start + a) b := by
  rw [markedFrom, ← List.range'_append_1, List.filter_append, List.map_append]
  rfl

theorem markedFrom_eq_nil {leaves : Array Hash} {marked : Array Bool} {n h p : Nat}
    (hnone : hasMatch marked h p = false) :
    markedFrom leaves marked (p * 2 ^ h) (span n h p) = [] := by
  rw [markedFrom, List.map_eq_nil_iff, List.filter_eq_nil_iff]
  intro i hi hm
  obtain ⟨hlo, hhi⟩ := List.mem_range'_1.mp hi
  rw [span] at hhi
  have hsome : hasMatch marked h p = true :=
    (hasMatch_iff marked h p).mpr ⟨i, hlo, by omega, (getD_eq_true_iff marked i).mp hm⟩
  exact Bool.false_ne_true (hnone.symm.trans hsome)

/-! ## the builder's tree -/

namespace Pruned

variable (combine : Combiner) (leaves : Array Hash) (marked : Array Bool)

/-- the tree over `leaves`, cut off where no marked leaf stands below -/
def ofMarked : (h p : Nat) → Pruned leaves.size h p
  | 0, p => .leaf (hasMatch marked 0 p) (nodeHash combine leaves 0 p)
  | h + 1, p =>
    if hasMatch marked (h + 1) p then
      if both : hasRightChild leaves.size (h + 1) p = true then
        .pair both (ofMarked h (2 * p)) (ofMarked h (2 * p + 1))
      else .single (Bool.not_eq_true _ ▸ both) (ofMarked h (2 * p))
    else .hidden (nodeHash combine leaves (h + 1) p)

theorem ofMarked_hidden {h p : Nat} (hnone : hasMatch marked (h + 1) p = false) :
    ofMarked combine leaves marked (h + 1) p = .hidden (nodeHash combine leaves (h + 1) p) := by
  rw [ofMarked, hnone, if_neg Bool.false_ne_true]

theorem ofMarked_single {h p : Nat} (hsome : hasMatch marked (h + 1) p = true)
    (only : hasRightChild leaves.size (h + 1) p = false) :
    ofMarked combine leaves marked (h + 1) p =
      .single only (ofMarked combine leaves marked h (2 * p)) := by
  rw [ofMarked, hsome, if_pos rfl, dif_neg (only ▸ Bool.false_ne_true)]

theorem ofMarked_pair {h p : Nat} (hsome : hasMatch marked (h + 1) p = true)
    (both : hasRightChild leaves.size (h + 1) p = true) :
    ofMarked combine leaves marked (h + 1) p =
      .pair both (ofMarked combine leaves marked h (2 * p))
        (ofMarked combine leaves marked h (2 * p + 1)) := by
  rw [ofMarked, hsome, if_pos rfl, dif_pos both]

end Pruned

/-- the builder's walk writes down the lists of its tree -/
theorem prune_eq (combine : Combiner) (leaves : Array Hash) (marked : Array Bool) (h p : Nat) :
    prune combine leaves marked h p =
      ((Pruned.ofMarked combine leaves marked h p).flags,
        (Pruned.ofMarked combine leaves marked h p).hashes) := by
  induction h generalizing p with
  | zero => rfl
  | succ h ih =>
    rw [prune]
    cases hm : hasMatch marked (h + 1) p with
    | false =>
      rw [Pruned.ofMarked_hidden _ _ _ hm]
      rfl
    | true =>
      cases hb : hasRightChild leaves.size (h + 1) p with
      | false =>
        rw [Pruned.ofMarked_single _ _ _ hm hb, ih]
        rfl
      | true =>
        rw [Pruned.ofMarked_pair _ _ _ hm hb, ih, ih]
        rfl

namespace Pruned

/-- a tree over `leaves` that is cut off just where no marked leaf stands below, and whose hashes
are those of the nodes -/
inductive Built (combine : Combiner) (leaves : Array Hash) (marked : Array Bool) :
    {h p : Nat} → Pruned leaves.size h p → Prop where
  | hidden {h p : Nat} (hnone : hasMatch marked (h + 1) p = false) :
      Built combine leaves marked
        (hidden (nodeHash combine leaves (h + 1) p) : Pruned leaves.size (h + 1) p)
  | leaf {p : Nat} :
      Built combine leaves marked
        (leaf (hasMatch marked 0 p) (nodeHash combine leaves 0 p) : Pruned leaves.size 0 p)
  | single {h p : Nat} (hsome : hasMatch marked (h + 1) p = true)
      {only : hasRightChild leaves.size (h + 1) p = false} {left : Pruned leaves.size h (2 * p)}
      (hl : Built combine leaves marked left) : Built combine leaves marked (single only left)
  | pair {h p : Nat} (hsome : hasMatch marked (h + 1) p = true)
      {both : hasRightChild leaves.size (h + 1) p = true} {left : Pruned leaves.size h (2 * p)}
      {right : Pruned leaves.size h (2 * p + 1)} (hl : Built combine leaves marked left)
      (hr : Built combine leaves marked right) : Built combine leaves marked (pair both left right)

theorem built_ofMarked (combine : Combiner) (leaves : Array Hash) (marked : Array Bool)
    (h p : Nat) : Built combine leaves marked (ofMarked combine leaves marked h p) := by
  induction h generalizing p with
  | zero => exact .leaf
  | succ h ih =>
    cases hm : hasMatch marked (h + 1) p with
    | false =>
      rw [ofMarked_hidden _ _ _ hm]
      exact .hidden hm
    | true =>
      cases hb : hasRightChild leaves.size (h + 1) p with
      | false =>
        rw [ofMarked_single _ _ _ hm hb]
        exact .single hm (ih (2 * p))
      | true =>
        rw [ofMarked_pair _ _ _ hm hb]
        exact .pair hm (ih (2 * p)) (ih (2 * p + 1))

section
variable {combine : Combiner} {leaves : Array Hash} {marked : Array Bool} {h p : Nat}
  {P : Pruned leaves.size h p}

theorem Built.root_eq (hP : Built combine leaves marked P) :
    P.root combine = nodeHash combine leaves h p := by
  induction hP with
  | hidden hnone => rfl
  | leaf => rfl
  | @single _ _ hsome only _ _ ih =>
    rw [root, ih, nodeHash, only]
    rfl
  | @pair _ _ hsome both _ _ _ _ ihl ihr =>
    rw [root, ihl, ihr, nodeHash, both]
    rfl

theorem Built.matched_eq (hP : Built combine leaves marked P) (hp : p < width leaves.size h) :
    P.matched = markedFrom leaves marked (p * 2 ^ h) (span leaves.size h p) := by
  induction hP with
  | hidden hnone =>
    rw [markedFrom_eq_nil hnone]
    rfl
  | @leaf p =>
    rw [span_zero hp, Nat.pow_zero, Nat.mul_one, matched, hasMatch_zero, markedFrom,
      List.range'_one, nodeHash]
    simp only [List.filter_cons, List.filter_nil]
    cases marked.getD p false <;> rfl
  | @single _ _ hsome only _ _ ih =>
    rw [matched, ih (left_lt_width hp), mul_two_pow_succ, span_single only]
  | @pair _ _ hsome both _ _ _ _ ihl ihr =>
    rw [matched, ihl (left_lt_width hp), ihr (right_lt_width both), mul_two_pow_succ,
      span_pair both, span_left both, right_mul_two_pow, markedFrom_append]

/-- the twins of the builder's tree are the clashes, in the order of the walk -/
theorem Built.twins_eq (hP : Built combine leaves marked P) : P.twins combine =
    (postOrder leaves.size h p).filter fun v => Clash combine leaves marked v.1 v.2 := by
  induction hP with
  | hidden hnone =>
    rw [twins, eq_comm, List.filter_eq_nil_iff]
    intro v hv hc
    exact not_opened_of_mem_postOrder hnone hv (of_decide_eq_true hc).1
  | @leaf p =>
    have hleaf : ¬ Clash combine leaves marked 0 p := fun hc =>
      absurd hc.1.1 (Nat.not_succ_le_zero 0)
    rw [postOrder, List.filter_cons, decide_eq_false hleaf]
    rfl
  | @single h p hsome only _ _ ih =>
    have hno : ¬ Clash combine leaves marked (h + 1) p := fun hc =>
      Bool.false_ne_true (only.symm.trans hc.2.1)
    rw [postOrder, List.filter_append, List.filter_append, ← ih, List.filter_cons, twins,
      decide_eq_false hno, only]
    simp
  | @pair h p hsome both _ _ hl hr ihl ihr =>
    have hopen : Opened marked (h + 1) p := (opened_succ_iff marked h p).mpr hsome
    rw [postOrder, List.filter_append, List.filter_append, ← ihl, List.filter_cons, twins,
      hl.root_eq, hr.root_eq, both, if_pos rfl, ← ihr]
    congr 1
    by_cases heq : nodeHash combine leaves h (2 * p + 1) = nodeHash combine leaves h (2 * p)
    · have hc : Clash combine leaves marked (h + 1) p := ⟨hopen, both, heq.symm⟩
      rw [if_pos heq, decide_eq_true hc]
      rfl
    · have hno : ¬ Clash combine leaves marked (h + 1) p := fun hc => heq hc.2.2.symm
      rw [if_neg heq, decide_eq_false hno]
      rfl

end

end Pruned

/-! ## reading a built proof -/

theorem markedFrom_all (leaves : Array Hash) (marked : Array Bool) :
    markedFrom leaves marked 0 leaves.size = markedLeaves leaves marked := by
  rw [markedFrom, markedLeaves, List.range_eq_range']

namespace PartialTree

theorem flags_ofLeaves (combine : Combiner) (leaves : Array Hash) (marked : Array Bool) :
    (ofLeaves combine leaves marked).flags =
      (Pruned.ofMarked combine leaves marked (treeHeight leaves.size) 0).flags := by
  rw [ofLeaves, prune_eq]

theorem hashes_ofLeaves (combine : Combiner) (leaves : Array Hash) (marked : Array Bool) :
    (ofLeaves combine leaves marked).hashes =
      (Pruned.ofMarked combine leaves marked (treeHeight leaves.size) 0).hashes := by
  rw [ofLeaves, prune_eq]

variable (combine : Combiner) {leaves : Array Hash} (marked : Array Bool)

theorem carries_ofLeaves (hsize : leaves.size < UInt32.size) :
    (ofLeaves combine leaves marked).Carries
      (Pruned.ofMarked combine leaves marked (treeHeight leaves.size) 0) := by
  have hcount : (UInt32.ofNat leaves.size).toNat = leaves.size := UInt32.toNat_ofNat_of_lt' hsize
  have hflags := flags_ofLeaves combine leaves marked
  exact ⟨hcount, hflags ▸ List.prefix_rfl, by rw [hflags],
    (hashes_ofLeaves combine leaves marked).symm⟩

/-- reading a built proof yields the root and the marked leaves, or the first clash -/
theorem extract_ofLeaves {max : UInt32} (hne : 0 < leaves.size) (hmax : leaves.size ≤ max.toNat) :
    (ofLeaves combine leaves marked).extract combine max =
      match (postOrder leaves.size (treeHeight leaves.size) 0).find?
        (fun v => Clash combine leaves marked v.1 v.2) with
      | some v => .error (.identicalSiblings v.1 v.2)
      | none => .ok ⟨merkleRoot combine leaves, markedLeaves leaves marked⟩ := by
  have hsize : leaves.size < UInt32.size := hmax.trans_lt max.toNat_lt
  have hcarries := carries_ofLeaves combine marked hsize
  have hcount : (ofLeaves combine leaves marked).leafCount.toNat = leaves.size := hcarries.count
  have hbuilt := Pruned.built_ofMarked combine leaves marked (treeHeight leaves.size) 0
  have hmatched := hbuilt.matched_eq (root_lt_width hne)
  rw [span_root hne, Nat.zero_mul, markedFrom_all] at hmatched
  rw [extract_of_carries combine hcarries (UInt32.le_iff_toNat_le.mpr (by rw [hcount]; exact hne))
    (UInt32.le_iff_toNat_le.mpr (by rw [hcount]; exact hmax)),
    replay_of_carries combine hcarries, hbuilt.twins_eq, List.head?_filter, hbuilt.root_eq,
    hmatched]
  rfl

end PartialTree

theorem checkLeaves_eq_ok {leaves : Array Hash} {marked : Array Bool} (hne : 0 < leaves.size)
    (hmarks : marked.size = leaves.size) (hsize : leaves.size < UInt32.size) :
    checkLeaves leaves marked = .ok () := by
  have hfull : leaves.isEmpty = false := decide_eq_false hne.ne'
  rw [checkLeaves, hfull, if_neg Bool.false_ne_true, if_neg (not_not.mpr hmarks.symm),
    if_neg (Nat.not_le.mpr hsize)]

theorem checkLeaves_eq_tooManyLeaves {leaves : Array Hash} {marked : Array Bool}
    (hne : 0 < leaves.size) (hmarks : marked.size = leaves.size)
    (hsize : UInt32.size ≤ leaves.size) : checkLeaves leaves marked = .error .tooManyLeaves := by
  have hfull : leaves.isEmpty = false := decide_eq_false hne.ne'
  rw [checkLeaves, hfull, if_neg Bool.false_ne_true, if_neg (not_not.mpr hmarks.symm),
    if_pos hsize]

theorem PartialTree.build_eq_ok (combine : Combiner) {leaves : Array Hash} {marked : Array Bool}
    (hne : 0 < leaves.size) (hmarks : marked.size = leaves.size)
    (hsize : leaves.size < UInt32.size) :
    build combine leaves marked = .ok (ofLeaves combine leaves marked) := by
  rw [build, checkLeaves_eq_ok hne hmarks hsize]
  rfl

theorem Prover.prove_eq_ok (p : Prover) (header : Header) {txids : Array Hash}
    {marked : Array Bool} (hne : 0 < txids.size) (hmarks : marked.size = txids.size)
    (hsize : txids.size < UInt32.size) : p.prove header txids marked =
      .ok (p.merkleBlock header txids marked, markedPositions marked) := by
  rw [prove, checkLeaves_eq_ok hne hmarks hsize]
  rfl

/-- **A built proof is read back exactly.** Without a clash the result is the root and the marked
leaves; otherwise it is the first clash in the order of the walk, and nothing else can go wrong. -/
theorem extract_build (combine : Combiner) (leaves : Array Hash) (marked : Array Bool)
    (max : UInt32) (hne : 0 < leaves.size) (hmarks : marked.size = leaves.size)
    (hmax : leaves.size ≤ max.toNat) :
    ∃ t, PartialTree.build combine leaves marked = .ok t ∧
      ((∀ h p, IsNode leaves.size h p → ¬ Clash combine leaves marked h p) →
        ∃ root, merkleRoot? combine leaves = some root ∧
          t.extract combine max = .ok ⟨root, markedLeaves leaves marked⟩) ∧
      ((∃ h p, IsNode leaves.size h p ∧ Clash combine leaves marked h p) →
        ∃ before h p after,
          postOrder leaves.size (treeHeight leaves.size) 0 = before ++ (h, p) :: after ∧
          (∀ v ∈ before, ¬ Clash combine leaves marked v.1 v.2) ∧
          Clash combine leaves marked h p ∧
          t.extract combine max = .error (.identicalSiblings h p)) := by
  have hsize : leaves.size < UInt32.size := hmax.trans_lt max.toNat_lt
  have hread := PartialTree.extract_ofLeaves combine marked hne hmax
  refine ⟨PartialTree.ofLeaves combine leaves marked,
    PartialTree.build_eq_ok combine hne hmarks hsize, ?_, ?_⟩
  · intro hclear
    refine ⟨merkleRoot combine leaves, merkleRoot?_eq_some_iff.mpr ⟨hne, rfl⟩, ?_⟩
    rw [hread, List.find?_eq_none.mpr]
    intro v hv hc
    exact hclear v.1 v.2 ((mem_postOrder_root_iff hne).mp hv) (of_decide_eq_true hc)
  · intro hclash
    obtain ⟨h, p, hnode, hc⟩ := hclash
    cases hfind : (postOrder leaves.size (treeHeight leaves.size) 0).find?
        (fun v => Clash combine leaves marked v.1 v.2) with
    | none =>
      have hno := List.find?_eq_none.mp hfind (h, p) ((mem_postOrder_root_iff hne).mpr hnode)
      exact absurd (decide_eq_true hc) hno
    | some v =>
      obtain ⟨hv, before, after, hsplit, hbefore⟩ := List.find?_eq_some_iff_append.mp hfind
      refine ⟨before, v.1, v.2, after, hsplit, ?_, of_decide_eq_true hv, ?_⟩
      · intro w hw hcw
        have hnot := hbefore w hw
        rw [decide_eq_true hcw] at hnot
        cases hnot
      · rw [hread, hfind]

/-- two equal leaves below an opened node make reading fail -/
theorem extract_build_equal_leaves :
    0 < #[Hash.zero, Hash.zero, Hash.zero].size ∧
      #[false, true, false].size = #[Hash.zero, Hash.zero, Hash.zero].size ∧
      #[Hash.zero, Hash.zero, Hash.zero].size ≤ UInt32.toNat 3 ∧
      Clash (fun x _ => x) #[Hash.zero, Hash.zero, Hash.zero] #[false, true, false] 1 0 ∧
      ∃ t, PartialTree.build (fun x _ => x) #[Hash.zero, Hash.zero, Hash.zero]
          #[false, true, false] = .ok t ∧
        ∃ h p, t.extract (fun x _ => x) 3 = .error (.identicalSiblings h p) := by
  have hclash : Clash (fun x _ => x) #[Hash.zero, Hash.zero, Hash.zero] #[false, true, false] 1 0 := by
    decide +kernel
  obtain ⟨t, hbuild, -, hfail⟩ := extract_build (fun x _ => x) #[Hash.zero, Hash.zero, Hash.zero]
    #[false, true, false] 3 (by decide) (by decide) (by decide)
  obtain ⟨-, h, p, -, -, -, -, hread⟩ := hfail ⟨1, 0, by decide +kernel, hclash⟩
  exact ⟨by decide, by decide, by decide, hclash, t, hbuild, h, p, hread⟩

end BlockProof
