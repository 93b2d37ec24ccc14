import BlockProof.Proofs.Tree.Building
import BlockProof.Proofs.Tree.Coverage
import BlockProof.Proofs.Tree.Levels
import Mathlib.Data.List.Basic

/-!
# A built proof reveals the frontier of its marks

Which hashes and flags the builder writes down can be told from the marks alone, node by node. It
reaches the root and every node whose parent stands above a marked leaf. Of these it leaves the hash
of each leaf and of each node above no marked leaf: the frontier, which shares the leaves out. For
every node it reaches, and these are the frontier and all nodes above it, it leaves one flag. A mark
makes the builder reach two nodes a level at most, so few marks make a small proof.

* `MarkedBelow`, `marksBelow`  a marked leaf stands below a node, and how many do;
* `Reached`, `OnFrontier`      the nodes at which there is a flag, and at which there is a hash;
* `Pruned.Built.stops_eq`, `Pruned.Built.flags_eq`   hashes and flags told from the marks;
* `built_proof_reveals_frontier`   the main result.
-/

namespace BlockProof

/-! ## marks -/

def MarkedBelow (n : Nat) (marked : Array Bool) (v : Nat × Nat) : Prop :=
  ∃ i ∈ leavesBelow n v, marked[i]? = some true

instance (n : Nat) (marked : Array Bool) (v : Nat × Nat) : Decidable (MarkedBelow n marked v) :=
  inferInstanceAs (Decidable (∃ i ∈ _, _))

def marksBelow (n : Nat) (marked : Array Bool) (v : Nat × Nat) : Nat :=
  (leavesBelow n v).countP fun i => marked[i]? = some true

/-- node `v` is the root, or its parent stands above a marked leaf -/
def Reached (n : Nat) (marked : Array Bool) (v : Nat × Nat) : Prop :=
  v.1 = treeHeight n ∨ MarkedBelow n marked (v.1 + 1, v.2 / 2)

instance (n : Nat) (marked : Array Bool) (v : Nat × Nat) : Decidable (Reached n marked v) :=
  inferInstanceAs (Decidable (_ ∨ _))

/-- node `v` is the root, or its parent stands above a marked leaf, while `v` is a leaf or stands
above no marked leaf -/
def OnFrontier (n : Nat) (marked : Array Bool) (v : Nat × Nat) : Prop :=
  Reached n marked v ∧ (v.1 = 0 ∨ ¬ MarkedBelow n marked v)

instance (n : Nat) (marked : Array Bool) (v : Nat × Nat) : Decidable (OnFrontier n marked v) :=
  inferInstanceAs (Decidable (_ ∧ (_ ∨ _)))

section
variable {n h p : Nat} {marked : Array Bool} {v w : Nat × Nat}

theorem MarkedBelow.above (hw : MarkedBelow n marked w) (h : Above v w) :
    MarkedBelow n marked v := by
  obtain ⟨i, hi, hmark⟩ := hw
  rw [mem_leavesBelow_iff] at hi
  exact ⟨i, mem_leavesBelow_iff.mpr ⟨hi.1, h.trans hi.2⟩, hmark⟩

theorem marksBelow_pos_iff : 0 < marksBelow n marked v ↔ MarkedBelow n marked v := by
  simp only [marksBelow, List.countP_pos_iff, decide_eq_true_eq]
  rfl

theorem hasMatch_iff_markedBelow (hmarks : marked.size = n) :
    hasMatch marked h p = true ↔ MarkedBelow n marked (h, p) := by
  rw [hasMatch_iff]
  refine exists_congr fun i => ?_
  rw [leavesBelow, List.mem_range'_1, ← and_assoc]
  refine and_congr_left fun hmark => ?_
  have hi : i < marked.size := (Array.getElem?_eq_some_iff.mp hmark).1
  show p * 2 ^ h ≤ i ∧ i < (p + 1) * 2 ^ h ↔
    p * 2 ^ h ≤ i ∧ i < p * 2 ^ h + (min ((p + 1) * 2 ^ h) n - p * 2 ^ h)
  omega

theorem marksBelow_single (only : hasRightChild n (h + 1) p = false) :
    marksBelow n marked (h + 1, p) = marksBelow n marked (h, 2 * p) := by
  rw [marksBelow, marksBelow, leavesBelow_single only]

theorem marksBelow_pair (both : hasRightChild n (h + 1) p = true) :
    marksBelow n marked (h + 1, p) =
      marksBelow n marked (h, 2 * p) + marksBelow n marked (h, 2 * p + 1) := by
  rw [marksBelow, marksBelow, marksBelow, leavesBelow_pair both, List.countP_append]

theorem not_reached_of_above (hh : v.1 ≤ treeHeight n) (hnone : ¬ MarkedBelow n marked v)
    (habove : Above v w) (hlow : w.1 < v.1) : ¬ Reached n marked w := by
  rintro (htop | hparent)
  · omega
  · exact hnone (hparent.above (habove.parent hlow))

theorem reached_left (hmarked : MarkedBelow n marked (h + 1, p)) : Reached n marked (h, 2 * p) := by
  refine .inr ?_
  show MarkedBelow n marked (h + 1, 2 * p / 2)
  rw [Nat.mul_div_cancel_left p Nat.two_pos]
  exact hmarked

theorem reached_right (hmarked : MarkedBelow n marked (h + 1, p)) :
    Reached n marked (h, 2 * p + 1) := by
  have hhalf : (2 * p + 1) / 2 = p := by omega
  refine .inr ?_
  show MarkedBelow n marked (h + 1, (2 * p + 1) / 2)
  rw [hhalf]
  exact hmarked

/-- what is reached is the frontier and all that stands above it -/
theorem reached_iff (hnode : IsNode n v.1 v.2) : Reached n marked v ↔
    ∃ w, IsNode n w.1 w.2 ∧ OnFrontier n marked w ∧ Above v w := by
  constructor
  · intro hreached
    by_cases hstop : v.1 = 0 ∨ ¬ MarkedBelow n marked v
    · exact ⟨v, hnode, ⟨hreached, hstop⟩, .refl v⟩
    · obtain ⟨hinner, hmarked⟩ := not_or.mp hstop
      obtain ⟨i, hi, hmark⟩ := not_not.mp hmarked
      obtain ⟨hlt, habove⟩ := mem_leavesBelow_iff.mp hi
      have hleaf : i ∈ leavesBelow n (1, i / 2) :=
        mem_leavesBelow_iff.mpr ⟨hlt, Nat.zero_le 1, by rw [Nat.sub_zero, Nat.pow_one]⟩
      exact ⟨(0, i), ⟨Nat.zero_le _, (lt_width_zero n i).mpr hlt⟩,
        ⟨.inr ⟨i, hleaf, hmark⟩, .inl rfl⟩, habove⟩
  · rintro ⟨w, hw, ⟨hreached, -⟩, habove⟩
    rcases Nat.eq_or_lt_of_le habove.1 with heq | hlow
    · rw [habove.eq_of_height heq]
      exact hreached
    · rcases hreached with htop | hparent
      · exact absurd hnode.1 (by omega)
      · by_cases hroot : v.1 = treeHeight n
        · exact .inl hroot
        · have hup : Above (v.1 + 1, v.2 / 2) v := by
            refine ⟨Nat.le_succ _, ?_⟩
            rw [Nat.add_sub_cancel_left, Nat.pow_one]
          exact .inr ((hparent.above (habove.parent hlow)).above hup)

end

/-! ## where to expect flags and hashes -/

/-- the nodes from node `(h, p)` down that are reached, parents first -/
def reachedBelow (n : Nat) (marked : Array Bool) (h p : Nat) : List (Nat × Nat) :=
  (preOrder n h p).filter fun v => Reached n marked v

/-- those of them that are leaves or stand above no marked leaf -/
def frontierBelow (n : Nat) (marked : Array Bool) (h p : Nat) : List (Nat × Nat) :=
  (reachedBelow n marked h p).filter fun v => v.1 = 0 ∨ ¬ MarkedBelow n marked v

section
variable {n h p : Nat} {marked : Array Bool}

theorem reachedBelow_leaf (hreached : Reached n marked (0, p)) :
    reachedBelow n marked 0 p = [(0, p)] := by
  rw [reachedBelow, preOrder, List.filter_cons, if_pos (decide_eq_true hreached), List.filter_nil]

theorem frontierBelow_leaf (hreached : Reached n marked (0, p)) :
    frontierBelow n marked 0 p = [(0, p)] := by
  rw [frontierBelow, reachedBelow_leaf hreached]
  rfl

section
variable (hh : h + 1 ≤ treeHeight n) (hreached : Reached n marked (h + 1, p))
  (hnone : ¬ MarkedBelow n marked (h + 1, p))
include hh hreached hnone

theorem reachedBelow_unmarked : reachedBelow n marked (h + 1) p = [(h + 1, p)] := by
  obtain ⟨rest, hrest, hlow⟩ := preOrder_eq_cons n h p
  rw [reachedBelow, hrest, List.filter_cons, if_pos (decide_eq_true hreached),
    List.filter_eq_nil_iff.mpr]
  intro v hv
  rw [decide_eq_true_iff]
  exact not_reached_of_above hh hnone (hlow v hv).2 (Nat.lt_succ_of_le (hlow v hv).1)

theorem frontierBelow_unmarked : frontierBelow n marked (h + 1) p = [(h + 1, p)] := by
  rw [frontierBelow, reachedBelow_unmarked hh hreached hnone, List.filter_cons,
    if_pos (decide_eq_true (.inr hnone)), List.filter_nil]

end

theorem reachedBelow_single (hreached : Reached n marked (h + 1, p))
    (only : hasRightChild n (h + 1) p = false) : reachedBelow n marked (h + 1) p =
      (h + 1, p) :: reachedBelow n marked h (2 * p) := by
  rw [reachedBelow, preOrder_single only, List.filter_cons, if_pos (decide_eq_true hreached)]
  rfl

theorem reachedBelow_pair (hreached : Reached n marked (h + 1, p))
    (both : hasRightChild n (h + 1) p = true) : reachedBelow n marked (h + 1) p =
      (h + 1, p) :: (reachedBelow n marked h (2 * p) ++ reachedBelow n marked h (2 * p + 1)) := by
  rw [reachedBelow, preOrder_pair both, List.filter_cons, if_pos (decide_eq_true hreached),
    List.filter_append]
  rfl

theorem not_stops_of_marked (hmarked : MarkedBelow n marked (h + 1, p)) :
    ¬ decide (((h + 1, p) : Nat × Nat).1 = 0 ∨ ¬ MarkedBelow n marked (h + 1, p)) = true := by
  rw [decide_eq_true_iff]
  exact fun hstop => hstop.elim (Nat.succ_ne_zero h) fun hnone => hnone hmarked

theorem frontierBelow_single (hreached : Reached n marked (h + 1, p))
    (hmarked : MarkedBelow n marked (h + 1, p)) (only : hasRightChild n (h + 1) p = false) :
    frontierBelow n marked (h + 1) p = frontierBelow n marked h (2 * p) := by
  rw [frontierBelow, reachedBelow_single hreached only, List.filter_cons,
    if_neg (not_stops_of_marked hmarked)]
  rfl

theorem frontierBelow_pair (hreached : Reached n marked (h + 1, p))
    (hmarked : MarkedBelow n marked (h + 1, p)) (both : hasRightChild n (h + 1) p = true) :
    frontierBelow n marked (h + 1) p =
      frontierBelow n marked h (2 * p) ++ frontierBelow n marked h (2 * p + 1) := by
  rw [frontierBelow, reachedBelow_pair hreached both, List.filter_cons,
    if_neg (not_stops_of_marked hmarked), List.filter_append]
  rfl

end

/-! ## the builder's tree -/

namespace Pruned

variable {combine : Combiner} {leaves : Array Hash} {marked : Array Bool}

section
variable {h p : Nat} {P : Pruned leaves.size h p}

theorem Built.hashes_eq (hP : Built combine leaves marked P) :
    P.hashes = P.stops.map fun v => nodeHash combine leaves v.1 v.2 := by
  induction hP with
  | hidden hnone => rfl
  | leaf => rfl
  | single hsome hl ih => exact ih
  | pair hsome hl hr ihl ihr => rw [hashes, stops, List.map_append, ihl, ihr]

theorem Built.of_unmarked (hP : Built combine leaves marked P)
    (hnone : hasMatch marked h p = false) :
    P.flags = [false] ∧ P.hashes = [nodeHash combine leaves h p] := by
  cases hP with
  | hidden => exact ⟨rfl, rfl⟩
  | leaf =>
    rw [flags, hnone]
    exact ⟨rfl, rfl⟩
  | single hsome hl => exact absurd (hnone.symm.trans hsome) Bool.false_ne_true
  | pair hsome hl hr => exact absurd (hnone.symm.trans hsome) Bool.false_ne_true

section
variable (hmarks : marked.size = leaves.size)
include hmarks

/-- the tree ends at the frontier -/
theorem Built.stops_eq (hP : Built combine leaves marked P) (hh : h ≤ treeHeight leaves.size)
    (hreached : Reached leaves.size marked (h, p)) :
    P.stops = frontierBelow leaves.size marked h p := by
  induction hP with
  | hidden hnone =>
    rw [Bool.eq_false_iff, Ne, hasMatch_iff_markedBelow hmarks] at hnone
    rw [stops, frontierBelow_unmarked hh hreached hnone]
  | leaf => rw [stops, frontierBelow_leaf hreached]
  | @single _ _ hsome only _ _ ih =>
    rw [hasMatch_iff_markedBelow hmarks] at hsome
    rw [stops, frontierBelow_single hreached hsome only,
      ih (Nat.le_of_succ_le hh) (reached_left hsome)]
  | @pair _ _ hsome both _ _ _ _ ihl ihr =>
    rw [hasMatch_iff_markedBelow hmarks] at hsome
    rw [stops, frontierBelow_pair hreached hsome both,
      ihl (Nat.le_of_succ_le hh) (reached_left hsome),
      ihr (Nat.le_of_succ_le hh) (reached_right hsome)]

/-- there is one flag for each node that is reached -/
theorem Built.flags_eq (hP : Built combine leaves marked P) (hh : h ≤ treeHeight leaves.size)
    (hreached : Reached leaves.size marked (h, p)) :
    P.flags = (reachedBelow leaves.size marked h p).map
      fun v => decide (MarkedBelow leaves.size marked v) := by
  have hflag (h p : Nat) :
      decide (MarkedBelow leaves.size marked (h, p)) = hasMatch marked h p := by
    rw [Bool.eq_iff_iff, decide_eq_true_iff, hasMatch_iff_markedBelow hmarks]
  induction hP with
  | hidden hnone =>
    have hunmarked := hnone
    rw [Bool.eq_false_iff, Ne, hasMatch_iff_markedBelow hmarks] at hunmarked
    rw [flags, reachedBelow_unmarked hh hreached hunmarked, List.map_singleton, hflag, hnone]
  | leaf => rw [flags, reachedBelow_leaf hreached, List.map_singleton, hflag]
  | @single _ _ hsome only _ _ ih =>
    have hmarked := (hasMatch_iff_markedBelow hmarks).mp hsome
    rw [flags, reachedBelow_single hreached only, List.map_cons, hflag, hsome,
      ih (Nat.le_of_succ_le hh) (reached_left hmarked)]
  | @pair _ _ hsome both _ _ _ _ ihl ihr =>
    have hmarked := (hasMatch_iff_markedBelow hmarks).mp hsome
    rw [flags, reachedBelow_pair hreached both, List.map_cons, List.map_append, hflag, hsome,
      ihl (Nat.le_of_succ_le hh) (reached_left hmarked),
      ihr (Nat.le_of_succ_le hh) (reached_right hmarked)]

/-! ## few marks -/

/-- a mark makes for at most one hash a level, besides the first -/
theorem Built.length_hashes_le (hP : Built combine leaves marked P) :
    P.hashes.length ≤ marksBelow leaves.size marked (h, p) * h + 1 := by
  induction hP with
  | hidden hnone => exact Nat.le_add_left 1 _
  | leaf => exact Nat.le_add_left 1 _
  | @single _ _ hsome only _ _ ih =>
    rw [hashes, marksBelow_single only, Nat.mul_succ]
    omega
  | @pair _ _ hsome both _ _ _ _ ihl ihr =>
    rw [hasMatch_iff_markedBelow hmarks, ← marksBelow_pos_iff, marksBelow_pair both] at hsome
    rw [hashes, List.length_append, marksBelow_pair both, Nat.mul_succ, Nat.add_mul]
    omega

/-- a mark makes for at most two flags a level, besides the first -/
theorem Built.length_flags_le (hP : Built combine leaves marked P) :
    P.flags.length ≤ marksBelow leaves.size marked (h, p) * (2 * h) + 1 := by
  induction hP with
  | hidden hnone => exact Nat.le_add_left 1 _
  | leaf => exact Nat.le_add_left 1 _
  | @single _ _ hsome only _ _ ih =>
    rw [hasMatch_iff_markedBelow hmarks, ← marksBelow_pos_iff, marksBelow_single only] at hsome
    rw [flags, List.length_cons, marksBelow_single only, Nat.mul_succ, Nat.mul_add]
    omega
  | @pair _ _ hsome both _ _ _ _ ihl ihr =>
    rw [hasMatch_iff_markedBelow hmarks, ← marksBelow_pos_iff, marksBelow_pair both] at hsome
    rw [flags, List.length_cons, List.length_append, marksBelow_pair both, Nat.mul_succ,
      Nat.mul_add, Nat.add_mul]
    omega

end

end

end Pruned

/-! ## the whole tree -/

section
variable {n : Nat} {marked : Array Bool}

theorem reached_root (n : Nat) (marked : Array Bool) : Reached n marked (treeHeight n, 0) :=
  .inl rfl

theorem mem_reachedBelow_root_iff (hn : 0 < n) {v : Nat × Nat} :
    v ∈ reachedBelow n marked (treeHeight n) 0 ↔ IsNode n v.1 v.2 ∧ Reached n marked v := by
  rw [reachedBelow, List.mem_filter, mem_preOrder_root_iff hn, decide_eq_true_iff]

theorem mem_frontierBelow_root_iff (hn : 0 < n) {v : Nat × Nat} :
    v ∈ frontierBelow n marked (treeHeight n) 0 ↔ IsNode n v.1 v.2 ∧ OnFrontier n marked v := by
  rw [frontierBelow, List.mem_filter, mem_reachedBelow_root_iff hn, decide_eq_true_iff, and_assoc]
  rfl

theorem marksBelow_root (hn : 0 < n) (hmarks : marked.size = n) :
    marksBelow n marked (treeHeight n, 0) = marked.count true := by
  have hlist : (List.range n).map (fun i => marked[i]?) = marked.toList.map some := by
    subst hmarks
    apply List.ext_getElem <;> simp
  have hcount := congrArg (List.countP fun a => decide (a = some true)) hlist
  rw [List.countP_map, List.countP_map] at hcount
  rw [marksBelow, leavesBelow_root hn, ← Array.count_toList, List.count]
  exact hcount.trans (List.countP_congr fun a _ => by simp)

theorem map_snd_frontier (hall : ∀ i < n, marked[i]? = some true) {F : List (Nat × Nat)}
    (hF : ∀ v ∈ F, IsNode n v.1 v.2 ∧ OnFrontier n marked v) :
    (∀ v ∈ F, v.1 = 0) ∧ F.flatMap (leavesBelow n) = F.map Prod.snd := by
  have hleaf : ∀ v ∈ F, v.1 = 0 := by
    intro v hv
    obtain ⟨⟨-, hwidth⟩, -, hstop⟩ := hF v hv
    refine hstop.resolve_right (not_not.mpr ?_)
    obtain ⟨i, hi⟩ := List.exists_mem_of_ne_nil _ (leavesBelow_ne_nil hwidth)
    exact ⟨i, hi, hall i (mem_leavesBelow_iff.mp hi).1⟩
  refine ⟨hleaf, ?_⟩
  rw [List.map_eq_flatMap]
  refine List.flatMap_congr fun v hv => ?_
  obtain ⟨⟨-, hwidth⟩, -⟩ := hF v hv
  obtain ⟨h, p⟩ := v
  obtain rfl : h = 0 := hleaf _ hv
  exact leavesBelow_leaf hwidth

end

/-- the lists of `t` are those of the frontier of the marks and of the nodes above it -/
structure RevealsFrontier (combine : Combiner) (leaves : Array Hash) (marked : Array Bool)
    (t : PartialTree) : Prop where
  hashes : t.hashes.map some = (frontierBelow leaves.size marked (treeHeight leaves.size) 0).map
    fun v => nodeHash? combine leaves v.1 v.2
  frontier_iff : ∀ v, v ∈ frontierBelow leaves.size marked (treeHeight leaves.size) 0 ↔
    IsNode leaves.size v.1 v.2 ∧ OnFrontier leaves.size marked v
  /-- from left to right each leaf stands below exactly one node of the frontier -/
  covers : (frontierBelow leaves.size marked (treeHeight leaves.size) 0).flatMap
    (leavesBelow leaves.size) = List.range leaves.size
  flags : t.flags = (reachedBelow leaves.size marked (treeHeight leaves.size) 0).map
    fun v => decide (MarkedBelow leaves.size marked v)
  reached_iff : ∀ v, v ∈ reachedBelow leaves.size marked (treeHeight leaves.size) 0 ↔
    IsNode leaves.size v.1 v.2 ∧
      ∃ w ∈ frontierBelow leaves.size marked (treeHeight leaves.size) 0, Above v w
  nodup : (reachedBelow leaves.size marked (treeHeight leaves.size) 0).Nodup
  all_marked : (∀ i < leaves.size, marked[i]? = some true) → t.hashes = leaves.toList
  none_marked : (∀ i < leaves.size, marked[i]? = some false) →
    ∃ root, merkleRoot? combine leaves = some root ∧ t.hashes = [root]
  few_hashes : 1 ≤ marked.count true → t.hashes.length ≤
    min leaves.size (marked.count true * (treeHeight leaves.size + 1))
  few_flags : 1 ≤ marked.count true →
    t.flags.length ≤ marked.count true * (2 * treeHeight leaves.size + 1)

section
variable (combine : Combiner) {leaves : Array Hash} {marked : Array Bool}

theorem map_range_nodeHash_zero :
    (List.range leaves.size).map (fun p => nodeHash combine leaves 0 p) = leaves.toList := by
  refine List.ext_getElem (by simp) fun p hp hp' => ?_
  rw [List.getElem_map, List.getElem_range, nodeHash, Array.getD_eq_getD_getElem?,
    Array.getElem?_eq_getElem hp', Option.getD_some, Array.getElem_toList]

theorem Pruned.Built.revealsFrontier (hne : 0 < leaves.size) (hmarks : marked.size = leaves.size)
    {P : Pruned leaves.size (treeHeight leaves.size) 0} (hP : Built combine leaves marked P)
    (count : UInt32) : RevealsFrontier combine leaves marked ⟨count, P.flags, P.hashes⟩ := by
  have hreached := reached_root leaves.size marked
  have hstops := hP.stops_eq hmarks (Nat.le_refl _) hreached
  have hmem (v : Nat × Nat) : v ∈ frontierBelow leaves.size marked (treeHeight leaves.size) 0 ↔
      IsNode leaves.size v.1 v.2 ∧ OnFrontier leaves.size marked v :=
    mem_frontierBelow_root_iff hne
  have hhashes := hP.hashes_eq
  have hcover := P.leavesBelow_stops (root_lt_width hne)
  rw [hstops] at hhashes hcover
  rw [leavesBelow_root hne] at hcover
  have hmarksRoot := marksBelow_root hne hmarks
  exact
    { hashes := by
        rw [hhashes, List.map_map]
        refine List.map_congr_left fun v hv => ?_
        exact (nodeHash?_eq_some combine ((hmem v).mp hv).1.2).symm
      frontier_iff := hmem
      covers := hcover
      flags := hP.flags_eq hmarks (Nat.le_refl _) hreached
      reached_iff := by
        intro v
        rw [mem_reachedBelow_root_iff hne]
        refine and_congr_right fun hnode => ?_
        simp only [reached_iff hnode, hmem, and_assoc]
      nodup := (nodup_preOrder _ _ 0).filter _
      all_marked := by
        intro hall
        obtain ⟨hleaf, hpositions⟩ := map_snd_frontier hall fun v hv => (hmem v).mp hv
        rw [hcover] at hpositions
        rw [hhashes, ← map_range_nodeHash_zero combine, hpositions, List.map_map]
        refine List.map_congr_left fun v hv => ?_
        rw [hleaf v hv]
        rfl
      none_marked := by
        intro hnone
        refine ⟨merkleRoot combine leaves, merkleRoot?_eq_some_iff.mpr ⟨hne, rfl⟩, ?_⟩
        refine (hP.of_unmarked ?_).2
        rw [Bool.eq_false_iff, Ne, hasMatch_iff_markedBelow hmarks]
        rintro ⟨i, hi, hmark⟩
        rw [hnone i (mem_leavesBelow_iff.mp hi).1] at hmark
        cases hmark
      few_hashes := by
        intro hsome
        have hle := hP.length_hashes_le hmarks
        rw [hmarksRoot] at hle
        refine Nat.le_min.mpr ⟨P.length_hashes_le_leaves hne, hle.trans ?_⟩
        rw [Nat.mul_succ]
        exact Nat.add_le_add_left hsome _
      few_flags := by
        intro hsome
        have hle := hP.length_flags_le hmarks
        rw [hmarksRoot] at hle
        refine hle.trans ?_
        rw [Nat.mul_succ]
        exact Nat.add_le_add_left hsome _ }

end

/-- **A built proof reveals the frontier of its marks.** Its hashes are those of the nodes of the
frontier, from left to right, and these share the leaves out. Its flags say, of the frontier and all
nodes above it, parents first, whether a marked leaf stands below. With all leaves marked the hashes
are the leaves, with none the root alone, and `k` marks make for at most `k * (H + 1)` hashes and
`k * (2 * H + 1)` flags in a tree of height `H`. Only a list too long to be counted is refused. -/
theorem built_proof_reveals_frontier (combine : Combiner) (leaves : Array Hash)
    (marked : Array Bool) (hne : 0 < leaves.size) (hmarks : marked.size = leaves.size) :
    (leaves.size < UInt32.size → ∃ t, PartialTree.build combine leaves marked = .ok t ∧
      RevealsFrontier combine leaves marked t) ∧
    (UInt32.size ≤ leaves.size →
      PartialTree.build combine leaves marked = .error .tooManyLeaves) := by
  refine ⟨?_, ?_⟩
  · intro hsize
    refine ⟨PartialTree.ofLeaves combine leaves marked,
      PartialTree.build_eq_ok combine hne hmarks hsize, ?_⟩
    rw [PartialTree.ofLeaves, prune_eq]
    exact (Pruned.built_ofMarked combine leaves marked _ 0).revealsFrontier combine hne hmarks _
  · intro hsize
    rw [PartialTree.build, checkLeaves_eq_tooManyLeaves hne hmarks hsize]
    rfl

/-- one mark among five leaves makes for as many hashes and flags as one mark can -/
theorem built_proof_reveals_frontier_five :
    ∃ (leaves : Array Hash) (marked : Array Bool) (t : PartialTree),
      leaves.size = 5 ∧ marked = #[false, true, false, false, false] ∧
        PartialTree.build (fun x _ => x) leaves marked = .ok t ∧
          RevealsFrontier (fun x _ => x) leaves marked t ∧
            frontierBelow 5 marked 3 0 = [(0, 0), (0, 1), (1, 1), (2, 1)] ∧
              treeHeight 5 = 3 ∧ t.hashes.length = 1 * (3 + 1) ∧
                t.flags.length = 1 * (2 * 3 + 1) := by
  let leaves : Array Hash := #[.fill 1, .fill 2, .fill 3, .fill 4, .fill 5]
  let marked : Array Bool := #[false, true, false, false, false]
  let built : PartialTree :=
    ⟨5, [true, true, true, false, true, false, false], [.fill 1, .fill 2, .fill 3, .fill 5]⟩
  have hbuild : PartialTree.build (fun x _ => x) leaves marked = .ok built := by decide +kernel
  have hfrontier : frontierBelow 5 marked 3 0 = [(0, 0), (0, 1), (1, 1), (2, 1)] := by
    decide +kernel
  have hheight : treeHeight 5 = 3 := by decide +kernel
  obtain ⟨t, ht, hreveals⟩ :=
    (built_proof_reveals_frontier (fun x _ => x) leaves marked (by decide) rfl).1 (by decide)
  obtain rfl : t = built := Except.ok.inj (ht.symm.trans hbuild)
  exact ⟨leaves, marked, built, rfl, rfl, hbuild, hreveals, hfrontier, hheight, rfl, rfl⟩

end BlockProof
