import BlockProof.Proofs.Tree.Agreement

/-!
# What an accepted proof covers

The flags of a proof steer the walk, and its positions come from doubling, yet no proof that is
accepted leads the walk astray. It visits no node twice, and the nodes at which it stops share the
leaves out: from left to right each leaf stands below exactly one of them. So the leaves that are
shown come in strictly increasing order, and their hashes in the order of the proof's.

* `leavesBelow n v`            the leaves below a node, which its children share out;
* `Walk.stops`, `Pruned.stops` the nodes at which a walk stops and takes a hash;
* `Pruned.leavesBelow_stops`   they cover the leaves below the topmost node, each once;
* `Pruned.positions_sublist`   the leaves that are shown are among these, in their order;
* `Pruned.nodup_nodes`         no node is visited twice;
* `accepted_proof_covers_leaves_once`   the main result;
* `Above v w`                  node `v` is node `w` or stands above it;
* `mem_leavesBelow_iff`        the leaves below a node are the leaves that it stands above;
* `preOrder n h p`             the nodes from `(h, p)` down, each before its children;
* `mem_preOrder_root_iff`, `nodup_preOrder`   from the root down these are all nodes, each once.
-/

namespace BlockProof

/-! ## leaves below a node -/

/-- the leaves of a tree over `n` leaves that stand below node `v`, from left to right -/
def leavesBelow (n : Nat) (v : Nat × Nat) : List Nat :=
  List.range' (v.2 * 2 ^ v.1) (min ((v.2 + 1) * 2 ^ v.1) n - v.2 * 2 ^ v.1)

section
variable {n h p : Nat}

theorem leavesBelow_leaf (hp : p < width n 0) : leavesBelow n (0, p) = [p] := by
  show List.range' (p * 2 ^ 0) (span n 0 p) = [p]
  rw [span_zero hp, Nat.pow_zero, Nat.mul_one]
  rfl

theorem leavesBelow_single (only : hasRightChild n (h + 1) p = false) :
    leavesBelow n (h + 1, p) = leavesBelow n (h, 2 * p) := by
  show List.range' (p * 2 ^ (h + 1)) (span n (h + 1) p) =
    List.range' (2 * p * 2 ^ h) (span n h (2 * p))
  rw [span_single only, mul_two_pow_succ]

theorem leavesBelow_pair (both : hasRightChild n (h + 1) p = true) :
    leavesBelow n (h + 1, p) = leavesBelow n (h, 2 * p) ++ leavesBelow n (h, 2 * p + 1) := by
  show List.range' (p * 2 ^ (h + 1)) (span n (h + 1) p) =
    List.range' (2 * p * 2 ^ h) (span n h (2 * p)) ++
      List.range' ((2 * p + 1) * 2 ^ h) (span n h (2 * p + 1))
  rw [span_pair both, mul_two_pow_succ, right_mul_two_pow, span_left both, List.range'_append_1]

theorem leavesBelow_ne_nil (hp : p < width n h) : leavesBelow n (h, p) ≠ [] := by
  rw [Ne, leavesBelow, List.range'_eq_nil_iff]
  exact (span_pos hp).ne'

theorem leavesBelow_root (hn : 0 < n) : leavesBelow n (treeHeight n, 0) = List.range n := by
  show List.range' (0 * 2 ^ treeHeight n) (span n (treeHeight n) 0) = List.range n
  rw [span_root hn, Nat.zero_mul, List.range_eq_range']

end

/-! ## the nodes at which a walk stops -/

/-- the nodes at which the walk from node `(h, p)` goes no further down, from left to right -/
def Walk.stops (combine : Combiner) (n : Nat) : Nat → Nat → Walk → List (Nat × Nat)
  | 0, p, _ => [(0, p)]
  | h + 1, p, s =>
    match s.flags with
    | true :: rest =>
      let s := { s with flags := rest }
      stops combine n h (2 * p) s ++
        if hasRightChild n (h + 1) p then
          stops combine n h (2 * p + 1) (run combine n h (2 * p) s).2
        else []
    | _ => [(h + 1, p)]

def Visit.node (v : Visit) : Nat × Nat := (v.height, v.position)

namespace Pruned

variable {n : Nat}

def stops : {h p : Nat} → Pruned n h p → List (Nat × Nat)
  | h + 1, p, hidden _ => [(h + 1, p)]
  | _, p, leaf _ _ => [(0, p)]
  | _, _, single _ left => left.stops
  | _, _, pair _ left right => left.stops ++ right.stops

end Pruned

theorem Walk.stops_pruned (combine : Combiner) {n h p : Nat} (P : Pruned n h p) (fs : List Bool)
    (xs : List Hash) (found : List MatchedLeaf) (failure : Option ProofError) :
    stops combine n h p ⟨P.flags ++ fs, P.hashes ++ xs, found, failure⟩ = P.stops := by
  induction P generalizing fs xs found failure with
  | hidden x => rfl
  | leaf flag x => rfl
  | single only left ih =>
    simp only [Pruned.flags, Pruned.hashes, List.cons_append, stops, only, ih, Pruned.stops,
      Bool.false_eq_true, if_false, List.append_nil]
  | pair both left right ihl ihr =>
    simp only [Pruned.flags, Pruned.hashes, List.cons_append, List.append_assoc, stops, both,
      run_pruned, ihl, ihr, Pruned.stops, if_true]

namespace Pruned

variable {n h p : Nat}

theorem length_stops (P : Pruned n h p) : P.stops.length = P.hashes.length := by
  induction P with
  | hidden x => rfl
  | leaf flag x => rfl
  | single only left ih => exact ih
  | pair both left right ihl ihr =>
    rw [stops, hashes, List.length_append, List.length_append, ihl, ihr]

/-- the leaves below the topmost node stand below the nodes without children, each below one -/
theorem leavesBelow_stops (P : Pruned n h p) (hp : p < width n h) :
    P.stops.flatMap (leavesBelow n) = leavesBelow n (h, p) := by
  induction P with
  | hidden x => rw [stops, List.flatMap_singleton]
  | leaf flag x => rw [stops, List.flatMap_singleton]
  | single only left ih => rw [stops, ih (left_lt_width hp), leavesBelow_single only]
  | pair both left right ihl ihr =>
    rw [stops, List.flatMap_append, ihl (left_lt_width hp), ihr (right_lt_width both),
      leavesBelow_pair both]

theorem leavesBelow_ne_nil_of_mem_stops (P : Pruned n h p) (hp : p < width n h) {v : Nat × Nat}
    (hv : v ∈ P.stops) : leavesBelow n v ≠ [] := by
  induction P with
  | hidden x =>
    rw [List.mem_singleton.mp hv]
    exact leavesBelow_ne_nil hp
  | leaf flag x =>
    rw [List.mem_singleton.mp hv]
    exact leavesBelow_ne_nil hp
  | single only left ih => exact ih (left_lt_width hp) hv
  | pair both left right ihl ihr =>
    rcases List.mem_append.mp hv with hv | hv
    · exact ihl (left_lt_width hp) hv
    · exact ihr (right_lt_width both) hv

/-! ## the leaves that are shown -/

theorem positions_sublist (hsize : n ≤ UInt32.size) (P : Pruned n h p) (hp : p < width n h) :
    (P.matched.map fun leaf => leaf.position.toNat).Sublist (leavesBelow n (h, p)) := by
  induction P with
  | hidden x => exact List.nil_sublist _
  | @leaf p flag x =>
    have hlt : p < UInt32.size := ((lt_width_zero n p).mp hp).trans_le hsize
    rw [leavesBelow_leaf hp]
    cases flag with
    | false => exact List.nil_sublist _
    | true =>
      have hposition : [(UInt32.ofNat p).toNat] = [p] := by rw [UInt32.toNat_ofNat_of_lt' hlt]
      exact hposition ▸ List.Sublist.refl _
  | single only left ih =>
    rw [leavesBelow_single only]
    exact ih (left_lt_width hp)
  | pair both left right ihl ihr =>
    rw [leavesBelow_pair both, matched, List.map_append]
    exact (ihl (left_lt_width hp)).append (ihr (right_lt_width both))

theorem hashes_sublist (P : Pruned n h p) :
    (P.matched.map fun leaf => leaf.hash).Sublist P.hashes := by
  induction P with
  | hidden x => exact List.nil_sublist _
  | leaf flag x =>
    cases flag with
    | false => exact List.nil_sublist _
    | true => exact List.Sublist.refl _
  | single only left ih => exact ih
  | pair both left right ihl ihr =>
    rw [matched, hashes, List.map_append]
    exact ihl.append ihr

/-! ## the nodes that are visited -/

section
variable (combine : Combiner)

theorem stops_sublist (P : Pruned n h p) :
    P.stops.Sublist ((P.visits combine).map Visit.node) := by
  induction P with
  | hidden x => exact List.Sublist.refl _
  | leaf flag x => exact List.Sublist.refl _
  | single only left ih =>
    rw [visits, List.map_append]
    exact List.sublist_append_of_sublist_left ih
  | pair both left right ihl ihr =>
    rw [visits, List.map_append, List.map_append]
    exact List.sublist_append_of_sublist_left (ihl.append ihr)

theorem below_of_mem_nodes (P : Pruned n h p) {v : Nat × Nat}
    (hv : v ∈ (P.visits combine).map Visit.node) : v.1 ≤ h ∧ v.2 / 2 ^ (h - v.1) = p := by
  obtain ⟨w, hw, rfl⟩ := List.mem_map.mp hv
  exact P.below_of_mem_visits hw

theorem nodup_nodes (P : Pruned n h p) : ((P.visits combine).map Visit.node).Nodup := by
  have htop {h p : Nat} {vs : List (Nat × Nat)} (hvs : vs.Nodup) (hlow : ∀ v ∈ vs, v.1 ≤ h) :
      (vs ++ [(h + 1, p)]).Nodup := by
    refine List.nodup_append.mpr ⟨hvs, List.pairwise_singleton _ _, ?_⟩
    intro v hv w hw heq
    have hle := hlow v hv
    rw [heq, List.mem_singleton.mp hw] at hle
    exact Nat.not_succ_le_self h hle
  induction P with
  | hidden x => exact List.pairwise_singleton _ _
  | leaf flag x => exact List.pairwise_singleton _ _
  | single only left ih =>
    rw [visits, List.map_append]
    exact htop ih fun v hv => (left.below_of_mem_nodes combine hv).1
  | @pair h p both left right ihl ihr =>
    rw [visits, List.map_append, List.map_append]
    refine htop (List.nodup_append.mpr ⟨ihl, ihr, ?_⟩) ?_
    · intro v hv w hw heq
      have hleft := (left.below_of_mem_nodes combine hv).2
      have hright := (right.below_of_mem_nodes combine hw).2
      rw [heq, hright] at hleft
      omega
    · intro v hv
      rcases List.mem_append.mp hv with hv | hv
      · exact (left.below_of_mem_nodes combine hv).1
      · exact (right.below_of_mem_nodes combine hv).1

end

end Pruned

/-! ## proofs that are read -/

namespace PartialTree

def stops (combine : Combiner) (t : PartialTree) : List (Nat × Nat) :=
  Walk.stops combine t.leafCount.toNat (treeHeight t.leafCount.toNat) 0 ⟨t.flags, t.hashes, [], none⟩

theorem stops_of_carries (combine : Combiner) {t : PartialTree} {n : Nat}
    {P : Pruned n (treeHeight n) 0} (hP : t.Carries P) : t.stops combine = P.stops := by
  obtain ⟨fs, hf, hx⟩ := hP.lists
  rw [stops, hP.count, hf, hx, Walk.stops_pruned]

end PartialTree

/-- **An accepted proof covers each leaf once.** The leaves that it shows have strictly increasing
positions, all below the count of leaves, and their hashes are some of the proof's, in order. The
walk visits no node twice. It stops at as many nodes as the proof has hashes; some leaf stands below
each of these, and from left to right they cover all leaves, each of them once. -/
theorem accepted_proof_covers_leaves_once (combine : Combiner) (max : UInt32) (t : PartialTree)
    (r : MatchResult) (hr : t.extract combine max = .ok r) :
    ((r.leaves.map fun leaf => leaf.position).Pairwise (· < ·) ∧
      (∀ leaf ∈ r.leaves, leaf.position < t.leafCount) ∧
        (r.leaves.map fun leaf => leaf.hash).Sublist t.hashes) ∧
    ((t.visits combine).map Visit.node).Nodup ∧
    (t.stops combine).Sublist ((t.visits combine).map Visit.node) ∧
    (t.stops combine).length = t.hashes.length ∧
    (∀ v ∈ t.stops combine, leavesBelow t.leafCount.toNat v ≠ []) ∧
    (t.stops combine).flatMap (leavesBelow t.leafCount.toNat) = List.range t.leafCount.toNat := by
  obtain ⟨hcount, -, P, hP, -, rfl⟩ := (PartialTree.extract_ok_iff_pruned combine max t r).mp hr
  have hn : 0 < t.leafCount.toNat := hP.leaves_pos hcount
  have hroot := root_lt_width hn
  have hsub := P.positions_sublist t.leafCount.toNat_lt.le hroot
  rw [leavesBelow_root hn] at hsub
  rw [PartialTree.stops_of_carries combine hP, PartialTree.visits_of_carries hP, ← hP.hashes,
    P.leavesBelow_stops hroot, leavesBelow_root hn]
  refine ⟨⟨?_, ?_, P.hashes_sublist⟩, P.nodup_nodes combine, P.stops_sublist combine, P.length_stops,
    fun v => P.leavesBelow_ne_nil_of_mem_stops hroot, rfl⟩
  · have hlt := List.pairwise_lt_range.sublist hsub
    rw [List.pairwise_map] at hlt ⊢
    exact hlt.imp UInt32.lt_iff_toNat_lt.mpr
  · intro leaf hleaf
    have hmem := hsub.mem (List.mem_map.mpr ⟨leaf, hleaf, rfl⟩)
    exact UInt32.lt_iff_toNat_lt.mpr (List.mem_range.mp hmem)

/-- a proof over five leaves that shows the second and the last of them stops at four nodes -/
theorem accepted_proof_covers_leaves_once_ragged :
    ∃ (t : PartialTree) (r : MatchResult), t.leafCount = 5 ∧
      t.extract (fun x _ => x) 5 = .ok r ∧ r.leaves.map (fun leaf => leaf.position) = [1, 4] ∧
        t.stops (fun x _ => x) = [(0, 0), (0, 1), (1, 1), (0, 4)] ∧
          ((t.visits fun x _ => x).map Visit.node).Nodup ∧
            (t.stops fun x _ => x).flatMap (leavesBelow 5) = [0, 1, 2, 3, 4] := by
  let t : PartialTree := ⟨5, [true, true, true, false, true, false, true, true, true],
    [.fill 1, .fill 2, .fill 3, .fill 4]⟩
  have hr : t.extract (fun x _ => x) 5 = .ok ⟨.fill 1, [⟨1, .fill 2⟩, ⟨4, .fill 4⟩]⟩ := by
    decide +kernel
  have hstops : t.stops (fun x _ => x) = [(0, 0), (0, 1), (1, 1), (0, 4)] := by decide +kernel
  obtain ⟨-, hvisits, -, -, -, hcover⟩ :=
    accepted_proof_covers_leaves_once (fun x _ => x) 5 t _ hr
  exact ⟨t, _, rfl, hr, rfl, hstops, hvisits, hcover⟩

/-! ## nodes above nodes -/

/-- node `v` is node `w` or stands above it -/
def Above (v w : Nat × Nat) : Prop := w.1 ≤ v.1 ∧ w.2 / 2 ^ (v.1 - w.1) = v.2

section
variable {u v w : Nat × Nat}

theorem Above.refl (v : Nat × Nat) : Above v v := by
  refine ⟨Nat.le_refl _, ?_⟩
  rw [Nat.sub_self, Nat.pow_zero, Nat.div_one]

theorem Above.trans (h : Above u v) (h' : Above v w) : Above u w := by
  obtain ⟨hle, hdiv⟩ := h
  obtain ⟨hle', hdiv'⟩ := h'
  refine ⟨hle'.trans hle, ?_⟩
  have hsplit : u.1 - w.1 = (v.1 - w.1) + (u.1 - v.1) := by omega
  rw [hsplit, Nat.pow_add, ← Nat.div_div_eq_div_mul, hdiv', hdiv]

theorem Above.parent (h : Above v w) (hlow : w.1 < v.1) : Above v (w.1 + 1, w.2 / 2) := by
  refine ⟨hlow, ?_⟩
  have hsplit : (v.1 - (w.1 + 1)).succ = v.1 - w.1 := by omega
  show w.2 / 2 / 2 ^ (v.1 - (w.1 + 1)) = v.2
  rw [Nat.div_div_eq_div_mul, ← Nat.pow_succ', hsplit]
  exact h.2

theorem Above.eq_of_height (h : Above v w) (hheight : w.1 = v.1) : v = w := by
  obtain ⟨-, hdiv⟩ := h
  rw [hheight, Nat.sub_self, Nat.pow_zero, Nat.div_one] at hdiv
  exact Prod.ext hheight.symm hdiv.symm

theorem above_left (h p : Nat) : Above (h + 1, p) (h, 2 * p) := by
  refine ⟨Nat.le_succ h, ?_⟩
  show 2 * p / 2 ^ (h + 1 - h) = p
  rw [Nat.add_sub_cancel_left, Nat.pow_one, Nat.mul_div_cancel_left p Nat.two_pos]

theorem above_right (h p : Nat) : Above (h + 1, p) (h, 2 * p + 1) := by
  refine ⟨Nat.le_succ h, ?_⟩
  show (2 * p + 1) / 2 ^ (h + 1 - h) = p
  rw [Nat.add_sub_cancel_left, Nat.pow_one]
  omega

theorem mem_leavesBelow_iff {n i : Nat} : i ∈ leavesBelow n v ↔ i < n ∧ Above v (0, i) := by
  have hpos : 0 < 2 ^ v.1 := Nat.two_pow_pos v.1
  have hdiv : i / 2 ^ v.1 = v.2 ↔ v.2 * 2 ^ v.1 ≤ i ∧ i < (v.2 + 1) * 2 ^ v.1 := by
    rw [← Nat.le_div_iff_mul_le hpos, ← Nat.div_lt_iff_lt_mul hpos]
    omega
  rw [leavesBelow, List.mem_range'_1, Above, Nat.sub_zero, hdiv]
  omega

end

/-! ## the nodes of a tree, parents first -/

/-- the nodes from node `(h, p)` down: the node itself, those on the left, those on the right -/
def preOrder (n : Nat) : Nat → Nat → List (Nat × Nat)
  | 0, p => [(0, p)]
  | h + 1, p =>
    (h + 1, p) :: (preOrder n h (2 * p) ++
      if hasRightChild n (h + 1) p then preOrder n h (2 * p + 1) else [])

section
variable {n h p : Nat}

theorem preOrder_single (only : hasRightChild n (h + 1) p = false) :
    preOrder n (h + 1) p = (h + 1, p) :: preOrder n h (2 * p) := by
  rw [preOrder, only, if_neg Bool.false_ne_true, List.append_nil]

theorem preOrder_pair (both : hasRightChild n (h + 1) p = true) :
    preOrder n (h + 1) p = (h + 1, p) :: (preOrder n h (2 * p) ++ preOrder n h (2 * p + 1)) := by
  rw [preOrder, if_pos both]

theorem preOrder_perm_postOrder (n h p : Nat) : (preOrder n h p).Perm (postOrder n h p) := by
  induction h generalizing p with
  | zero => exact .refl _
  | succ h ih =>
    refine .trans (.cons _ ?_) (List.perm_append_singleton _ _).symm
    refine (ih (2 * p)).append ?_
    split
    · exact ih (2 * p + 1)
    · exact .refl _

theorem mem_preOrder_root_iff (hn : 0 < n) {v : Nat × Nat} :
    v ∈ preOrder n (treeHeight n) 0 ↔ IsNode n v.1 v.2 := by
  rw [(preOrder_perm_postOrder n _ 0).mem_iff]
  exact mem_postOrder_root_iff hn

theorem above_of_mem_preOrder {v : Nat × Nat} (hv : v ∈ preOrder n h p) : Above (h, p) v := by
  induction h generalizing p with
  | zero =>
    rw [List.mem_singleton.mp hv]
    exact .refl _
  | succ h ih =>
    rcases List.mem_cons.mp hv with rfl | hv
    · exact .refl _
    · rcases List.mem_append.mp hv with hv | hv
      · exact (above_left h p).trans (ih hv)
      · split at hv
        · exact (above_right h p).trans (ih hv)
        · cases hv

theorem preOrder_eq_cons (n h p : Nat) : ∃ rest, preOrder n (h + 1) p = (h + 1, p) :: rest ∧
    ∀ v ∈ rest, v.1 ≤ h ∧ Above (h + 1, p) v := by
  refine ⟨_, rfl, ?_⟩
  intro v hv
  refine ⟨?_, above_of_mem_preOrder (n := n) (List.mem_cons_of_mem _ hv)⟩
  rcases List.mem_append.mp hv with hv | hv
  · exact (above_of_mem_preOrder hv).1
  · split at hv
    · exact (above_of_mem_preOrder hv).1
    · cases hv

theorem nodup_preOrder (n h p : Nat) : (preOrder n h p).Nodup := by
  induction h generalizing p with
  | zero => exact List.pairwise_singleton _ _
  | succ h ih =>
    obtain ⟨rest, hrest, hlow⟩ := preOrder_eq_cons n h p
    have htop : (h + 1, p) ∉ rest := fun hv => Nat.not_succ_le_self h (hlow _ hv).1
    have htail : (preOrder n (h + 1) p).tail = rest := by rw [hrest, List.tail_cons]
    rw [hrest, List.nodup_cons]
    refine ⟨htop, ?_⟩
    rw [← htail]
    cases hb : hasRightChild n (h + 1) p with
    | false =>
      rw [preOrder_single hb]
      exact ih (2 * p)
    | true =>
      rw [preOrder_pair hb]
      refine List.nodup_append.mpr ⟨ih (2 * p), ih (2 * p + 1), ?_⟩
      intro v hv w hw heq
      have hleft := (above_of_mem_preOrder hv).2
      have hright := (above_of_mem_preOrder hw).2
      rw [heq, hright] at hleft
      omega

end

end BlockProof
