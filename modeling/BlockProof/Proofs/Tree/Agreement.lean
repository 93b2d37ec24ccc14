import BlockProof.Proofs.Tree.Soundness

/-!
# Two accepted proofs of one root agree

Two proofs may be cut off below different nodes, and may even claim different counts of leaves. If
they are accepted, have one height and lead to one root, then each node that both walks visit has
one hash in both, or else there is a node that both walks open at which two different pairs of child
hashes become one hash. The two trees are compared from the root down: where the pairs of child
hashes are equal, both nodes have as many children, as a single child counts twice and two equal
children would be twins.

* `Visit`, `Walk.visits`, `Pruned.visits`   the nodes that a walk visits, and their hashes;
* `Pruned.Agrees`            the nodes of two pruned trees have the same hashes;
* `Join.CollidesWith`        two pairs of child hashes of one node that become one hash;
* `Pruned.agrees_or_collides`   the induction over both trees;
* `Pruned.eq_of_flags`       trees that agree and have the same flags are equal;
* `accepted_proofs_agree`    the main result.
-/

namespace BlockProof

/-- a node that a walk visits, and the hash that the walk yields for it -/
structure Visit where
  height : Nat
  position : Nat
  hash : Hash
deriving DecidableEq

/-! ## the nodes visited -/

/-- the nodes that the walk from node `(h, p)` visits, each after its children -/
def Walk.visits (combine : Combiner) (n : Nat) : Nat → Nat → Walk → List Visit
  | 0, p, s => [⟨0, p, (run combine n 0 p s).1⟩]
  | h + 1, p, s =>
    (match s.flags with
      | true :: rest =>
        let s := { s with flags := rest }
        visits combine n h (2 * p) s ++
          if hasRightChild n (h + 1) p then
            visits combine n h (2 * p + 1) (run combine n h (2 * p) s).2
          else []
      | _ => []) ++ [⟨h + 1, p, (run combine n (h + 1) p s).1⟩]

namespace Pruned

variable {combine : Combiner} {n : Nat}

/-- the nodes of the tree, each after its children -/
def visits (combine : Combiner) : {h p : Nat} → Pruned n h p → List Visit
  | h + 1, p, hidden x => [⟨h + 1, p, x⟩]
  | _, p, leaf _ x => [⟨0, p, x⟩]
  | h + 1, p, single only left =>
    left.visits combine ++ [⟨h + 1, p, (single only left).root combine⟩]
  | h + 1, p, pair both left right =>
    left.visits combine ++ right.visits combine ++ [⟨h + 1, p, (pair both left right).root combine⟩]

end Pruned

theorem Walk.visits_pruned (combine : Combiner) {n h p : Nat} (P : Pruned n h p) (fs : List Bool)
    (xs : List Hash) (found : List MatchedLeaf) (failure : Option ProofError) :
    visits combine n h p ⟨P.flags ++ fs, P.hashes ++ xs, found, failure⟩ = P.visits combine := by
  induction P generalizing fs xs found failure with
  | hidden x => rfl
  | leaf flag x => rfl
  | single only left ih =>
    have hrun := run_pruned combine n (.single only left) fs xs found failure
    simp only [Pruned.flags, Pruned.hashes, List.cons_append] at hrun ⊢
    simp only [visits, only, hrun, ih, Pruned.visits, Bool.false_eq_true, if_false, List.append_nil]
  | pair both left right ihl ihr =>
    have hrun := run_pruned combine n (.pair both left right) fs xs found failure
    simp only [Pruned.flags, Pruned.hashes, List.cons_append, List.append_assoc] at hrun ⊢
    simp only [visits, both, hrun, run_pruned, ihl, ihr, Pruned.visits, if_true]

/-! ## where the nodes stand -/

theorem div_two_pow_of_child {h k p q : Nat} (hk : k ≤ h) (hq : q / 2 ^ (h - k) = p) :
    q / 2 ^ (h + 1 - k) = p / 2 := by
  rw [Nat.succ_sub hk, Nat.pow_succ, ← Nat.div_div_eq_div_mul, hq]

namespace Pruned

variable {combine : Combiner} {n m : Nat}

theorem below_of_mem_visits {h p : Nat} (P : Pruned n h p) {v : Visit}
    (hv : v ∈ P.visits combine) : v.height ≤ h ∧ v.position / 2 ^ (h - v.height) = p := by
  have htop {k q : Nat} {x : Hash} (hv : v ∈ [(⟨k, q, x⟩ : Visit)]) :
      v.height ≤ k ∧ v.position / 2 ^ (k - v.height) = q := by
    rw [List.mem_singleton.mp hv]
    simp
  have hchild {k q : Nat} (hlow : v.height ≤ k ∧ v.position / 2 ^ (k - v.height) = q) :
      v.height ≤ k + 1 ∧ v.position / 2 ^ (k + 1 - v.height) = q / 2 :=
    ⟨Nat.le_succ_of_le hlow.1, div_two_pow_of_child hlow.1 hlow.2⟩
  induction P with
  | hidden x => exact htop hv
  | leaf flag x => exact htop hv
  | @single h p only left ih =>
    rcases List.mem_append.mp hv with hv | hv
    · have hlow := hchild (ih hv)
      rw [Nat.mul_div_cancel_left p Nat.two_pos] at hlow
      exact hlow
    · exact htop hv
  | @pair h p both left right ihl ihr =>
    rcases List.mem_append.mp hv with hv | hv
    · rcases List.mem_append.mp hv with hv | hv
      · have hlow := hchild (ihl hv)
        rw [Nat.mul_div_cancel_left p Nat.two_pos] at hlow
        exact hlow
      · have hlow := hchild (ihr hv)
        rw [Nat.mul_add_div Nat.two_pos] at hlow
        exact hlow
    · exact htop hv

section
variable {h p : Nat} {v w : Visit}

theorem mem_of_mem_single {only : hasRightChild n (h + 1) p = false} {left : Pruned n h (2 * p)}
    (hv : v ∈ (single only left).visits combine) (hlow : v.height < h + 1) :
    v ∈ left.visits combine := by
  refine (List.mem_append.mp hv).resolve_right ?_
  intro htop
  rw [List.mem_singleton.mp htop] at hlow
  exact Nat.lt_irrefl _ hlow

theorem mem_of_mem_pair {both : hasRightChild n (h + 1) p = true} {left : Pruned n h (2 * p)}
    {right : Pruned n h (2 * p + 1)} (hv : v ∈ (pair both left right).visits combine)
    (hlow : v.height < h + 1) : v ∈ left.visits combine ∨ v ∈ right.visits combine := by
  refine List.mem_append.mp ((List.mem_append.mp hv).resolve_right ?_)
  intro htop
  rw [List.mem_singleton.mp htop] at hlow
  exact Nat.lt_irrefl _ hlow

theorem root_mem_visits (P : Pruned n h p) :
    (⟨h, p, P.root combine⟩ : Visit) ∈ P.visits combine := by
  cases P with
  | hidden x => exact List.mem_singleton_self _
  | leaf flag x => exact List.mem_singleton_self _
  | single only left => exact List.mem_append_right _ (List.mem_singleton_self _)
  | pair both left right => exact List.mem_append_right _ (List.mem_singleton_self _)

theorem hash_of_top (P : Pruned n h p) (hv : v ∈ P.visits combine) (htop : h ≤ v.height) :
    v.hash = P.root combine := by
  cases P with
  | hidden x => rw [List.mem_singleton.mp hv, root]
  | leaf flag x => rw [List.mem_singleton.mp hv, root]
  | single only left =>
    rcases List.mem_append.mp hv with hv | hv
    · exact absurd (left.below_of_mem_visits hv).1 (Nat.not_le_of_lt htop)
    · rw [List.mem_singleton.mp hv]
  | pair both left right =>
    rcases List.mem_append.mp hv with hv | hv
    · rcases List.mem_append.mp hv with hv | hv
      · exact absurd (left.below_of_mem_visits hv).1 (Nat.not_le_of_lt htop)
      · exact absurd (right.below_of_mem_visits hv).1 (Nat.not_le_of_lt htop)
    · rw [List.mem_singleton.mp hv]

end

end Pruned

/-! ## two trees with one root -/

/-- two pairs of child hashes of one node that differ and become the same hash -/
structure Join.CollidesWith (combine : Combiner) (i j : Join) : Prop where
  height : i.height = j.height
  position : i.position = j.position
  differ : (i.left, i.right) ≠ (j.left, j.right)
  agree : combine i.left i.right = combine j.left j.right

instance (combine : Combiner) (i j : Join) : Decidable (i.CollidesWith combine j) :=
  decidable_of_iff (i.height = j.height ∧ i.position = j.position ∧
      (i.left, i.right) ≠ (j.left, j.right) ∧
        combine i.left i.right = combine j.left j.right)
    ⟨fun h => ⟨h.1, h.2.1, h.2.2.1, h.2.2.2⟩, fun h => ⟨h.height, h.position, h.differ, h.agree⟩⟩

namespace Pruned

variable {combine : Combiner} {n m : Nat}

/-- the nodes that both trees have carry the same hashes in both -/
def Agrees (combine : Combiner) {h k p : Nat} (P : Pruned n h p) (Q : Pruned m k p) : Prop :=
  ∀ v ∈ P.visits combine, ∀ w ∈ Q.visits combine,
    v.height = w.height → v.position = w.position → v.hash = w.hash

/-- some node of both trees has two pairs of child hashes that become one hash -/
def Collides (combine : Combiner) {h k p : Nat} (P : Pruned n h p) (Q : Pruned m k p) : Prop :=
  ∃ i ∈ P.joins combine, ∃ j ∈ Q.joins combine, i.CollidesWith combine j

section
variable {h p : Nat}

theorem agrees_of_below {P : Pruned n h p} {Q : Pruned m h p}
    (hroot : P.root combine = Q.root combine)
    (hbelow : ∀ v ∈ P.visits combine, ∀ w ∈ Q.visits combine, v.height < h →
      v.height = w.height → v.position = w.position → v.hash = w.hash) : P.Agrees combine Q := by
  intro v hv w hw hheight hposition
  by_cases hlow : v.height < h
  · exact hbelow v hv w hw hlow hheight hposition
  · have htop : h ≤ v.height := Nat.not_lt.mp hlow
    rw [P.hash_of_top hv htop, Q.hash_of_top hw (hheight ▸ htop), hroot]

section
variable {only : hasRightChild n (h + 1) p = false} {only' : hasRightChild m (h + 1) p = false}
  {left : Pruned n h (2 * p)} {left' : Pruned m h (2 * p)}

theorem agrees_single (hroot : (single only left).root combine = (single only' left').root combine)
    (hl : left.Agrees combine left') :
    (single only left).Agrees combine (single only' left') := by
  refine agrees_of_below hroot ?_
  intro v hv w hw hlow hheight hposition
  exact hl v (mem_of_mem_single hv hlow) w (mem_of_mem_single hw (hheight ▸ hlow)) hheight hposition

theorem Agrees.of_single (hall : (single only left).Agrees combine (single only' left')) :
    left.Agrees combine left' := fun v hv w hw =>
  hall v (List.mem_append_left _ hv) w (List.mem_append_left _ hw)

end

section
variable {both : hasRightChild n (h + 1) p = true} {both' : hasRightChild m (h + 1) p = true}
  {left : Pruned n h (2 * p)} {left' : Pruned m h (2 * p)} {right : Pruned n h (2 * p + 1)}
  {right' : Pruned m h (2 * p + 1)}

theorem agrees_pair
    (hroot : (pair both left right).root combine = (pair both' left' right').root combine)
    (hl : left.Agrees combine left') (hr : right.Agrees combine right') :
    (pair both left right).Agrees combine (pair both' left' right') := by
  refine agrees_of_below hroot ?_
  intro v hv w hw hlow hheight hposition
  have hside {c d : Nat} (hc : v.height ≤ h ∧ v.position / 2 ^ (h - v.height) = c)
      (hd : w.height ≤ h ∧ w.position / 2 ^ (h - w.height) = d) : c = d := by
    rw [← hc.2, ← hd.2, hheight, hposition]
  rcases mem_of_mem_pair hv hlow with hv | hv <;>
    rcases mem_of_mem_pair hw (hheight ▸ hlow) with hw | hw
  · exact hl v hv w hw hheight hposition
  · have heq := hside (left.below_of_mem_visits hv) (right'.below_of_mem_visits hw)
    omega
  · have heq := hside (right.below_of_mem_visits hv) (left'.below_of_mem_visits hw)
    omega
  · exact hr v hv w hw hheight hposition

theorem Agrees.of_pair
    (hall : (pair both left right).Agrees combine (pair both' left' right')) :
    left.Agrees combine left' ∧ right.Agrees combine right' := by
  refine ⟨fun v hv w hw => ?_, fun v hv w hw => ?_⟩
  · exact hall v (List.mem_append_left _ (List.mem_append_left _ hv)) w
      (List.mem_append_left _ (List.mem_append_left _ hw))
  · exact hall v (List.mem_append_left _ (List.mem_append_right _ hv)) w
      (List.mem_append_left _ (List.mem_append_right _ hw))

end

theorem agrees_hidden_left {x : Hash} {Q : Pruned m (h + 1) p}
    (hroot : x = Q.root combine) : (hidden x : Pruned n (h + 1) p).Agrees combine Q := by
  refine agrees_of_below hroot ?_
  intro v hv _ _ hlow
  rw [List.mem_singleton.mp hv] at hlow
  exact absurd hlow (Nat.lt_irrefl _)

theorem agrees_hidden_right {y : Hash} {P : Pruned n (h + 1) p}
    (hroot : P.root combine = y) : P.Agrees combine (hidden y : Pruned m (h + 1) p) := by
  refine agrees_of_below hroot ?_
  intro v _ w hw hlow hheight
  rw [hheight, List.mem_singleton.mp hw] at hlow
  exact absurd hlow (Nat.lt_irrefl _)

/-- two pairs of child hashes of one node that become one hash are equal, or else they collide -/
theorem eq_or_collides {P : Pruned n (h + 1) p} {Q : Pruned m (h + 1) p} {x y x' y' : Hash}
    (hi : ⟨h + 1, p, x, y⟩ ∈ P.joins combine) (hj : ⟨h + 1, p, x', y'⟩ ∈ Q.joins combine)
    (hagree : combine x y = combine x' y') : (x = x' ∧ y = y') ∨ P.Collides combine Q := by
  by_cases heq : (x, y) = (x', y')
  · exact .inl (Prod.mk.inj heq)
  · exact .inr ⟨_, hi, _, hj, rfl, rfl, heq, hagree⟩

/-- two trees without twins and with one root agree, or else they collide -/
theorem agrees_or_collides (P : Pruned n h p) (Q : Pruned m h p) (hP : P.twins combine = [])
    (hQ : Q.twins combine = []) (hroot : P.root combine = Q.root combine) :
    P.Agrees combine Q ∨ P.Collides combine Q := by
  have hlast {js : List Join} {j : Join} : j ∈ js ++ [j] :=
    List.mem_append_right js (List.mem_singleton_self j)
  induction P with
  | hidden x => exact .inl (agrees_hidden_left hroot)
  | leaf flag x =>
    refine .inl (agrees_of_below hroot ?_)
    intro v _ w _ hlow
    exact absurd hlow (Nat.not_lt_zero _)
  | @single h p only left ih =>
    cases Q with
    | hidden y => exact .inl (agrees_hidden_right hroot)
    | single only' left' =>
      rcases eq_or_collides (P := single only left) (Q := single only' left') hlast hlast hroot with
        ⟨hleft, -⟩ | hc
      · rcases ih left' hP hQ hleft with hall | ⟨i, hi, j, hj, hc⟩
        · exact .inl (agrees_single hroot hall)
        · exact .inr ⟨i, List.mem_append_left _ hi, j, List.mem_append_left _ hj, hc⟩
      · exact .inr hc
    | pair both' left' right' =>
      rcases eq_or_collides (P := single only left) (Q := pair both' left' right') hlast hlast
        hroot with ⟨hleft, hright⟩ | hc
      · exact absurd (hright.symm.trans hleft) (twins_pair_eq_nil_iff.mp hQ).2.2
      · exact .inr hc
  | @pair h p both left right ihl ihr =>
    obtain ⟨hPl, hPr, hne⟩ := twins_pair_eq_nil_iff.mp hP
    cases Q with
    | hidden y => exact .inl (agrees_hidden_right hroot)
    | single only' left' =>
      rcases eq_or_collides (P := pair both left right) (Q := single only' left') hlast hlast
        hroot with ⟨hleft, hright⟩ | hc
      · exact absurd (hright.trans hleft.symm) hne
      · exact .inr hc
    | pair both' left' right' =>
      obtain ⟨hQl, hQr, -⟩ := twins_pair_eq_nil_iff.mp hQ
      rcases eq_or_collides (P := pair both left right) (Q := pair both' left' right') hlast hlast
        hroot with ⟨hleft, hright⟩ | hc
      · rcases ihl left' hPl hQl hleft with hall | ⟨i, hi, j, hj, hc⟩
        · rcases ihr right' hPr hQr hright with hall' | ⟨i, hi, j, hj, hc⟩
          · exact .inl (agrees_pair hroot hall hall')
          · exact .inr ⟨i, List.mem_append_left _ (List.mem_append_right _ hi), j,
              List.mem_append_left _ (List.mem_append_right _ hj), hc⟩
        · exact .inr ⟨i, List.mem_append_left _ (List.mem_append_left _ hi), j,
            List.mem_append_left _ (List.mem_append_left _ hj), hc⟩
      · exact .inr hc

end

/-! ## flags tell where the hashes belong -/

theorem Agrees.root_eq {h p : Nat} {P : Pruned n h p} {Q : Pruned m h p}
    (hall : P.Agrees combine Q) : P.root combine = Q.root combine :=
  hall _ P.root_mem_visits _ Q.root_mem_visits rfl rfl

theorem eq_of_flags {h p : Nat} (P Q : Pruned n h p) (hall : P.Agrees combine Q) {fs gs : List Bool}
    (hf : P.flags ++ fs = Q.flags ++ gs) : P = Q ∧ fs = gs := by
  induction P generalizing fs gs with
  | hidden x =>
    cases Q with
    | hidden y =>
      obtain rfl : x = y := hall.root_eq
      exact ⟨rfl, List.tail_eq_of_cons_eq hf⟩
    | single only left => exact absurd (List.head_eq_of_cons_eq hf) Bool.false_ne_true
    | pair both left right => exact absurd (List.head_eq_of_cons_eq hf) Bool.false_ne_true
  | leaf flag x =>
    cases Q with
    | leaf flag' y =>
      obtain rfl : x = y := hall.root_eq
      obtain ⟨rfl, hfs⟩ := List.cons.inj hf
      exact ⟨rfl, hfs⟩
  | single only left ih =>
    cases Q with
    | hidden y => exact absurd (List.head_eq_of_cons_eq hf).symm Bool.false_ne_true
    | single only' left' =>
      obtain ⟨rfl, hfs⟩ := ih left' hall.of_single (List.tail_eq_of_cons_eq hf)
      exact ⟨rfl, hfs⟩
    | pair both left' right' => exact absurd (only.symm.trans both) Bool.false_ne_true
  | pair both left right ihl ihr =>
    cases Q with
    | hidden y => exact absurd (List.head_eq_of_cons_eq hf).symm Bool.false_ne_true
    | single only left' => exact absurd (only.symm.trans both) Bool.false_ne_true
    | pair both' left' right' =>
      obtain ⟨hl, hr⟩ := hall.of_pair
      simp only [flags, List.cons_append, List.append_assoc] at hf
      obtain ⟨rfl, hfr⟩ := ihl left' hl (List.tail_eq_of_cons_eq hf)
      obtain ⟨rfl, hfs⟩ := ihr right' hr hfr
      exact ⟨rfl, hfs⟩

theorem mem_visits_of_mem_matched (hsize : n ≤ UInt32.size) {h p : Nat} (P : Pruned n h p)
    (hp : p < width n h) {leaf : MatchedLeaf} (hleaf : leaf ∈ P.matched) :
    (⟨0, leaf.position.toNat, leaf.hash⟩ : Visit) ∈ P.visits combine := by
  induction P with
  | hidden x => cases hleaf
  | @leaf p flag x =>
    have hlt : p < UInt32.size := ((lt_width_zero n p).mp hp).trans_le hsize
    cases flag with
    | false => cases hleaf
    | true =>
      rw [List.mem_singleton.mp hleaf, UInt32.toNat_ofNat_of_lt' hlt]
      exact List.mem_singleton_self _
  | single only left ih => exact List.mem_append_left _ (ih (left_lt_width hp) hleaf)
  | pair both left right ihl ihr =>
    refine List.mem_append_left _ (List.mem_append.mpr ?_)
    rcases List.mem_append.mp hleaf with hleaf | hleaf
    · exact .inl (ihl (left_lt_width hp) hleaf)
    · exact .inr (ihr (right_lt_width both) hleaf)

end Pruned

/-! ## proofs that are read -/

namespace PartialTree

/-- the nodes that reading a proof visits, and their hashes -/
def visits (combine : Combiner) (t : PartialTree) : List Visit :=
  Walk.visits combine t.leafCount.toNat (treeHeight t.leafCount.toNat) 0
    ⟨t.flags, t.hashes, [], none⟩

def flagsUsed (combine : Combiner) (t : PartialTree) : List Bool :=
  t.flags.take (t.flags.length - (t.walk combine).2.flags.length)

variable {combine : Combiner} {t t₁ t₂ : PartialTree}

section
variable {n : Nat} {P : Pruned n (treeHeight n) 0}

theorem visits_of_carries (hP : t.Carries P) : t.visits combine = P.visits combine := by
  obtain ⟨fs, hf, hx⟩ := hP.lists
  rw [visits, hP.count, hf, hx, Walk.visits_pruned]

theorem flagsUsed_of_carries (hP : t.Carries P) : t.flagsUsed combine = P.flags := by
  obtain ⟨fs, hf, hwalk⟩ := walk_of_carries combine hP
  rw [flagsUsed, hwalk, hf, List.length_append, Nat.add_sub_cancel, List.take_left]

end

/-- two accepted proofs say the same about the nodes that both visit -/
structure Agree (combine : Combiner) (t₁ t₂ : PartialTree) (r₁ r₂ : MatchResult) : Prop where
  visits : ∀ v ∈ t₁.visits combine, ∀ w ∈ t₂.visits combine,
    v.height = w.height → v.position = w.position → v.hash = w.hash
  leaves : ∀ a ∈ r₁.leaves, ∀ b ∈ r₂.leaves, a.position = b.position → a.hash = b.hash
  hashes : t₁.leafCount = t₂.leafCount → t₁.flagsUsed combine = t₂.flagsUsed combine →
    t₁.hashes = t₂.hashes

/-- both proofs open some node, with two different pairs of child hashes that become one hash -/
def Collide (combine : Combiner) (t₁ t₂ : PartialTree) : Prop :=
  ∃ i ∈ t₁.joins combine, ∃ j ∈ t₂.joins combine, i.CollidesWith combine j

instance (combine : Combiner) (t₁ t₂ : PartialTree) : Decidable (Collide combine t₁ t₂) :=
  inferInstanceAs (Decidable (∃ i ∈ _, ∃ j ∈ _, _))

section
variable {n m : Nat} {P : Pruned n (treeHeight n) 0} {Q : Pruned m (treeHeight m) 0}

theorem Carries.eq_count (hP : t₁.Carries P) (hQ : t₂.Carries Q)
    (hcount : t₁.leafCount = t₂.leafCount) : n = m := by
  rw [← hP.count, hcount, hQ.count]

theorem mem_visits_of_mem_matched (hP : t.Carries P) (hcount : 1 ≤ t.leafCount) {leaf : MatchedLeaf}
    (hleaf : leaf ∈ P.matched) :
    (⟨0, leaf.position.toNat, leaf.hash⟩ : Visit) ∈ P.visits combine := by
  have hsize : n ≤ UInt32.size := hP.count ▸ t.leafCount.toNat_lt.le
  exact P.mem_visits_of_mem_matched hsize (root_lt_width (hP.leaves_pos hcount)) hleaf

theorem hashes_eq_of_agrees (hP : t₁.Carries P) (hQ : t₂.Carries Q) (hall : P.Agrees combine Q)
    (hcount : t₁.leafCount = t₂.leafCount) {fs gs : List Bool}
    (hf : P.flags ++ fs = Q.flags ++ gs) : t₁.hashes = t₂.hashes := by
  obtain rfl := hP.eq_count hQ hcount
  obtain ⟨rfl, -⟩ := P.eq_of_flags Q hall hf
  rw [← hP.hashes, ← hQ.hashes]

theorem agree_of_agrees (hP : t₁.Carries P) (hQ : t₂.Carries Q) (h₁ : 1 ≤ t₁.leafCount)
    (h₂ : 1 ≤ t₂.leafCount) (hall : P.Agrees combine Q) :
    Agree combine t₁ t₂ ⟨P.root combine, P.matched⟩ ⟨Q.root combine, Q.matched⟩ := by
  refine ⟨?_, ?_, ?_⟩
  · rw [visits_of_carries hP, visits_of_carries hQ]
    exact hall
  · intro a ha b hb hposition
    exact hall _ (mem_visits_of_mem_matched hP h₁ ha) _ (mem_visits_of_mem_matched hQ h₂ hb) rfl
      (congrArg UInt32.toNat hposition)
  · intro hcount hflags
    rw [flagsUsed_of_carries hP, flagsUsed_of_carries hQ] at hflags
    exact hashes_eq_of_agrees hP hQ hall hcount (congrArg (· ++ []) hflags)

theorem agrees_or_collide (hP : t₁.Carries P) (hQ : t₂.Carries Q) (htwinsP : P.twins combine = [])
    (htwinsQ : Q.twins combine = []) (hroot : P.root combine = Q.root combine)
    (hheight : treeHeight n = treeHeight m) : P.Agrees combine Q ∨ Collide combine t₁ t₂ := by
  rw [Collide, joins_of_carries combine hP, joins_of_carries combine hQ]
  clear hP hQ
  revert Q
  rw [← hheight]
  intro Q htwinsQ hroot
  exact P.agrees_or_collides Q htwinsP htwinsQ hroot

end

theorem agree_or_collide {max₁ max₂ : UInt32} {r₁ r₂ : MatchResult}
    (h₁ : t₁.extract combine max₁ = .ok r₁) (h₂ : t₂.extract combine max₂ = .ok r₂)
    (hroot : r₁.root = r₂.root)
    (hheight : treeHeight t₁.leafCount.toNat = treeHeight t₂.leafCount.toNat) :
    Agree combine t₁ t₂ r₁ r₂ ∨ Collide combine t₁ t₂ := by
  obtain ⟨hcount₁, -, P, hP, htwinsP, rfl⟩ := (extract_ok_iff_pruned combine max₁ t₁ r₁).mp h₁
  obtain ⟨hcount₂, -, Q, hQ, htwinsQ, rfl⟩ := (extract_ok_iff_pruned combine max₂ t₂ r₂).mp h₂
  rcases agrees_or_collide hP hQ htwinsP htwinsQ hroot hheight with hall | hc
  · exact .inl (agree_of_agrees hP hQ hcount₁ hcount₂ hall)
  · exact .inr hc

/-- the hashes of an accepted proof follow from its flags and its root, or two proofs collide -/
theorem hashes_eq_or_collide {max₁ max₂ : UInt32} {r₁ r₂ : MatchResult}
    (h₁ : t₁.extract combine max₁ = .ok r₁) (h₂ : t₂.extract combine max₂ = .ok r₂)
    (hroot : r₁.root = r₂.root) (hcount : t₁.leafCount = t₂.leafCount)
    (hflags : t₁.flags = t₂.flags) : t₁.hashes = t₂.hashes ∨ Collide combine t₁ t₂ := by
  obtain ⟨-, -, P, hP, htwinsP, rfl⟩ := (extract_ok_iff_pruned combine max₁ t₁ r₁).mp h₁
  obtain ⟨-, -, Q, hQ, htwinsQ, rfl⟩ := (extract_ok_iff_pruned combine max₂ t₂ r₂).mp h₂
  have hheight := congrArg treeHeight (hP.eq_count hQ hcount)
  obtain ⟨fs, hf⟩ := hP.flags
  obtain ⟨gs, hg⟩ := hQ.flags
  rcases agrees_or_collide hP hQ htwinsP htwinsQ hroot hheight with hall | hc
  · exact .inl (hashes_eq_of_agrees hP hQ hall hcount (hf.trans (hflags.trans hg.symm)))
  · exact .inr hc

end PartialTree

/-- **Two accepted proofs of one root agree** on every node that both visit, if they have one
height, or else they collide. So a proof whose hashes have been tampered with is refused, leads to
another root, or collides with the proof that it was made from. -/
theorem accepted_proofs_agree (combine : Combiner) (max : UInt32) (t : PartialTree)
    (r : MatchResult) (hr : t.extract combine max = .ok r) :
    (∀ (max' : UInt32) (t' : PartialTree) (r' : MatchResult),
      t'.extract combine max' = .ok r' → r.root = r'.root →
        treeHeight t.leafCount.toNat = treeHeight t'.leafCount.toNat →
          PartialTree.Agree combine t t' r r' ∨ PartialTree.Collide combine t t') ∧
    ∀ (max' : UInt32) (hashes : List Hash), hashes ≠ t.hashes →
      (∃ e, ({ t with hashes := hashes } : PartialTree).extract combine max' = .error e) ∨
        (∃ r', ({ t with hashes := hashes } : PartialTree).extract combine max' = .ok r' ∧
          r'.root ≠ r.root) ∨
        PartialTree.Collide combine t { t with hashes := hashes } := by
  refine ⟨?_, ?_⟩
  · intro max' t' r' hr' hroot hheight
    exact PartialTree.agree_or_collide hr hr' hroot hheight
  · intro max' hashes hne
    cases hr' : ({ t with hashes := hashes } : PartialTree).extract combine max' with
    | error e => exact .inl ⟨e, rfl⟩
    | ok r' =>
      by_cases hroot : r'.root = r.root
      · rcases PartialTree.hashes_eq_or_collide hr hr' hroot.symm rfl rfl with heq | hc
        · exact absurd heq.symm hne
        · exact .inr (.inr hc)
      · exact .inr (.inl ⟨r', rfl, hroot⟩)

/-- proofs over four and over three leaves that both show leaf number one -/
theorem accepted_proofs_agree_ragged :
    ∃ (a b c : Hash) (t t' : PartialTree) (r r' : MatchResult),
      t.leafCount = 4 ∧ t'.leafCount = 3 ∧ t.extract (fun x _ => x) 4 = .ok r ∧
        t'.extract (fun x _ => x) 4 = .ok r' ∧ r = ⟨a, [⟨0, a⟩, ⟨1, b⟩]⟩ ∧
        r' = ⟨a, [⟨1, b⟩, ⟨2, c⟩]⟩ ∧ PartialTree.Agree (fun x _ => x) t t' r r' := by
  let a : Hash := .fill 1
  let b : Hash := .fill 2
  let c : Hash := .fill 3
  let t : PartialTree := ⟨4, [true, true, true, true, false], [a, b, c]⟩
  let t' : PartialTree := ⟨3, [true, true, false, true, true, true], [a, b, c]⟩
  have hr : t.extract (fun x _ => x) 4 = .ok ⟨a, [⟨0, a⟩, ⟨1, b⟩]⟩ := by decide +kernel
  have hr' : t'.extract (fun x _ => x) 4 = .ok ⟨a, [⟨1, b⟩, ⟨2, c⟩]⟩ := by decide +kernel
  have hheight : treeHeight t.leafCount.toNat = treeHeight t'.leafCount.toNat := by decide +kernel
  have hapart : ¬ PartialTree.Collide (fun x _ => x) t t' := by decide +kernel
  have hagree := (accepted_proofs_agree (fun x _ => x) 4 t _ hr).1 4 t' _ hr' rfl hheight
  exact ⟨a, b, c, t, t', _, _, rfl, rfl, hr, hr', rfl, rfl, hagree.resolve_right hapart⟩

end BlockProof
