import BlockProof.Proofs.Tree.Tiling
import BlockProof.Tree

/-!
# Pruned trees: the grammar of a proof

A proof is a tree over the leaves of a block that is cut off below some of its nodes. Here it is a
tree in the literal sense, and the two lists of a `PartialTree` are what a walk over it writes down.

* `Pruned n h p`      trees over `n` leaves that stand at node `(h, p)`;
* `Pruned.flags`, `Pruned.hashes`   what the walk writes down, each node before its children;
* `Pruned.root`, `Pruned.matched`   what the tree commits to and the leaves it shows;
* `Pruned.twins`, `Pruned.joins`    the nodes with two equal children, and all pairs of child
                      hashes, both in the order in which the walk leaves the nodes;
* `Pruned.eq_of_append`   the lists determine the tree, whatever follows them.
-/

namespace BlockProof

/-- a tree over `n` leaves at node `(h, p)`, cut off below some of its nodes; a leaf is never cut
off, as its flag alone says whether it is shown -/
inductive Pruned (n : Nat) : Nat → Nat → Type where
  /-- an inner node with nothing below it but its hash -/
  | hidden {h p : Nat} (x : Hash) : Pruned n (h + 1) p
  /-- a leaf, shown if the flag is set -/
  | leaf {p : Nat} (flag : Bool) (x : Hash) : Pruned n 0 p
  /-- an inner node with one child -/
  | single {h p : Nat} (only : hasRightChild n (h + 1) p = false)
      (left : Pruned n h (2 * p)) : Pruned n (h + 1) p
  /-- an inner node with two children -/
  | pair {h p : Nat} (both : hasRightChild n (h + 1) p = true)
      (left : Pruned n h (2 * p)) (right : Pruned n h (2 * p + 1)) : Pruned n (h + 1) p

/-- two child hashes that become the hash of node `(height, position)` -/
structure Join where
  height : Nat
  position : Nat
  left : Hash
  right : Hash
deriving DecidableEq

namespace Pruned

variable {n : Nat}

/-- one flag a node, set where the walk goes on or shows a leaf -/
def flags : {h p : Nat} → Pruned n h p → List Bool
  | _, _, hidden _ => [false]
  | _, _, leaf flag _ => [flag]
  | _, _, single _ left => true :: left.flags
  | _, _, pair _ left right => true :: (left.flags ++ right.flags)

/-- one hash a node at which the walk stops -/
def hashes : {h p : Nat} → Pruned n h p → List Hash
  | _, _, hidden x => [x]
  | _, _, leaf _ x => [x]
  | _, _, single _ left => left.hashes
  | _, _, pair _ left right => left.hashes ++ right.hashes

def root (combine : Combiner) : {h p : Nat} → Pruned n h p → Hash
  | _, _, hidden x => x
  | _, _, leaf _ x => x
  | _, _, single _ left => combine (left.root combine) (left.root combine)
  | _, _, pair _ left right => combine (left.root combine) (right.root combine)

def matched : {h p : Nat} → Pruned n h p → List MatchedLeaf
  | _, _, hidden _ => []
  | _, p, leaf flag x => if flag then [⟨UInt32.ofNat p, x⟩] else []
  | _, _, single _ left => left.matched
  | _, _, pair _ left right => left.matched ++ right.matched

/-- the nodes whose two children have one hash: those on the left, those on the right, the topmost
node -/
def twins (combine : Combiner) : {h p : Nat} → Pruned n h p → List (Nat × Nat)
  | _, _, hidden _ => []
  | _, _, leaf _ _ => []
  | _, _, single _ left => left.twins combine
  | h + 1, p, pair _ left right =>
    left.twins combine ++ right.twins combine ++
      if right.root combine = left.root combine then [(h + 1, p)] else []

/-- the pairs of child hashes, in the same order -/
def joins (combine : Combiner) : {h p : Nat} → Pruned n h p → List Join
  | _, _, hidden _ => []
  | _, _, leaf _ _ => []
  | h + 1, p, single _ left =>
    left.joins combine ++ [⟨h + 1, p, left.root combine, left.root combine⟩]
  | h + 1, p, pair _ left right =>
    left.joins combine ++ right.joins combine ++
      [⟨h + 1, p, left.root combine, right.root combine⟩]

theorem twins_pair_eq_nil_iff {combine : Combiner} {h p : Nat}
    {both : hasRightChild n (h + 1) p = true} {left : Pruned n h (2 * p)}
    {right : Pruned n h (2 * p + 1)} : (pair both left right).twins combine = [] ↔
      left.twins combine = [] ∧ right.twins combine = [] ∧
        right.root combine ≠ left.root combine := by
  rw [twins, List.append_eq_nil_iff, List.append_eq_nil_iff, and_assoc]
  by_cases heq : right.root combine = left.root combine
  · simp [heq]
  · simp [heq]

/-! ## the lists determine the tree -/

theorem eq_of_append {h p : Nat} (P Q : Pruned n h p) {fs gs : List Bool} {xs ys : List Hash}
    (hf : P.flags ++ fs = Q.flags ++ gs) (hx : P.hashes ++ xs = Q.hashes ++ ys) :
    P = Q ∧ fs = gs ∧ xs = ys := by
  induction P generalizing fs gs xs ys with
  | hidden x =>
    cases Q with
    | hidden y =>
      obtain ⟨rfl, hxs⟩ := List.cons.inj hx
      exact ⟨rfl, List.tail_eq_of_cons_eq hf, hxs⟩
    | single only left => exact absurd (List.head_eq_of_cons_eq hf) Bool.false_ne_true
    | pair both left right => exact absurd (List.head_eq_of_cons_eq hf) Bool.false_ne_true
  | leaf flag x =>
    cases Q with
    | leaf flag' y =>
      obtain ⟨rfl, hfs⟩ := List.cons.inj hf
      obtain ⟨rfl, hxs⟩ := List.cons.inj hx
      exact ⟨rfl, hfs, hxs⟩
  | single only left ih =>
    cases Q with
    | hidden y => exact absurd (List.head_eq_of_cons_eq hf).symm Bool.false_ne_true
    | single only' left' =>
      obtain ⟨rfl, hfs, hxs⟩ := ih left' (List.tail_eq_of_cons_eq hf) hx
      exact ⟨rfl, hfs, hxs⟩
    | pair both left' right' => exact absurd (only.symm.trans both) Bool.false_ne_true
  | pair both left right ihl ihr =>
    cases Q with
    | hidden y => exact absurd (List.head_eq_of_cons_eq hf).symm Bool.false_ne_true
    | single only left' => exact absurd (only.symm.trans both) Bool.false_ne_true
    | pair both' left' right' =>
      simp only [flags, hashes, List.cons_append, List.append_assoc] at hf hx
      obtain ⟨rfl, hfr, hxr⟩ := ihl left' (List.tail_eq_of_cons_eq hf) hx
      obtain ⟨rfl, hfs, hxs⟩ := ihr right' hfr hxr
      exact ⟨rfl, hfs, hxs⟩

/-! ## counts -/

theorem length_hashes_le_flags {h p : Nat} (P : Pruned n h p) :
    P.hashes.length ≤ P.flags.length := by
  induction P with
  | hidden x => exact Nat.le_refl 1
  | leaf flag x => exact Nat.le_refl 1
  | single only left ih =>
    rw [hashes, flags, List.length_cons]
    omega
  | pair both left right ihl ihr =>
    rw [hashes, flags, List.length_cons, List.length_append, List.length_append]
    omega

theorem length_hashes_pos {h p : Nat} (P : Pruned n h p) : 0 < P.hashes.length := by
  induction P with
  | hidden x => exact Nat.one_pos
  | leaf flag x => exact Nat.one_pos
  | single only left ih => exact ih
  | pair both left right ihl ihr =>
    rw [hashes, List.length_append]
    exact Nat.add_pos_left ihl _

/-- each flag belongs to a node above some hash, and above a hash there is one node a level -/
theorem length_flags_le {h p : Nat} (P : Pruned n h p) :
    P.flags.length ≤ (h + 1) * P.hashes.length := by
  induction P with
  | hidden x => exact Nat.succ_le_of_lt (Nat.succ_pos _)
  | leaf flag x => exact Nat.le_refl 1
  | @single h p only left ih =>
    have hpos := left.length_hashes_pos
    rw [flags, hashes, List.length_cons, Nat.succ_mul (h + 1)]
    omega
  | @pair h p both left right ihl ihr =>
    have hpos := left.length_hashes_pos
    rw [flags, hashes, List.length_cons, List.length_append, List.length_append,
      Nat.succ_mul (h + 1), Nat.mul_add (h + 1)]
    omega

/-- each hash stands for at least one leaf, and no leaf lies below two of them -/
theorem length_hashes_le_span {h p : Nat} (P : Pruned n h p) (hp : p < width n h) :
    P.hashes.length ≤ span n h p := by
  induction P with
  | hidden x => exact span_pos hp
  | leaf flag x => exact span_pos hp
  | single only left ih =>
    rw [hashes, span_single only]
    exact ih (left_lt_width hp)
  | pair both left right ihl ihr =>
    have hl := ihl (left_lt_width hp)
    have hr := ihr (right_lt_width both)
    rw [hashes, List.length_append, span_pair both]
    omega

theorem length_hashes_le_leaves (hn : 0 < n) (P : Pruned n (treeHeight n) 0) :
    P.hashes.length ≤ n :=
  (P.length_hashes_le_span (root_lt_width hn)).trans_eq (span_root hn)

end Pruned

end BlockProof
