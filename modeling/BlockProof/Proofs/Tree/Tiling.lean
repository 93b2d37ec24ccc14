import BlockProof.Tree
import Mathlib.Order.Monotone.Basic
import Mathlib.Tactic.Ring

/-!
# The nodes of a tree tile its leaves

Node `(h, p)` stands above the leaves from `p * 2 ^ h` on, up to the next node or to the last leaf.

* `lt_width_iff`          a position is on its level if the first leaf below it is a leaf;
* `width_mul_two_pow`     leaves that fill the nodes of a level;
* `hasRightChild_iff`     the same for the right child;
* `IsNode n h p`          node `(h, p)` belongs to the tree over `n` leaves;
* `span n h p`            how many leaves stand below it; its children share them out;
* `width_treeHeight`      the top level is the root alone;
* `lt_treeHeight_iff`     every level below it has more than one node;
* `postOrder n h p`       the nodes from `(h, p)` down, each after its children.
-/

namespace BlockProof

/-! ## where the leaves below a node begin -/

theorem mul_two_pow_succ (p h : Nat) : p * 2 ^ (h + 1) = 2 * p * 2 ^ h := by ring

theorem right_mul_two_pow (p h : Nat) : (2 * p + 1) * 2 ^ h = 2 * p * 2 ^ h + 2 ^ h := by ring

theorem next_mul_two_pow_succ (p h : Nat) :
    (p + 1) * 2 ^ (h + 1) = 2 * p * 2 ^ h + 2 ^ h + 2 ^ h := by ring

/-! ## levels -/

theorem lt_width_iff (n h p : Nat) : p < width n h ↔ p * 2 ^ h < n := by
  have hpos : 0 < 2 ^ h := Nat.two_pow_pos h
  rw [width, Nat.one_shiftLeft, Nat.shiftRight_eq_div_pow, Nat.lt_iff_add_one_le,
    Nat.le_div_iff_mul_le hpos, Nat.add_mul, Nat.one_mul]
  omega

theorem width_mul_two_pow (w h : Nat) : width (w * 2 ^ h) h = w := by
  have hpos : 0 < 2 ^ h := Nat.two_pow_pos h
  refine Nat.le_antisymm (Nat.not_lt.mp ?_) (Nat.not_lt.mp ?_)
  · rw [lt_width_iff]
    exact Nat.lt_irrefl _
  · intro hlt
    have hmul := Nat.mul_lt_mul_of_pos_right hlt hpos
    rw [← lt_width_iff] at hmul
    exact Nat.lt_irrefl _ hmul

theorem lt_width_zero (n p : Nat) : p < width n 0 ↔ p < n := by
  rw [width_zero]

theorem left_lt_width {n h p : Nat} (hp : p < width n (h + 1)) : 2 * p < width n h := by
  rw [width_succ] at hp
  omega

theorem hasRightChild_iff (n h p : Nat) :
    hasRightChild n (h + 1) p = true ↔ 2 * p + 1 < width n h := by
  rw [hasRightChild_succ, decide_eq_true_iff]

theorem not_hasRightChild_iff (n h p : Nat) :
    hasRightChild n (h + 1) p = false ↔ width n h ≤ 2 * p + 1 := by
  rw [hasRightChild_succ, decide_eq_false_iff_not, Nat.not_lt]

theorem right_lt_width {n h p : Nat} (both : hasRightChild n (h + 1) p = true) :
    2 * p + 1 < width n h :=
  (hasRightChild_iff n h p).mp both

theorem lt_of_both {n h p : Nat} (both : hasRightChild n (h + 1) p = true) :
    2 * p * 2 ^ h + 2 ^ h < n := by
  rw [← right_mul_two_pow, ← lt_width_iff]
  exact right_lt_width both

theorem le_of_only {n h p : Nat} (only : hasRightChild n (h + 1) p = false) :
    n ≤ 2 * p * 2 ^ h + 2 ^ h := by
  rw [← right_mul_two_pow, ← Nat.not_lt, ← lt_width_iff, Nat.not_lt]
  exact (not_hasRightChild_iff n h p).mp only

/-! ## the top -/

theorem width_climb_le (n h : Nat) : width n (climb n h) ≤ 1 := by
  fun_induction climb n h with
  | case1 h hle => exact hle
  | case2 h _ ih => exact ih

theorem width_treeHeight {n : Nat} (hn : 0 < n) : width n (treeHeight n) = 1 := by
  have hle : width n (treeHeight n) ≤ 1 := width_climb_le n 0
  have hlt : 0 < width n (treeHeight n) := (lt_width_iff n _ 0).mpr (by rw [Nat.zero_mul]; exact hn)
  omega

theorem root_lt_width {n : Nat} (hn : 0 < n) : 0 < width n (treeHeight n) := by
  rw [width_treeHeight hn]
  exact Nat.one_pos

theorem climb_le {n h k : Nat} (hk : width n k ≤ 1) (hle : h ≤ k) : climb n h ≤ k := by
  fun_induction climb n h with
  | case1 h _ => exact hle
  | case2 h hwide ih =>
    refine ih (Nat.lt_of_le_of_ne hle ?_)
    rintro rfl
    exact hwide hk

theorem treeHeight_le {n k : Nat} (hn : n ≤ 2 ^ k) : treeHeight n ≤ k := by
  refine climb_le ?_ (Nat.zero_le k)
  rw [← Nat.not_lt, lt_width_iff, Nat.one_mul]
  exact Nat.not_lt.mpr hn

theorem width_antitone (n : Nat) : Antitone (width n) := by
  refine antitone_nat_of_succ_le fun h => ?_
  rw [width_succ]
  omega

theorem width_le (n h : Nat) : width n h ≤ n := by
  have hle := width_antitone n (Nat.zero_le h)
  rwa [width_zero] at hle

/-- the root is the first level from below with one node -/
theorem lt_treeHeight_iff {n h : Nat} : h < treeHeight n ↔ 1 < width n h := by
  constructor
  · intro hlow
    rw [← Nat.not_le]
    intro hw
    exact Nat.not_lt.mpr (climb_le hw (Nat.zero_le h)) hlow
  · intro hw
    rw [← Nat.not_le]
    intro hhigh
    exact Nat.not_lt.mpr ((width_antitone n hhigh).trans (width_climb_le n 0)) hw

/-- node `(h, p)` belongs to the tree over `n` leaves -/
def IsNode (n h p : Nat) : Prop := h ≤ treeHeight n ∧ p < width n h

instance (n h p : Nat) : Decidable (IsNode n h p) := inferInstanceAs (Decidable (_ ∧ _))

/-! ## leaves below a node -/

/-- how many of `n` leaves stand below node `(h, p)` -/
def span (n h p : Nat) : Nat := min ((p + 1) * 2 ^ h) n - p * 2 ^ h

theorem span_zero {n p : Nat} (hp : p < width n 0) : span n 0 p = 1 := by
  have hlt : p < n := (lt_width_zero n p).mp hp
  simp only [span, Nat.pow_zero, Nat.mul_one]
  omega

theorem span_pos {n h p : Nat} (hp : p < width n h) : 0 < span n h p := by
  have hlt : p * 2 ^ h < n := (lt_width_iff n h p).mp hp
  have hpos : 0 < 2 ^ h := Nat.two_pow_pos h
  simp only [span, Nat.add_mul, Nat.one_mul]
  omega

/-- two children share the leaves of their parent out -/
theorem span_pair {n h p : Nat} (both : hasRightChild n (h + 1) p = true) :
    span n (h + 1) p = span n h (2 * p) + span n h (2 * p + 1) := by
  have hlt := lt_of_both both
  rw [span, span, span, next_mul_two_pow_succ, mul_two_pow_succ, Nat.succ_mul (2 * p + 1),
    right_mul_two_pow]
  omega

theorem span_single {n h p : Nat} (only : hasRightChild n (h + 1) p = false) :
    span n (h + 1) p = span n h (2 * p) := by
  have hle := le_of_only only
  rw [span, span, next_mul_two_pow_succ, mul_two_pow_succ, right_mul_two_pow]
  omega

theorem span_left {n h p : Nat} (both : hasRightChild n (h + 1) p = true) :
    span n h (2 * p) = 2 ^ h := by
  have hlt := lt_of_both both
  rw [span, right_mul_two_pow, Nat.min_eq_left hlt.le, Nat.add_sub_cancel_left]

theorem span_root {n : Nat} (hn : 0 < n) : span n (treeHeight n) 0 = n := by
  have hle : n ≤ 1 * 2 ^ treeHeight n := by
    rw [← Nat.not_lt, ← lt_width_iff, width_treeHeight hn]
    exact Nat.lt_irrefl 1
  rw [span, Nat.zero_mul, Nat.zero_add, Nat.sub_zero]
  exact Nat.min_eq_right hle

/-! ## nodes below a node -/

/-- the nodes from node `(h, p)` down: those on the left, those on the right, the node itself -/
def postOrder (n : Nat) : Nat → Nat → List (Nat × Nat)
  | 0, p => [(0, p)]
  | h + 1, p =>
    postOrder n h (2 * p) ++
      (if hasRightChild n (h + 1) p then postOrder n h (2 * p + 1) else []) ++ [(h + 1, p)]

theorem le_height_of_mem_postOrder {n h p : Nat} {v : Nat × Nat} (hv : v ∈ postOrder n h p) :
    v.1 ≤ h := by
  induction h generalizing p with
  | zero =>
    rw [postOrder, List.mem_singleton] at hv
    rw [hv]
  | succ h ih =>
    rw [postOrder, List.mem_append, List.mem_append, List.mem_singleton] at hv
    rcases hv with (hl | hr) | rfl
    · exact (ih hl).trans (Nat.le_succ h)
    · split at hr
      · exact (ih hr).trans (Nat.le_succ h)
      · cases hr
    · exact Nat.le_refl _

/-- `d` levels below node `(k + d, p)` stand the nodes of the tree at the positions from
`p * 2 ^ d` on -/
theorem mem_postOrder_iff {n k d p q : Nat} (hp : p < width n (k + d)) :
    (k, q) ∈ postOrder n (k + d) p ↔
      q < width n k ∧ p * 2 ^ d ≤ q ∧ q < (p + 1) * 2 ^ d := by
  induction d generalizing p with
  | zero =>
    have htop : (k, q) ∈ postOrder n k p ↔ q = p := by
      cases k with
      | zero => simp [postOrder]
      | succ k =>
        have hlow : ∀ p', (k + 1, q) ∉ postOrder n k p' := fun p' hv =>
          absurd (le_height_of_mem_postOrder hv) (Nat.not_succ_le_self k)
        rw [postOrder]
        split <;> simp [hlow]
    rw [Nat.add_zero] at hp ⊢
    rw [htop, Nat.pow_zero, Nat.mul_one, Nat.mul_one]
    omega
  | succ d ih =>
    have hne : (k, q) ≠ (k + d + 1, p) := fun h => by
      have := congrArg Prod.fst h
      simp only at this
      omega
    have hpos : 0 < 2 ^ d := Nat.two_pow_pos d
    rw [← Nat.add_assoc] at hp ⊢
    rw [postOrder, List.mem_append, List.mem_append, List.mem_singleton, ih (left_lt_width hp),
      mul_two_pow_succ, next_mul_two_pow_succ, right_mul_two_pow]
    cases hb : hasRightChild n (k + d + 1) p with
    | true =>
      rw [if_pos rfl, ih (right_lt_width hb), Nat.succ_mul (2 * p + 1), right_mul_two_pow]
      constructor
      · intro hv
        rcases hv with (⟨hq, hlo, hhi⟩ | ⟨hq, hlo, hhi⟩) | heq
        · exact ⟨hq, hlo, by omega⟩
        · exact ⟨hq, by omega, hhi⟩
        · exact absurd heq hne
      · intro hv
        obtain ⟨hq, hlo, hhi⟩ := hv
        by_cases hside : q < 2 * p * 2 ^ d + 2 ^ d
        · exact .inl (.inl ⟨hq, hlo, hside⟩)
        · exact .inl (.inr ⟨hq, Nat.not_lt.mp hside, hhi⟩)
    | false =>
      have hoff : q < width n k → q < 2 * p * 2 ^ d + 2 ^ d := by
        intro hq
        have hlt := ((lt_width_iff n k q).mp hq).trans_le (le_of_only hb)
        have hsplit : 2 * p * 2 ^ (k + d) + 2 ^ (k + d) = (2 * p * 2 ^ d + 2 ^ d) * 2 ^ k := by ring
        rw [hsplit] at hlt
        exact Nat.lt_of_mul_lt_mul_right hlt
      rw [if_neg Bool.false_ne_true]
      constructor
      · intro hv
        rcases hv with (⟨hq, hlo, hhi⟩ | hnil) | heq
        · exact ⟨hq, hlo, hhi.trans_le (Nat.le_add_right _ _)⟩
        · cases hnil
        · exact absurd heq hne
      · intro hv
        obtain ⟨hq, hlo, -⟩ := hv
        exact .inl (.inl ⟨hq, hlo, hoff hq⟩)

theorem mem_postOrder_root_iff {n h p : Nat} (hn : 0 < n) :
    (h, p) ∈ postOrder n (treeHeight n) 0 ↔ IsNode n h p := by
  constructor
  · intro hv
    have hle : h ≤ treeHeight n := le_height_of_mem_postOrder hv
    obtain ⟨d, hd⟩ := Nat.exists_eq_add_of_le hle
    have hroot := root_lt_width hn
    rw [hd] at hv hroot
    exact ⟨hle, ((mem_postOrder_iff hroot).mp hv).1⟩
  · intro hnode
    obtain ⟨hle, hp⟩ := hnode
    obtain ⟨d, hd⟩ := Nat.exists_eq_add_of_le hle
    have hroot := root_lt_width hn
    have hspan := span_root hn
    rw [hd] at hroot hspan ⊢
    refine (mem_postOrder_iff hroot).mpr ⟨hp, by omega, ?_⟩
    have hlt := (lt_width_iff n h p).mp hp
    have hle' : n ≤ (0 + 1) * 2 ^ d * 2 ^ h := by
      rw [span, Nat.pow_add, Nat.mul_comm (2 ^ h)] at hspan
      rw [Nat.mul_assoc]
      omega
    exact Nat.lt_of_mul_lt_mul_right (hlt.trans_le hle')

end BlockProof
