import BlockProof.Proofs.Tree.Building
import BlockProof.Proofs.Tree.Coverage
import BlockProof.Proofs.Tree.Words
import Mathlib.Algebra.Order.Floor.Semiring
import Mathlib.Data.Rat.Floor
import Mathlib.Order.Bounds.Basic
import Mathlib.Tactic.NormNum

/-!
# Each level partitions the leaves

The shape of a tree is told in sums, shifts and casts. What it says is that the nodes of a level
share the leaves out, `2 ^ h` to a node of height `h` and what is left to the last one, and that the
root is the lowest node that has all of them.

* `width_eq_ceil`, `width_succ_eq_ceil`   widths as quotients, rounded up;
* `mem_leavesBelow_range`     the leaves below a node are a range of leaves;
* `flatMap_leavesBelow`       the ranges of a level follow one another from first to last leaf;
* `hasMatch_eq_any`           they are the leaves that a builder looks at;
* `hasRightChild_iff_leaf`    a right child has a leaf of the second half of its parent's range;
* `isLeast_treeHeight`        the root is at the least height that holds all leaves;
* `Partitions n h`            all that is said of level `h`;
* `levels_partition_leaves`   the main result.
-/

namespace BlockProof

variable {n h p : Nat}

/-! ## widths -/

theorem width_eq_ceil (n h : Nat) : width n h = ⌈(n : ℚ) / 2 ^ h⌉₊ := by
  refine eq_of_forall_lt_iff fun p => ?_
  have hpos : (0 : ℚ) < 2 ^ h := by positivity
  rw [lt_width_iff, Nat.lt_ceil, lt_div_iff₀ hpos]
  norm_cast

theorem width_succ_eq_ceil (n h : Nat) : width n (h + 1) = ⌈(width n h : ℚ) / 2⌉₊ := by
  refine eq_of_forall_lt_iff fun p => ?_
  rw [width_succ, Nat.lt_ceil, lt_div_iff₀ two_pos]
  norm_cast
  omega

/-! ## ranges of leaves -/

theorem mem_leavesBelow_range {i : Nat} :
    i ∈ leavesBelow n (h, p) ↔ p * 2 ^ h ≤ i ∧ i < min ((p + 1) * 2 ^ h) n := by
  show i ∈ List.range' (p * 2 ^ h) (span n h p) ↔ _
  rw [List.mem_range'_1, span]
  omega

theorem flatMap_leavesBelow_of_le {k : Nat} (hk : k ≤ width n h) :
    ((List.range k).flatMap fun p => leavesBelow n (h, p)) = List.range (min (k * 2 ^ h) n) := by
  induction k with
  | zero => simp
  | succ k ih =>
    have hlt : k * 2 ^ h < n := (lt_width_iff n h k).mp hk
    have hpos : 0 < 2 ^ h := Nat.two_pow_pos h
    have hnext : (k + 1) * 2 ^ h = k * 2 ^ h + 2 ^ h := Nat.succ_mul k (2 ^ h)
    have hlen : k * 2 ^ h + span n h k = min ((k + 1) * 2 ^ h) n := by
      rw [span]
      omega
    have hrange : leavesBelow n (h, k) = List.range' (0 + k * 2 ^ h) (span n h k) := by
      rw [Nat.zero_add]
      rfl
    rw [List.range_succ, List.flatMap_append, ih (Nat.le_of_succ_le hk), List.flatMap_singleton,
      Nat.min_eq_left hlt.le, hrange, List.range_eq_range', List.range'_append_1, hlen,
      ← List.range_eq_range']

theorem flatMap_leavesBelow (n h : Nat) :
    ((List.range (width n h)).flatMap fun p => leavesBelow n (h, p)) = List.range n := by
  have hall : n ≤ width n h * 2 ^ h := by
    rw [← Nat.not_lt, ← lt_width_iff]
    exact Nat.lt_irrefl _
  rw [flatMap_leavesBelow_of_le (Nat.le_refl _), Nat.min_eq_right hall]

theorem hasMatch_eq_any {marked : Array Bool} (hm : marked.size = n) :
    hasMatch marked h p = (leavesBelow n (h, p)).any fun i => marked.getD i false := by
  rw [Bool.eq_iff_iff, hasMatch_iff, List.any_eq_true]
  simp only [mem_leavesBelow_range, getD_eq_true_iff]
  constructor
  · intro h
    obtain ⟨i, hlo, hhi, hi⟩ := h
    obtain ⟨hlt, -⟩ := Array.getElem?_eq_some_iff.mp hi
    exact ⟨i, ⟨hlo, by omega⟩, hi⟩
  · intro h
    obtain ⟨i, ⟨hlo, hhi⟩, hi⟩ := h
    exact ⟨i, hlo, by omega, hi⟩

/-- a node has a right child if a leaf stands in the second half of its range -/
theorem hasRightChild_iff_leaf : hasRightChild n (h + 1) p = true ↔
    ∃ i ∈ leavesBelow n (h + 1, p), p * 2 ^ (h + 1) + 2 ^ h ≤ i := by
  have hpos : 0 < 2 ^ h := Nat.two_pow_pos h
  have hfirst := mul_two_pow_succ p h
  have hnext := next_mul_two_pow_succ p h
  simp only [hasRightChild_iff, lt_width_iff, mem_leavesBelow_range, right_mul_two_pow]
  constructor
  · intro hlt
    exact ⟨2 * p * 2 ^ h + 2 ^ h, by omega, by omega⟩
  · intro hleaf
    obtain ⟨i, hi, hle⟩ := hleaf
    omega

/-! ## the top -/

theorem isLeast_treeHeight (n : Nat) : IsLeast { h | n ≤ 2 ^ h } (treeHeight n) := by
  refine ⟨?_, fun k hk => treeHeight_le hk⟩
  have hle : width n (treeHeight n) ≤ 1 := width_climb_le n 0
  rwa [← Nat.not_lt, lt_width_iff, Nat.not_lt, Nat.one_mul] at hle

/-! ## levels -/

/-- level `h` of the tree over `n` leaves partitions them -/
structure Partitions (n h : Nat) : Prop where
  /-- its nodes are counted in words -/
  width_words : widthInWords n h = some (width n h)
  width_eq : width n h = ⌈(n : ℚ) / 2 ^ h⌉₊
  /-- two nodes of the level below have one parent, and so has an odd one -/
  width_above : ∀ k, h = k + 1 → width n h = ⌈(width n k : ℚ) / 2⌉₊
  /-- a node stands above the leaves of its range, and there is one -/
  range : ∀ p < width n h, leavesBelow n (h, p) ≠ [] ∧
    ∀ i, i ∈ leavesBelow n (h, p) ↔ p * 2 ^ h ≤ i ∧ i < min ((p + 1) * 2 ^ h) n
  /-- these are the leaves whose marks a builder looks at -/
  looked_at : ∀ marked : Array Bool, marked.size = n → ∀ p < width n h,
    hasMatchInWords n marked h p =
      some ((leavesBelow n (h, p)).any fun i => marked.getD i false)
  /-- from the first node to the last they are all leaves, each once -/
  partition : ((List.range (width n h)).flatMap fun p => leavesBelow n (h, p)) = List.range n
  right_words : ∀ k, h = k + 1 → ∀ p < 2 ^ 32,
    hasRightChildInWords n h p = some (hasRightChild n h p)
  /-- a right child stands above the second half of the range -/
  right_iff : ∀ k, h = k + 1 → ∀ p,
    hasRightChild n h p = true ↔ ∃ i ∈ leavesBelow n (h, p), p * 2 ^ h + 2 ^ k ≤ i

theorem partitions (hn : n < 2 ^ 32) (hh : h ≤ 63) : Partitions n h where
  width_words := widthInWords_eq hn hh
  width_eq := width_eq_ceil n h
  width_above k hk := by
    subst hk
    exact width_succ_eq_ceil n k
  range p hp := ⟨leavesBelow_ne_nil hp, fun i => mem_leavesBelow_range⟩
  looked_at marked hm p hp := by
    rw [hasMatchInWords_eq hn hm hh hp, hasMatch_eq_any hm]
  partition := flatMap_leavesBelow n h
  right_words k hk p hp := by
    subst hk
    exact hasRightChildInWords_eq hn (Nat.le_of_succ_le hh) hp
  right_iff k hk p := by
    subst hk
    exact hasRightChild_iff_leaf

/-- **The levels of a tree partition its leaves.** For any count of leaves that a word of 32 bits
holds, and at any height below 64: the width is the count of leaves over `2 ^ h` and half the width
below, each rounded up, with nothing lost in words; the nodes stand above ranges of leaves, none of
them empty, that follow one another from the first leaf to the last; and a node has a right child
just when a leaf stands in the second half of its range. The climb to the root ends, at the least
height at which `2 ^ h` leaves are enough, and that is 32 at most. -/
theorem levels_partition_leaves (n : UInt32) :
    (∀ h ≤ 63, Partitions n.toNat h) ∧
    treeHeightInWords n.toNat = some (treeHeight n.toNat) ∧
    IsLeast { h | n.toNat ≤ 2 ^ h } (treeHeight n.toNat) ∧ treeHeight n.toNat ≤ 32 :=
  ⟨fun _ hh => partitions n.toNat_lt hh, treeHeightInWords_eq n.toNat_lt,
    isLeast_treeHeight n.toNat, treeHeight_le_word n.toNat_lt⟩

/-- five leaves: the third node of the level above them has one child, and the fifth leaf is marked;
and as many leaves as a word counts, at the greatest height -/
theorem levels_partition_leaves_ragged :
    widthInWords 5 1 = some 3 ∧ leavesBelow 5 (1, 2) = [4] ∧
      hasMatchInWords 5 #[false, false, false, false, true] 1 2 = some true ∧
        hasRightChildInWords 5 1 2 = some false ∧ treeHeightInWords 5 = some 3 ∧
          IsLeast { h | 5 ≤ 2 ^ h } 3 ∧ widthInWords 0xffffffff 63 = some 1 := by
  obtain ⟨hlevel, hclimb, hleast, -⟩ := levels_partition_leaves 5
  have hone : Partitions 5 1 := hlevel 1 (by decide)
  have htop : treeHeight 5 = 3 := by decide +kernel
  have hwidth : width 5 1 = 3 := by decide
  have hbelow : leavesBelow 5 (1, 2) = [4] := by decide
  have hwidest : Partitions 0xffffffff 63 := (levels_partition_leaves 0xffffffff).1 63 (by decide)
  refine ⟨?_, hbelow, ?_, hone.right_words 0 rfl 2 (by decide), ?_, ?_, hwidest.width_words⟩
  · rw [hone.width_words, hwidth]
  · rw [hone.looked_at _ rfl 2 (by decide), hbelow]
    rfl
  · rw [← htop]
    exact hclimb
  · rw [← htop]
    exact hleast

end BlockProof
