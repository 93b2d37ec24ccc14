import BlockProof.Proofs.Tree.Tiling
import BlockProof.Tree

/-!
# The root, level by level

The hash of a node is defined from the top down, and whether a node has two children is a matter of
widths. A block's root is also what remains when the leaves are combined in pairs, level after
level, a last node without a partner being paired with itself. Both are the same: the nodes of a
height are the entries of the level, and the root is all there is on the first level with one entry.

* `combinePairs`, `level`   one level up, and `h` levels up;
* `length_level`            a level has as many entries as the tree has nodes at that height;
* `getElem?_level`          an entry of a level is the hash of its node;
* `level_treeHeight`        the level of the root;
* `level_append`            full subtrees side by side do not meet below their height;
* `root_eq_first_single_level`   the main result.
-/

namespace BlockProof

/-- one level up: neighbours are combined, and a last hash without a partner with itself -/
def combinePairs (combine : Combiner) : List Hash → List Hash
  | [] => []
  | [x] => [combine x x]
  | x :: y :: rest => combine x y :: combinePairs combine rest

/-- the leaves, combined in pairs `h` times -/
def level (combine : Combiner) (leaves : List Hash) : Nat → List Hash
  | 0 => leaves
  | h + 1 => combinePairs combine (level combine leaves h)

section
variable (combine : Combiner)

/-! ## one level up -/

theorem length_combinePairs (xs : List Hash) :
    (combinePairs combine xs).length = (xs.length + 1) / 2 := by
  fun_induction combinePairs combine xs with
  | case1 => rfl
  | case2 x => rw [List.length_singleton, List.length_singleton]
  | case3 x y rest ih =>
    rw [List.length_cons, List.length_cons, List.length_cons, ih]
    omega

theorem getElem?_combinePairs (xs : List Hash) (p : Nat) :
    (combinePairs combine xs)[p]? =
      xs[2 * p]?.map fun left => combine left (xs[2 * p + 1]?.getD left) := by
  fun_induction combinePairs combine xs generalizing p with
  | case1 => rfl
  | case2 x => cases p <;> rfl
  | case3 x y rest ih =>
    cases p with
    | zero => rfl
    | succ p => exact ih p

theorem combinePairs_append {k : Nat} {xs : List Hash} (hlen : xs.length = 2 * k)
    (ys : List Hash) :
    combinePairs combine (xs ++ ys) = combinePairs combine xs ++ combinePairs combine ys := by
  induction k generalizing xs with
  | zero =>
    rw [List.eq_nil_of_length_eq_zero hlen]
    rfl
  | succ k ih =>
    match xs with
    | x :: y :: rest =>
      rw [List.length_cons, List.length_cons] at hlen
      exact congrArg (combine x y :: ·) (ih (by omega))

/-! ## levels above levels -/

theorem length_level (leaves : List Hash) (h : Nat) :
    (level combine leaves h).length = width leaves.length h := by
  induction h with
  | zero => exact (width_zero _).symm
  | succ h ih => rw [level, length_combinePairs, ih, width_succ]

theorem length_level_of_fill {w h : Nat} {xs : List Hash} (hfill : xs.length = w * 2 ^ h) :
    (level combine xs h).length = w := by
  rw [length_level, hfill, width_mul_two_pow]

theorem getElem?_level (leaves : Array Hash) {h p : Nat} (hp : p < width leaves.size h) :
    (level combine leaves.toList h)[p]? = some (nodeHash combine leaves h p) := by
  induction h generalizing p with
  | zero =>
    have hlt : p < leaves.size := (lt_width_zero _ p).mp hp
    rw [level, nodeHash, Array.getElem?_toList, Array.getD_eq_getD_getElem?,
      Array.getElem?_eq_getElem hlt, Option.getD_some]
  | succ h ih =>
    rw [level, getElem?_combinePairs, ih (left_lt_width hp), nodeHash]
    cases hb : hasRightChild leaves.size (h + 1) p with
    | true =>
      rw [ih (right_lt_width hb)]
      rfl
    | false =>
      have hoff : (level combine leaves.toList h)[2 * p + 1]? = none := by
        rw [List.getElem?_eq_none_iff, length_level, Array.length_toList]
        exact (not_hasRightChild_iff _ h p).mp hb
      rw [hoff]
      rfl

theorem level_treeHeight {leaves : Array Hash} (hne : 0 < leaves.size) :
    level combine leaves.toList (treeHeight leaves.size) = [merkleRoot combine leaves] := by
  have hlen : (level combine leaves.toList (treeHeight leaves.size)).length = 1 :=
    (length_level combine leaves.toList _).trans (width_treeHeight hne)
  obtain ⟨x, hx⟩ := List.length_eq_one_iff.mp hlen
  have hroot := getElem?_level combine leaves (root_lt_width hne)
  rw [hx] at hroot ⊢
  exact congrArg (fun y => [y]) (Option.some.inj hroot)

/-- full subtrees do not meet below their height -/
theorem level_append {w h : Nat} {xs : List Hash} (hfill : xs.length = w * 2 ^ h)
    (ys : List Hash) :
    level combine (xs ++ ys) h = level combine xs h ++ level combine ys h := by
  induction h generalizing w with
  | zero => rfl
  | succ h ih =>
    rw [mul_two_pow_succ] at hfill
    rw [level, ih hfill, combinePairs_append combine (length_level_of_fill combine hfill)]
    rfl

end

/-! ## the two definitions of the root -/

theorem nodeHash?_eq_some (combine : Combiner) {leaves : Array Hash} {h p : Nat}
    (hp : p < width leaves.size h) :
    nodeHash? combine leaves h p = some (nodeHash combine leaves h p) := by
  rw [nodeHash?, if_pos]
  rw [Nat.shiftLeft_eq]
  exact (lt_width_iff _ h p).mp hp

/-- **The root from the top down is the root level by level.** At each height of the tree the level
has one entry a node, the node's hash, and the block's root is the one entry of the first level
that has no other. -/
theorem root_eq_first_single_level (combine : Combiner) (leaves : Array Hash)
    (hne : 0 < leaves.size) :
    (∀ h ≤ treeHeight leaves.size,
      (level combine leaves.toList h).length = width leaves.size h ∧
        ∀ p < width leaves.size h, ∃ x, nodeHash? combine leaves h p = some x ∧
          (level combine leaves.toList h)[p]? = some x) ∧
    ∃ root, merkleRoot? combine leaves = some root ∧
      level combine leaves.toList (treeHeight leaves.size) = [root] ∧
        ∀ k < treeHeight leaves.size, (level combine leaves.toList k).length ≠ 1 := by
  have hlen (h : Nat) : (level combine leaves.toList h).length = width leaves.size h :=
    length_level combine leaves.toList h
  refine ⟨?_, merkleRoot combine leaves, ?_, level_treeHeight combine hne, ?_⟩
  · intro h _
    refine ⟨hlen h, ?_⟩
    intro p hp
    exact ⟨_, nodeHash?_eq_some combine hp, getElem?_level combine leaves hp⟩
  · exact merkleRoot?_eq_some_iff.mpr ⟨hne, rfl⟩
  · intro k hk
    rw [hlen]
    exact (lt_treeHeight_iff.mp hk).ne'

/-- five leaves make levels of five, three, two and one; two levels pair a last hash with itself -/
theorem root_eq_first_single_level_five :
    ∃ leaves : Array Hash, leaves.size = 5 ∧ treeHeight leaves.size = 3 ∧
      (level (fun _ y => y) leaves.toList 1).length = 3 ∧
        (level (fun _ y => y) leaves.toList 2).length = 2 ∧
          ∃ root, leaves[4]? = some root ∧ merkleRoot? (fun _ y => y) leaves = some root ∧
            level (fun _ y => y) leaves.toList 3 = [root] := by
  let leaves : Array Hash := #[.fill 1, .fill 2, .fill 3, .fill 4, .fill 5]
  have hheight : treeHeight leaves.size = 3 := by decide +kernel
  obtain ⟨hlevels, root, hroot, htop, -⟩ :=
    root_eq_first_single_level (fun _ y => y) leaves (by decide)
  rw [hheight] at hlevels htop
  have hlast : merkleRoot? (fun _ y => y) leaves = some (.fill 5) := by decide +kernel
  obtain rfl : root = .fill 5 := Option.some.inj (hroot.symm.trans hlast)
  exact ⟨leaves, rfl, hheight, (hlevels 1 (by decide)).1.trans (by decide +kernel),
    (hlevels 2 (by decide)).1.trans (by decide +kernel), .fill 5, rfl, hroot, htop⟩

end BlockProof
