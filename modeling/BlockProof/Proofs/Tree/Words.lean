import BlockProof.Proofs.Tree.Tiling
import BlockProof.Tree

/-!
# The walks in words of fixed width

Heights and positions are words of 32 bits, and widths are worked out in words of 64 bits, as are
the bounds of a slice. The walks are done here a second time with every such step checked: a number
that its word does not hold, a difference below zero, an index or a slice out of range and a call
at a node off the tree all yield `none`. None of it happens. A node of the tree has its children on
the tree, and the positions of a level are fewer than the leaves, so what a walk reaches from the
root is always small enough.

* `word w n`, `minus a b`        a number that has to fit, and a difference that has to exist;
* `widthInWords`, `hasRightChildInWords`, `treeHeightInWords`   the shape of the tree, checked;
* `enter n h p`                  the check that every call begins with;
* `childrenInWords`              the calls that follow from one;
* `childrenInWords_eq`           they are at nodes of the tree;
* `Walk.runInWords`, `nodeHashInWords`, `pruneInWords`   the walks, checked;
* `walks_keep_to_words`          the main result.
-/

namespace BlockProof

/-! ## checked steps -/

/-- `n`, if a word of `w` bits holds it -/
def word (w n : Nat) : Option Nat := if n < 2 ^ w then some n else none

theorem word_eq {w n : Nat} (h : n < 2 ^ w) : word w n = some n := if_pos h

def minus (a b : Nat) : Option Nat := if b ≤ a then some (a - b) else none

theorem minus_eq {a b : Nat} (h : b ≤ a) : minus a b = some (a - b) := if_pos h

theorem bind_of_eq_some {α β : Type} {o : Option α} {x : α} (h : o = some x) (f : α → Option β) :
    o >>= f = f x := by
  rw [h]
  rfl

theorem word_eq_some {w n m : Nat} (h : word w n = some m) : m = n := by
  rw [word] at h
  split at h
  · exact (Option.some.inj h).symm
  · cases h

theorem minus_eq_some {a b m : Nat} (h : minus a b = some m) : m = a - b := by
  rw [minus] at h
  split at h
  · exact (Option.some.inj h).symm
  · cases h

/-! ## the shape of the tree -/

/-- `width n h` by way of long words -/
def widthInWords (n h : Nat) : Option Nat := do
  let below ← word 64 (1 <<< h)
  let sum ← word 64 (n + below)
  let last ← minus sum 1
  word 32 (last >>> h)

def hasRightChildInWords (n h p : Nat) : Option Bool := do
  let w ← widthInWords n (← minus h 1)
  let double ← word 64 (p * 2)
  let next ← word 64 (double + 1)
  return decide (next < w)

theorem eq_width_of_words {n h w : Nat} (hw : widthInWords n h = some w) : w = width n h := by
  obtain ⟨below, hbelow, hw⟩ := Option.bind_eq_some_iff.mp hw
  obtain ⟨sum, hsum, hw⟩ := Option.bind_eq_some_iff.mp hw
  obtain ⟨last, hlast, hw⟩ := Option.bind_eq_some_iff.mp hw
  rw [word_eq_some hw, minus_eq_some hlast, word_eq_some hsum, word_eq_some hbelow, width]

def climbInWords (n h : Nat) : Option Nat :=
  match hw : widthInWords n h with
  | none => none
  | some w => if w ≤ 1 then some h else if h + 1 < 2 ^ 32 then climbInWords n (h + 1) else none
termination_by width n h
decreasing_by
  have hwidth := eq_width_of_words hw
  rw [width_succ]
  omega

def treeHeightInWords (n : Nat) : Option Nat := climbInWords n 0

/-- a call has to be at a node of the tree, no higher than a word has bits -/
def enter (n h p : Nat) : Option Unit := if h ≤ 32 ∧ p < width n h then some () else none

/-- the positions of the children of node `(h, p)`: the left one, and the right one if there is
one -/
def childrenInWords (n h p : Nat) : Option (Nat × Option Nat) := do
  let left ← word 32 (p * 2)
  if ← hasRightChildInWords n h p then
    let right ← word 32 (left + 1)
    return (left, some right)
  else
    return (left, none)

section
variable {n h p : Nat}

theorem widthInWords_eq (hn : n < 2 ^ 32) (hh : h ≤ 63) :
    widthInWords n h = some (width n h) := by
  have hpos : 1 ≤ 1 <<< h := by
    rw [Nat.one_shiftLeft]
    exact Nat.two_pow_pos h
  have hspan : 1 <<< h ≤ 2 ^ 63 := by
    rw [Nat.one_shiftLeft]
    exact Nat.pow_le_pow_right Nat.two_pos hh
  have hwidth : (n + 1 <<< h - 1) >>> h < 2 ^ 32 := (width_le n h).trans_lt hn
  rw [widthInWords, bind_of_eq_some (word_eq (by omega)), bind_of_eq_some (word_eq (by omega)),
    bind_of_eq_some (minus_eq (by omega)), word_eq hwidth, width]

theorem hasRightChildInWords_eq (hn : n < 2 ^ 32) (hh : h ≤ 63) (hp : p < 2 ^ 32) :
    hasRightChildInWords n (h + 1) p = some (hasRightChild n (h + 1) p) := by
  rw [hasRightChildInWords, bind_of_eq_some (minus_eq (Nat.le_add_left 1 h)),
    Nat.add_sub_cancel, bind_of_eq_some (widthInWords_eq hn hh),
    bind_of_eq_some (word_eq (by omega)), bind_of_eq_some (word_eq (by omega)), hasRightChild,
    Nat.mul_comm p 2]
  rfl

theorem enter_eq (hh : h ≤ 32) (hp : p < width n h) : enter n h p = some () := if_pos ⟨hh, hp⟩

theorem childrenInWords_eq (hn : n < 2 ^ 32) (hh : h + 1 ≤ 32) (hp : p < width n (h + 1)) :
    childrenInWords n (h + 1) p =
      some (2 * p, if hasRightChild n (h + 1) p then some (2 * p + 1) else none) := by
  have hleft : 2 * p < n := (left_lt_width hp).trans_le (width_le n h)
  have hright : hasRightChildInWords n (h + 1) p = some (hasRightChild n (h + 1) p) :=
    hasRightChildInWords_eq hn (by omega) (by omega)
  rw [childrenInWords, Nat.mul_comm p 2, bind_of_eq_some (word_eq (by omega)),
    bind_of_eq_some hright]
  cases both : hasRightChild n (h + 1) p with
  | true =>
    have hright : 2 * p + 1 < n := (right_lt_width both).trans_le (width_le n h)
    rw [if_pos rfl, if_pos rfl, word_eq (by omega)]
    rfl
  | false => rfl

theorem treeHeight_le_word (hn : n < 2 ^ 32) : treeHeight n ≤ 32 := treeHeight_le hn.le

theorem climbInWords_eq (hn : n < 2 ^ 32) (hh : h ≤ treeHeight n) :
    climbInWords n h = some (climb n h) := by
  have htop : treeHeight n ≤ 32 := treeHeight_le_word hn
  fun_induction climb n h with
  | case1 h hone =>
    rw [climbInWords, widthInWords_eq hn (by omega)]
    exact if_pos hone
  | case2 h hwide ih =>
    have hlow : h < treeHeight n := lt_treeHeight_iff.mpr (Nat.not_le.mp hwide)
    rw [climbInWords, widthInWords_eq hn (by omega)]
    show (if _ then _ else _) = _
    rw [if_neg hwide, if_pos (by omega)]
    exact ih hlow

theorem treeHeightInWords_eq (hn : n < 2 ^ 32) : treeHeightInWords n = some (treeHeight n) :=
  climbInWords_eq hn (Nat.zero_le _)

end

/-! ## the walks -/

def Walk.runInWords (combine : Combiner) (n : Nat) : Nat → Nat → Walk → Option (Hash × Walk)
  | 0, p, s => do
    enter n 0 p
    match s.flags with
    | [] => return (Hash.zero, s.fail .flagsExhausted)
    | flag :: rest => return { s with flags := rest }.takeLeaf flag p
  | h + 1, p, s => do
    enter n (h + 1) p
    match s.flags with
    | [] => return (Hash.zero, s.fail .flagsExhausted)
    | false :: rest => return { s with flags := rest }.takeHash
    | true :: rest =>
      let (l, r?) ← childrenInWords n (h + 1) p
      let (left, s) ← runInWords combine n h l { s with flags := rest }
      match r? with
      | some r =>
        let (right, s) ← runInWords combine n h r s
        return (combine left right,
          if right = left then s.fail (.identicalSiblings (h + 1) p) else s)
      | none => return (combine left left, s)

def nodeHashInWords (combine : Combiner) (leaves : Array Hash) : Nat → Nat → Option Hash
  | 0, p => do
    enter (← word 32 leaves.size) 0 p
    leaves[p]?
  | h + 1, p => do
    let n ← word 32 leaves.size
    enter n (h + 1) p
    let (l, r?) ← childrenInWords n (h + 1) p
    let left ← nodeHashInWords combine leaves h l
    match r? with
    | some r => return combine left (← nodeHashInWords combine leaves h r)
    | none => return combine left left

/-- whether a marked leaf stands below node `(h, p)`; the slice must hold a leaf and lie within the
marks -/
def hasMatchInWords (size : Nat) (marked : Array Bool) (h p : Nat) : Option Bool := do
  let start ← word 64 (p <<< h)
  let next ← word 64 (p + 1)
  let stop ← word 64 (next <<< h)
  if start < min stop size ∧ min stop size ≤ marked.size then
    return (marked.extract start (min stop size)).any id
  else none

def pruneInWords (combine : Combiner) (leaves : Array Hash) (marked : Array Bool) :
    Nat → Nat → Option (List Bool × List Hash)
  | 0, p => do
    enter (← word 32 leaves.size) 0 p
    let interesting ← hasMatchInWords leaves.size marked 0 p
    return ([interesting], [← nodeHashInWords combine leaves 0 p])
  | h + 1, p => do
    let n ← word 32 leaves.size
    enter n (h + 1) p
    if ← hasMatchInWords leaves.size marked (h + 1) p then
      let (l, r?) ← childrenInWords n (h + 1) p
      let left ← pruneInWords combine leaves marked h l
      match r? with
      | some r =>
        let right ← pruneInWords combine leaves marked h r
        return (true :: (left.1 ++ right.1), left.2 ++ right.2)
      | none => return (true :: left.1, left.2)
    else return ([false], [← nodeHashInWords combine leaves (h + 1) p])

def PartialTree.walkInWords (combine : Combiner) (t : PartialTree) : Option (Hash × Walk) := do
  let top ← treeHeightInWords t.leafCount.toNat
  Walk.runInWords combine t.leafCount.toNat top 0 ⟨t.flags, t.hashes, [], none⟩

def merkleRootInWords (combine : Combiner) (leaves : Array Hash) : Option Hash := do
  let top ← treeHeightInWords (← word 32 leaves.size)
  nodeHashInWords combine leaves top 0

def PartialTree.ofLeavesInWords (combine : Combiner) (leaves : Array Hash) (marked : Array Bool) :
    Option PartialTree := do
  let n ← word 32 leaves.size
  let top ← treeHeightInWords n
  let walk ← pruneInWords combine leaves marked top 0
  return ⟨UInt32.ofNat n, walk.1, walk.2⟩

section
variable {combine : Combiner} {n h p : Nat} {leaves : Array Hash} {marked : Array Bool}

theorem Walk.runInWords_eq (s : Walk) (hn : n < 2 ^ 32) (hh : h ≤ 32) (hp : p < width n h) :
    Walk.runInWords combine n h p s = some (Walk.run combine n h p s) := by
  induction h generalizing p s with
  | zero =>
    rw [Walk.runInWords, Walk.run, bind_of_eq_some (enter_eq hh hp)]
    cases s.flags <;> rfl
  | succ h ih =>
    have hlow : h ≤ 32 := Nat.le_of_succ_le hh
    rw [Walk.runInWords, Walk.run, bind_of_eq_some (enter_eq hh hp)]
    match s.flags with
    | [] => rfl
    | false :: rest => rfl
    | true :: rest =>
      simp only
      rw [bind_of_eq_some (childrenInWords_eq hn hh hp),
        bind_of_eq_some (ih _ hlow (left_lt_width hp))]
      cases both : hasRightChild n (h + 1) p with
      | true => exact bind_of_eq_some (ih _ hlow (right_lt_width both)) _
      | false => rfl

/-- the checks refuse a fourth node of three -/
example (s : Walk) : Walk.runInWords combine 5 1 3 s = none := by
  rw [Walk.runInWords, enter, if_neg (by decide)]
  rfl

theorem nodeHashInWords_eq (hn : leaves.size < 2 ^ 32) (hh : h ≤ 32)
    (hp : p < width leaves.size h) :
    nodeHashInWords combine leaves h p = some (nodeHash combine leaves h p) := by
  induction h generalizing p with
  | zero =>
    have hin : p < leaves.size := (lt_width_zero _ p).mp hp
    rw [nodeHashInWords, nodeHash, bind_of_eq_some (word_eq hn), bind_of_eq_some (enter_eq hh hp),
      Array.getElem?_eq_getElem hin, Array.getD, dif_pos hin]
    rfl
  | succ h ih =>
    have hlow : h ≤ 32 := Nat.le_of_succ_le hh
    rw [nodeHashInWords, nodeHash, bind_of_eq_some (word_eq hn), bind_of_eq_some (enter_eq hh hp),
      bind_of_eq_some (childrenInWords_eq hn hh hp)]
    simp only
    rw [bind_of_eq_some (ih hlow (left_lt_width hp))]
    cases both : hasRightChild leaves.size (h + 1) p with
    | true => exact bind_of_eq_some (ih hlow (right_lt_width both)) _
    | false => rfl

theorem hasMatchInWords_eq (hn : n < 2 ^ 32) (hm : marked.size = n)
    (hh : h ≤ 63) (hp : p < width n h) :
    hasMatchInWords n marked h p = some (hasMatch marked h p) := by
  have hfirst : p <<< h < n := by
    rw [Nat.shiftLeft_eq]
    exact (lt_width_iff n h p).mp hp
  have hspan : 2 ^ h ≤ 2 ^ 63 := Nat.pow_le_pow_right Nat.two_pos hh
  have hpos : 0 < 2 ^ h := Nat.two_pow_pos h
  have hstop : (p + 1) <<< h = p <<< h + 2 ^ h := by
    rw [Nat.shiftLeft_eq, Nat.shiftLeft_eq, Nat.succ_mul]
  have hlt : p < n := hp.trans_le (width_le n h)
  have hcut : marked.extract (p <<< h) (min ((p + 1) <<< h) n) =
      marked.extract (p <<< h) ((p + 1) <<< h) := by
    simp [Array.ext_iff, hm]
  rw [hasMatchInWords, bind_of_eq_some (word_eq (by omega)), bind_of_eq_some (word_eq (by omega)),
    bind_of_eq_some (word_eq (by omega)), if_pos (by omega), hcut, hasMatch]
  rfl

theorem pruneInWords_eq (hn : leaves.size < 2 ^ 32) (hm : marked.size = leaves.size)
    (hh : h ≤ 32) (hp : p < width leaves.size h) :
    pruneInWords combine leaves marked h p = some (prune combine leaves marked h p) := by
  induction h generalizing p with
  | zero =>
    rw [pruneInWords, prune, bind_of_eq_some (word_eq hn), bind_of_eq_some (enter_eq hh hp),
      bind_of_eq_some (hasMatchInWords_eq hn hm (hh.trans (by decide)) hp),
      bind_of_eq_some (nodeHashInWords_eq hn hh hp)]
    rfl
  | succ h ih =>
    have hlow : h ≤ 32 := Nat.le_of_succ_le hh
    rw [pruneInWords, prune, bind_of_eq_some (word_eq hn), bind_of_eq_some (enter_eq hh hp),
      bind_of_eq_some (hasMatchInWords_eq hn hm (hh.trans (by decide)) hp)]
    cases hasMatch marked (h + 1) p with
    | false => exact bind_of_eq_some (nodeHashInWords_eq hn hh hp) _
    | true =>
      rw [if_pos rfl, if_pos rfl, bind_of_eq_some (childrenInWords_eq hn hh hp)]
      simp only
      rw [bind_of_eq_some (ih hlow (left_lt_width hp))]
      cases both : hasRightChild leaves.size (h + 1) p with
      | true => exact bind_of_eq_some (ih hlow (right_lt_width both)) _
      | false => rfl

end

/-! ## whole walks -/

/-- **The walks keep to their words, to the tree and to their lists.** Every check passes, and what
the checked walks yield is what the walks yield: reading any tree that has a leaf, whatever its
flags and hashes are, the root over any list of leaves that a word counts, and building a tree over
it for any marks. -/
theorem walks_keep_to_words (combine : Combiner) :
    (∀ t : PartialTree, t.leafCount ≠ 0 → t.walkInWords combine = some (t.walk combine)) ∧
    ∀ leaves : Array Hash, 0 < leaves.size → leaves.size < UInt32.size →
      merkleRootInWords combine leaves = some (merkleRoot combine leaves) ∧
      ∀ marked : Array Bool, marked.size = leaves.size →
        PartialTree.ofLeavesInWords combine leaves marked =
          some (PartialTree.ofLeaves combine leaves marked) := by
  refine ⟨fun t ht => ?_, fun leaves hpos hn => ⟨?_, fun marked hm => ?_⟩⟩
  · have hn : t.leafCount.toNat < 2 ^ 32 := t.leafCount.toNat_lt
    have hpos : 0 < t.leafCount.toNat :=
      Nat.pos_of_ne_zero fun h0 => ht (UInt32.toNat_inj.mp h0)
    rw [PartialTree.walkInWords, bind_of_eq_some (treeHeightInWords_eq hn)]
    exact Walk.runInWords_eq _ hn (treeHeight_le_word hn) (root_lt_width hpos)
  · rw [merkleRootInWords, bind_of_eq_some (word_eq hn),
      bind_of_eq_some (treeHeightInWords_eq hn)]
    exact nodeHashInWords_eq hn (treeHeight_le_word hn) (root_lt_width hpos)
  · rw [PartialTree.ofLeavesInWords, bind_of_eq_some (word_eq hn),
      bind_of_eq_some (treeHeightInWords_eq hn)]
    exact bind_of_eq_some
      (pruneInWords_eq hn hm (treeHeight_le_word hn) (root_lt_width hpos)) _

/-- a tree over as many leaves as a word counts, with too few flags and no hash; and three leaves,
the last of them marked -/
theorem walks_keep_to_words_widest :
    ∃ (t : PartialTree) (leaves : Array Hash) (marked : Array Bool) (root : Hash),
      t.leafCount.toNat + 1 = UInt32.size ∧
        t.walkInWords (fun x _ => x) = some (Hash.zero, ⟨[], [], [], some .flagsExhausted⟩) ∧
          leaves.size = 3 ∧ marked = #[false, false, true] ∧
            merkleRootInWords (fun x _ => x) leaves = some root ∧ leaves[0]? = some root ∧
              (PartialTree.ofLeavesInWords (fun x _ => x) leaves marked).map (·.flags) =
                some [true, false, true, true] := by
  let t : PartialTree := ⟨0xffffffff, [true, true], []⟩
  let leaves : Array Hash := #[.fill 1, .fill 2, .fill 3]
  let marked : Array Bool := #[false, false, true]
  obtain ⟨hread, hwrite⟩ := walks_keep_to_words fun x _ => x
  obtain ⟨hroot, hbuild⟩ := hwrite leaves (by decide) (by decide)
  have hwalk : t.walk (fun x _ => x) = (Hash.zero, ⟨[], [], [], some .flagsExhausted⟩) := by
    decide +kernel
  have htop : merkleRoot (fun x _ => x) leaves = .fill 1 := by decide +kernel
  have hflags : (PartialTree.ofLeaves (fun x _ => x) leaves marked).flags =
      [true, false, true, true] := by decide +kernel
  refine ⟨t, leaves, marked, .fill 1, rfl, ?_, rfl, rfl, ?_, rfl, ?_⟩
  · rw [hread t (by decide), hwalk]
  · rw [hroot, htop]
  · rw [hbuild marked rfl, Option.map_some, hflags]

end BlockProof
