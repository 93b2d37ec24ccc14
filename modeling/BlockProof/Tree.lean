import BlockProof.Hash

/-!
# Partial trees: proofs that leaves stand under a root

A node of a tree over `n` leaves is a pair of a height, with the leaves at height 0, and a position
counted from the left. An odd node at the end of its level has no sibling: its parent has one child,
which counts twice in the parent's hash.

A partial tree lists, in the order of a walk from the root that goes left before right, one flag a
visited node and one hash a node at which the walk stops. The builder marks each node with whether a
marked leaf stands below it, goes on below marked inner nodes and stops everywhere else. The reader
repeats that walk with nothing but the proof in hand.

* `width`, `treeHeight`, `hasRightChild`   the layout, for builder and reader alike;
* `nodeHash`, `merkleRoot?`   the hash of a node, and of the root of a list that is not empty;
* `PartialTree`, `MatchResult`   what a proof carries, and what it shows;
* `PartialTree.ofLeaves`      the proof for marked leaves;
* `ProofError`                the causes of a refusal, in the order in which reading looks for them;
* `Walk.run`                  the reader's walk from a node, and the hash of that node;
* `PartialTree.extract`       the rules on counts, the walk from the root, and what must be used up.
-/

namespace BlockProof

/-! ## the shape of a tree -/

def width (n h : Nat) : Nat := (n + 1 <<< h - 1) >>> h

theorem width_zero (n : Nat) : width n 0 = n := by simp [width]

theorem width_succ (n h : Nat) : width n (h + 1) = (width n h + 1) / 2 := by
  have hpos : 0 < 2 ^ h := Nat.two_pow_pos h
  have hsum : n + 2 ^ (h + 1) - 1 = n + 2 ^ h - 1 + 2 ^ h := by
    rw [Nat.pow_succ]
    omega
  have hup : (n + 2 ^ h - 1) / 2 ^ h + 1 = (n + 2 ^ (h + 1) - 1) / 2 ^ h := by
    rw [hsum, Nat.add_div_right _ hpos]
  simp only [width, Nat.one_shiftLeft, Nat.shiftRight_eq_div_pow]
  rw [hup, Nat.div_div_eq_div_mul, ← Nat.pow_succ]

/-- the least height from `h` on that has at most one node -/
def climb (n h : Nat) : Nat :=
  if width n h ≤ 1 then h else climb n (h + 1)
termination_by width n h
decreasing_by
  rw [width_succ]
  omega

/-- the height of the root over `n` leaves; `0` when there is no leaf -/
def treeHeight (n : Nat) : Nat := climb n 0

def hasRightChild (n h p : Nat) : Bool := 2 * p + 1 < width n (h - 1)

theorem hasRightChild_succ (n h p : Nat) :
    hasRightChild n (h + 1) p = decide (2 * p + 1 < width n h) := rfl

/-! ## node hashes and the root -/

def nodeHash (combine : Combiner) (leaves : Array Hash) : Nat → Nat → Hash
  | 0, p => leaves.getD p Hash.zero
  | h + 1, p =>
    let left := nodeHash combine leaves h (2 * p)
    if hasRightChild leaves.size (h + 1) p then
      combine left (nodeHash combine leaves h (2 * p + 1))
    else combine left left

/-- the hash of node `(h, p)`; every node on the way down is on the tree if the first leaf is, so
that leaf decides -/
def nodeHash? (combine : Combiner) (leaves : Array Hash) (h p : Nat) : Option Hash :=
  if p <<< h < leaves.size then some (nodeHash combine leaves h p) else none

def merkleRoot (combine : Combiner) (leaves : Array Hash) : Hash :=
  nodeHash combine leaves (treeHeight leaves.size) 0

def merkleRoot? (combine : Combiner) (leaves : Array Hash) : Option Hash :=
  if leaves.isEmpty then none else some (merkleRoot combine leaves)

theorem merkleRoot?_eq_some_iff {combine : Combiner} {leaves : Array Hash} {root : Hash} :
    merkleRoot? combine leaves = some root ↔ 0 < leaves.size ∧ root = merkleRoot combine leaves := by
  have hempty : leaves.isEmpty = decide (leaves.size = 0) := rfl
  rw [merkleRoot?, hempty]
  by_cases h : leaves.size = 0
  · simp [h]
  · simp [h, Nat.pos_of_ne_zero h, eq_comm]

/-! ## what a proof carries and what it shows -/

/-- a proof that some leaves stand under a root -/
@[ext]
structure PartialTree where
  leafCount : UInt32
  flags : List Bool
  hashes : List Hash
deriving DecidableEq

instance : Inhabited PartialTree := ⟨⟨0, [], []⟩⟩

structure MatchedLeaf where
  position : UInt32
  hash : Hash
deriving DecidableEq

def MatchedLeaf.display (leaf : MatchedLeaf) : String :=
  leaf.hash.toHex ++ "@" ++ toString leaf.position.toNat

structure MatchResult where
  root : Hash
  leaves : List MatchedLeaf
deriving DecidableEq

/-! ## building -/

def hasMatch (marked : Array Bool) (h p : Nat) : Bool :=
  (marked.extract (p <<< h) ((p + 1) <<< h)).any id

/-- the flags and the hashes of the walk from node `(h, p)` -/
def prune (combine : Combiner) (leaves : Array Hash) (marked : Array Bool) :
    Nat → Nat → List Bool × List Hash
  | 0, p => ([hasMatch marked 0 p], [nodeHash combine leaves 0 p])
  | h + 1, p =>
    if hasMatch marked (h + 1) p then
      let left := prune combine leaves marked h (2 * p)
      if hasRightChild leaves.size (h + 1) p then
        let right := prune combine leaves marked h (2 * p + 1)
        (true :: (left.1 ++ right.1), left.2 ++ right.2)
      else (true :: left.1, left.2)
    else ([false], [nodeHash combine leaves (h + 1) p])

namespace PartialTree

/-- the proof for the marked leaves; meant for a list that is not empty, with one mark a leaf -/
def ofLeaves (combine : Combiner) (leaves : Array Hash) (marked : Array Bool) : PartialTree :=
  let walk := prune combine leaves marked (treeHeight leaves.size) 0
  ⟨UInt32.ofNat leaves.size, walk.1, walk.2⟩

end PartialTree

/-! ## why a proof is refused -/

inductive ProofError where
  | noTransactions
  | tooManyTransactions (count max : UInt32)
  | tooManyHashes (hashes : Nat) (transactions : UInt32)
  | notEnoughBits (bits hashes : Nat)
  | flagsExhausted
  | hashesExhausted
  | identicalSiblings (height position : Nat)
  | flagsLeftOver (used total : Nat)
  | hashesLeftOver (used total : Nat)
  /-- the proof is sound in itself and leads to another root than the header's -/
  | rootMismatch (expected computed : Hash)
deriving DecidableEq

namespace ProofError

/-- whether the tree itself is at fault, whatever header it came with -/
def isInvalidTree : ProofError → Bool
  | rootMismatch _ _ => false
  | _ => true

def byteList (x : Hash) : String :=
  "[" ++ ", ".intercalate (x.bytes.map fun b => toString b.toNat) ++ "]"

def message : ProofError → String
  | noTransactions => "Partial merkle tree contains no transactions"
  | tooManyTransactions count max =>
    "Too many transactions: " ++ toString count.toNat ++ " > " ++ toString max.toNat
  | tooManyHashes hashes transactions =>
    "Proof contains more hashes than transactions: " ++ toString hashes ++ " > " ++
      toString transactions.toNat
  | notEnoughBits bits hashes =>
    "Proof contains fewer flag bits than hashes: " ++ toString bits ++ " < " ++ toString hashes
  | flagsExhausted => "Overflowed the flag bits array"
  | hashesExhausted => "Overflowed the hashes array"
  | identicalSiblings height position =>
    "Identical sibling hashes at height " ++ toString height ++ ", position " ++ toString position
  | flagsLeftOver used total =>
    "Not all flag bits were consumed: used " ++ toString used ++ " of " ++ toString total
  | hashesLeftOver used total =>
    "Not all hashes were consumed: used " ++ toString used ++ " of " ++ toString total
  | rootMismatch expected computed =>
    "Merkle root mismatch: header " ++ byteList expected ++ ", computed " ++ byteList computed

end ProofError

/-! ### rules on counts

Flags travel in whole bytes, so up to seven flags of padding may be left over; a whole byte of them
may not. -/

def checkLeafCount (count max : UInt32) : Except ProofError Unit :=
  if count = 0 then .error .noTransactions
  else if max < count then .error (.tooManyTransactions count max)
  else .ok ()

def checkHashCount (hashes : Nat) (count : UInt32) : Except ProofError Unit :=
  if count.toNat < hashes then .error (.tooManyHashes hashes count) else .ok ()

def checkFlagCount (bits hashes : Nat) : Except ProofError Unit :=
  if bits < hashes then .error (.notEnoughBits bits hashes) else .ok ()

def checkHashesUsed (used total : Nat) : Except ProofError Unit :=
  if used ≠ total then .error (.hashesLeftOver used total) else .ok ()

/-- the flags used reach into the last byte of all flags -/
def checkFlagsUsed (used total : Nat) : Except ProofError Unit :=
  if (used + 7) / 8 ≠ (total + 7) / 8 then .error (.flagsLeftOver used total) else .ok ()

def checkRoot (expected computed : Hash) : Except ProofError Unit :=
  if expected ≠ computed then .error (.rootMismatch expected computed) else .ok ()

/-! ## reading

A proof that runs short does not stop the walk; a zero hash stands in and the first failure is kept,
to be reported once the walk is over. -/

/-- the state of a walk: flags and hashes not yet used, the leaves found so far with the newest
first, and the first failure -/
structure Walk where
  flags : List Bool
  hashes : List Hash
  found : List MatchedLeaf
  failure : Option ProofError
deriving DecidableEq

namespace Walk

def fail (s : Walk) (e : ProofError) : Walk :=
  { s with failure := s.failure <|> some e }

/-- the next hash; zero stands in if none is left -/
def takeHash (s : Walk) : Hash × Walk :=
  match s.hashes with
  | [] => (Hash.zero, s.fail .hashesExhausted)
  | x :: rest => (x, { s with hashes := rest })

def takeLeaf (s : Walk) (flag : Bool) (p : Nat) : Hash × Walk :=
  match s.hashes with
  | [] => (Hash.zero, s.fail .hashesExhausted)
  | x :: rest =>
    (x, { s with
      hashes := rest
      found := if flag then ⟨UInt32.ofNat p, x⟩ :: s.found else s.found })

/-- the walk from node `(h, p)` of a tree over `n` leaves, and the hash of that node -/
def run (combine : Combiner) (n : Nat) : Nat → Nat → Walk → Hash × Walk
  | 0, p, s =>
    match s.flags with
    | [] => (Hash.zero, s.fail .flagsExhausted)
    | flag :: rest => { s with flags := rest }.takeLeaf flag p
  | h + 1, p, s =>
    match s.flags with
    | [] => (Hash.zero, s.fail .flagsExhausted)
    | false :: rest => { s with flags := rest }.takeHash
    | true :: rest =>
      let (left, s) := run combine n h (2 * p) { s with flags := rest }
      if hasRightChild n (h + 1) p then
        let (right, s) := run combine n h (2 * p + 1) s
        (combine left right, if right = left then s.fail (.identicalSiblings (h + 1) p) else s)
      else (combine left left, s)

end Walk

namespace PartialTree

def walk (combine : Combiner) (t : PartialTree) : Hash × Walk :=
  Walk.run combine t.leafCount.toNat (treeHeight t.leafCount.toNat) 0 ⟨t.flags, t.hashes, [], none⟩

/-- the root that the walk leads to and the leaves it shows, unless the walk fails or leaves a hash
or a whole byte of flags over -/
def replay (combine : Combiner) (t : PartialTree) : Except ProofError MatchResult :=
  let (root, s) := t.walk combine
  match s.failure with
  | some e => .error e
  | none => do
    checkHashesUsed (t.hashes.length - s.hashes.length) t.hashes.length
    checkFlagsUsed (t.flags.length - s.flags.length) t.flags.length
    return ⟨root, s.found.reverse⟩

/-- the root that the proof leads to and the leaves it shows, for a tree of at most `max` leaves -/
def extract (combine : Combiner) (max : UInt32) (t : PartialTree) :
    Except ProofError MatchResult := do
  checkLeafCount t.leafCount max
  checkHashCount t.hashes.length t.leafCount
  checkFlagCount t.flags.length t.hashes.length
  t.replay combine

end PartialTree

end BlockProof
