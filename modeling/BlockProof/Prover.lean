import BlockProof.Filter

/-!
# Provers: making and checking merkle blocks under a bound

A `Prover` holds the combiner of a tree and a configuration, from which the bound on the number of
leaves follows: no block holds more transactions than smallest ones fit into its payload. A filtered
block is what a peer sends in place of a block: the merkle block that proves every transaction a
matcher let pass.

* `ProverConfig`            the two sizes, `ProverConfig.maxLeafCount` and `ProverConfig.validate`;
* `Misuse`                  what a caller must not ask for;
* `Prover.make`             a prover, or what is wrong with its configuration;
* `Prover.prove`            a merkle block for marked leaves, and their positions;
* `Prover.proveSet`         the same for the leaves that belong to a set;
* `Prover.verify`           reads a proof and compares its root with the header's;
* `matchBitmap`, `matchedIndices`   which transactions pass;
* `FilteringFailure`        why there is no filtered block;
* `Prover.filterBlock`      the merkle block, the positions, and the matcher afterwards.
-/

namespace BlockProof

/-! ## configuration -/

/-- the sizes that bound how many transactions a block can hold -/
structure ProverConfig where
  maxBlockPayload : UInt32
  minTransactionSize : UInt32
deriving DecidableEq

inductive ConfigError where
  | zeroTransactionSize
  | payloadBelowOneTransaction (payload minSize : UInt32)
deriving DecidableEq

def ConfigError.message : ConfigError → String
  | zeroTransactionSize => "min_transaction_size must be > 0"
  | payloadBelowOneTransaction payload minSize =>
    "max_block_payload " ++ toString payload.toNat ++ " is smaller than one transaction (" ++
      toString minSize.toNat ++ " bytes)"

namespace ProverConfig

/-- blocks of 32 MB, and the smallest transaction there can be -/
def standard : ProverConfig := ⟨32000000, 61⟩

def trial : ProverConfig := ⟨1000000, 61⟩

instance : Inhabited ProverConfig := ⟨standard⟩

def maxLeafCount (c : ProverConfig) : UInt32 :=
  if c.minTransactionSize = 0 then 0 else c.maxBlockPayload / c.minTransactionSize

def validate (c : ProverConfig) : Except ConfigError Unit :=
  if c.minTransactionSize = 0 then .error .zeroTransactionSize
  else if c.maxLeafCount = 0 then
    .error (.payloadBelowOneTransaction c.maxBlockPayload c.minTransactionSize)
  else .ok ()

end ProverConfig

inductive Misuse where
  | noLeaves
  | lengthMismatch
  | tooManyLeaves
  | invalidConfig (e : ConfigError)
deriving DecidableEq

def Misuse.message : Misuse → String
  | noLeaves => "partial merkle tree needs at least one leaf"
  | lengthMismatch => "leaf list and match bitmap differ in length"
  | tooManyLeaves => "too many leaves"
  | invalidConfig e => "invalid partial merkle config: " ++ e.message

def checkLeaves (leaves : Array Hash) (marked : Array Bool) : Except Misuse Unit :=
  if leaves.isEmpty then .error .noLeaves
  else if leaves.size ≠ marked.size then .error .lengthMismatch
  else if UInt32.size ≤ leaves.size then .error .tooManyLeaves
  else .ok ()

/-- the proof for the marked leaves, after a check that it can be built -/
def PartialTree.build (combine : Combiner) (leaves : Array Hash) (marked : Array Bool) :
    Except Misuse PartialTree := do
  checkLeaves leaves marked
  return PartialTree.ofLeaves combine leaves marked

/-! ## provers -/

structure Prover where
  combine : Combiner
  config : ProverConfig
  valid : config.validate = .ok ()

namespace Prover

def make (combine : Combiner) (config : ProverConfig) : Except ConfigError Prover :=
  match h : config.validate with
  | .ok () => .ok ⟨combine, config, h⟩
  | .error e => .error e

/-- a prover for a configuration that the caller vouches for -/
def ofConfig (combine : Combiner) (config : ProverConfig) : Except Misuse Prover :=
  (make combine config).mapError .invalidConfig

def standard : Prover := ⟨Combiner.doubleSha256, ProverConfig.standard, rfl⟩

def maxLeafCount (p : Prover) : UInt32 := p.config.maxLeafCount

def markedPositions (marked : Array Bool) : List UInt32 :=
  ((List.range marked.size).filter fun i => marked.getD i false).map UInt32.ofNat

/-- a merkle block for the marked leaves; meant for a list that is not empty, with one mark a
leaf -/
def merkleBlock (p : Prover) (header : Header) (txids : Array Hash) (marked : Array Bool) :
    MerkleBlock :=
  ⟨header, PartialTree.ofLeaves p.combine txids marked⟩

/-- a merkle block for the marked leaves, and their positions, after a check that it can be built -/
def prove (p : Prover) (header : Header) (txids : Array Hash) (marked : Array Bool) :
    Except Misuse (MerkleBlock × List UInt32) := do
  checkLeaves txids marked
  return (p.merkleBlock header txids marked, markedPositions marked)

def proveSet (p : Prover) (header : Header) (txids : Array Hash) (wanted : List Hash) :
    Except Misuse (MerkleBlock × List UInt32) :=
  p.prove header txids (txids.map fun x => decide (x ∈ wanted))

def extract (p : Prover) (t : PartialTree) : Except ProofError MatchResult :=
  t.extract p.combine p.maxLeafCount

def verify (p : Prover) (b : MerkleBlock) : Except ProofError MatchResult := do
  let result ← p.extract b.tree
  checkRoot b.header.merkleRoot result.root
  return result

end Prover

/-- reads the proof and compares its root with the header's, as the standard prover does -/
def MerkleBlock.verify (b : MerkleBlock) : Except ProofError MatchResult :=
  Prover.standard.verify b

/-! ## filtered blocks -/

/-- for each transaction whether it passes, and the matcher afterwards -/
def matchBitmap {σ : Type} (ask : Matcher σ) (b : Block) (m : σ) : Array Bool × σ :=
  let s := scan ask b.transactions m
  (s.passed, s.matcher)

def matchedIndices {σ : Type} (ask : Matcher σ) (b : Block) (m : σ) : List UInt32 :=
  Prover.markedPositions (matchBitmap ask b m).1

/-- the proof for the transactions that a matcher let pass -/
structure FilteredBlock (σ : Type) where
  merkleBlock : MerkleBlock
  indices : List UInt32
  matcher : σ

/-- a block is refused, or its proof must not be asked for -/
inductive FilteringFailure where
  | refused (e : FilterError)
  | misused (e : Misuse)

/-- scans a block and proves what passes; a block without transactions cannot be proven -/
def Prover.filterBlock {σ : Type} (p : Prover) (ask : Matcher σ) (b : Block) (m : σ) :
    Except FilteringFailure (FilteredBlock σ) :=
  if b.transactions.isEmpty then .error (.refused (.proof .noTransactions))
  else
    let s := matchBitmap ask b m
    ((p.prove b.header b.txids.toArray s.1).mapError .misused).map fun r => ⟨r.1, r.2, s.2⟩

theorem Prover.filterBlock_of_ne_nil {σ : Type} (p : Prover) (ask : Matcher σ) {b : Block} (m : σ)
    (hne : b.transactions ≠ []) : p.filterBlock ask b m =
      ((p.prove b.header b.txids.toArray (matchBitmap ask b m).1).mapError .misused).map
        fun r => ⟨r.1, r.2, (matchBitmap ask b m).2⟩ :=
  if_neg (by rw [List.isEmpty_iff]; exact hne)

end BlockProof
