import BlockProof.Hash

/-!
# Blocks, and how they are scanned

A header is eighty bytes that commit to a block. A transaction is named by its id, spends outputs of
others by `OutPoint`, and creates outputs whose scripts carry the data that filters look for.

A matcher may learn from what it lets pass, so its answers depend on what it was asked before. A
block need not list a transaction before those that spend it. A scan therefore asks about each
transaction in block order, and whenever one passes it asks again about the transactions met so far
that spend it, and so on along chains of spends.

* `Header`, `Header.toBytes`, `Header.blockHash`   the six fields, their wire form and its hash;
* `OutPoint.toBytes`      id, then index, thirty-six bytes: the form in which filters hold it;
* `Block.txids`           the leaves of the block's tree;
* `Matcher`               an arbitrary state, and how it answers;
* `spenders`              the transactions met so far that spend from a given one;
* `inputCount`            how often the transactions spend at all; this bounds what is pending;
* `Scan`, `Scan.settle`   the matcher's state, what has passed and every call made; all pending
                          questions answered;
* `scan`                  the whole block.
-/

namespace BlockProof

/-! ## headers -/

@[ext]
structure Header where
  version : Int32
  prevBlock : Hash
  merkleRoot : Hash
  timestamp : UInt32
  bits : UInt32
  nonce : UInt32
deriving DecidableEq

namespace Header

instance : Inhabited Header := ⟨⟨0, Hash.zero, Hash.zero, 0, 0, 0⟩⟩

def toBytes (h : Header) : List UInt8 :=
  littleEndian 4 h.version.toUInt32.toNat ++ h.prevBlock.bytes ++ h.merkleRoot.bytes ++
    littleEndian 4 h.timestamp.toNat ++ littleEndian 4 h.bits.toNat ++ littleEndian 4 h.nonce.toNat

@[simp]
theorem length_toBytes (h : Header) : h.toBytes.length = 80 := by
  simp [toBytes]

def blockHash (h : Header) : Hash := doubleSha256 h.toBytes

end Header

/-! ## transactions and blocks -/

structure OutPoint where
  txid : Hash
  vout : UInt32
deriving DecidableEq

structure TxOut where
  value : UInt64
  scriptPubkey : List UInt8
deriving DecidableEq

structure Transaction where
  txid : Hash
  inputs : List OutPoint
  outputs : List TxOut
deriving DecidableEq

/-- a header and the transactions under it, in block order -/
structure Block where
  header : Header
  transactions : List Transaction
deriving DecidableEq

def OutPoint.toBytes (o : OutPoint) : List UInt8 :=
  o.txid.bytes ++ littleEndian 4 o.vout.toNat

@[simp]
theorem OutPoint.length_toBytes (o : OutPoint) : o.toBytes.length = 36 := by
  simp [OutPoint.toBytes]

def Transaction.outPoint (tx : Transaction) (i : Nat) : OutPoint := ⟨tx.txid, UInt32.ofNat i⟩

def Transaction.created (tx : Transaction) : List OutPoint :=
  (List.range tx.outputs.length).map tx.outPoint

def Block.txids (b : Block) : List Hash := b.transactions.map (·.txid)

/-! ## scans -/

/-- how a matcher in some state answers for a transaction, and its state afterwards -/
abbrev Matcher (σ : Type) := σ → Transaction → Bool × σ

/-- the positions, among the first `met` transactions, of those that spend from `txid`; a position
comes once for each input that does -/
def spenders (txs : List Transaction) (met : Nat) (txid : Hash) : List Nat :=
  (txs.take met).zipIdx.flatMap fun (tx, i) =>
    (tx.inputs.filter fun o => o.txid = txid).map fun _ => i

def inputCount (txs : List Transaction) : Nat := (txs.flatMap fun tx => tx.inputs).length

theorem length_spends_le (txs : List Transaction) (txid : Hash) (k : Nat) :
    ((txs.zipIdx k).flatMap fun (tx, i) =>
      (tx.inputs.filter fun o => o.txid = txid).map fun _ => i).length ≤ inputCount txs := by
  induction txs generalizing k with
  | nil => exact Nat.le_refl _
  | cons tx txs ih =>
    rw [List.zipIdx_cons, List.flatMap_cons, List.length_append, List.length_map, inputCount,
      List.flatMap_cons, List.length_append]
    exact Nat.add_le_add (List.length_filter_le _ _) (ih (k + 1))

theorem length_spenders_le (txs : List Transaction) (met : Nat) (txid : Hash) :
    (spenders txs met txid).length ≤ inputCount (txs.take met) :=
  length_spends_le (txs.take met) txid 0

/-- a scan under way: the matcher's state, which transactions have passed, and the calls made so
far with their answers, the newest first -/
structure Scan (σ : Type) where
  matcher : σ
  passed : Array Bool
  calls : List (Nat × Bool)

namespace Scan

variable {σ : Type}

def start (m : σ) (n : Nat) : Scan σ := ⟨m, Array.replicate n false, []⟩

def log (s : Scan σ) : List (Nat × Bool) := s.calls.reverse

theorem count_setIfInBounds_lt {passed : Array Bool} {i : Nat} (h : passed[i]? = some false) :
    (passed.setIfInBounds i true).count false < passed.count false := by
  obtain ⟨hi, hval⟩ := Array.getElem?_eq_some_iff.1 h
  have hpos : 0 < passed.count false := Array.count_pos_iff.2 (hval ▸ Array.getElem_mem hi)
  rw [Array.setIfInBounds, dif_pos hi, Array.count_set hi, if_pos (beq_iff_eq.2 hval),
    if_neg (by decide)]
  exact Nat.sub_one_lt_of_lt hpos

/-- asks about the pending transactions in turn; when one passes, those that spend from it are
asked about next; each call that goes on leaves fewer transactions that have not passed, or fewer
questions -/
def settle (ask : Matcher σ) (txs : List Transaction) (met : Nat) : List Nat → Scan σ → Scan σ
  | [], s => s
  | i :: pending, s =>
    if _h : s.passed[i]? = some false then
      match txs[i]? with
      | none => settle ask txs met pending s
      | some tx =>
        let (answer, m) := ask s.matcher tx
        if answer then
          settle ask txs met (spenders txs met tx.txid ++ pending)
            ⟨m, s.passed.setIfInBounds i true, (i, true) :: s.calls⟩
        else settle ask txs met pending ⟨m, s.passed, (i, false) :: s.calls⟩
    else settle ask txs met pending s
termination_by pending s => s.passed.count false * (inputCount (txs.take met) + 1) + pending.length
decreasing_by
  · exact Nat.lt_succ_self _
  · have hcount := Nat.mul_le_mul_right (inputCount (txs.take met) + 1) (count_setIfInBounds_lt _h)
    have hspend := length_spenders_le txs met tx.txid
    rw [Nat.succ_mul] at hcount
    rw [List.length_append, List.length_cons]
    omega
  · exact Nat.lt_succ_self _
  · exact Nat.lt_succ_self _

end Scan

def scan {σ : Type} (ask : Matcher σ) (txs : List Transaction) (m : σ) : Scan σ :=
  (List.range txs.length).foldl (fun s i => s.settle ask txs (i + 1) [i]) (Scan.start m txs.length)

end BlockProof
