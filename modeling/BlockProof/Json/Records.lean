import BlockProof.Json.Text
import BlockProof.Prover

/-!
# JSON forms of types

A type has a JSON form if its values can be written as JSON and read back. Numbers must be numerals
without point and exponent, within the range of their type. A record is an object with each of its
fields exactly once, among members that are not looked at, or an array of exactly its fields. Fields
stand in a fixed order under fixed names, and nothing but their types is checked: a filter may have
any number of hash functions, and a tree need not be a proof.

* `JsonForm`            writing and reading a type;
* `Json.record`         the object for named fields;
* `Json.fields?`        the values of named fields, in the order of the names;
* `toJsonText`, `ofJsonText?`   whole texts.
-/

namespace BlockProof

/-! ## forms -/

class JsonForm (α : Type) where
  toJson : α → Json
  /-- the value with a given JSON form -/
  ofJson? : Json → Option α

export JsonForm (toJson ofJson?)

def toJsonText {α : Type} [JsonForm α] (x : α) : String := (toJson x).write

def ofJsonText? {α : Type} [JsonForm α] (s : String) : Option α := (Json.parse s).bind ofJson?

namespace Json

def int? : Json → Option Int
  | number n => n.toInt?
  | _ => none

def natBelow? (bound : Nat) (v : Json) : Option Nat := do
  let n ← v.int?
  if 0 ≤ n ∧ n < bound then some n.toNat else none

def ofNat (n : Nat) : Json := number (.ofNat n)

def record (fields : List (String × Json)) : Json :=
  object (fields.map fun (name, v) => (some name, v))

def member? (members : List (Literal × Json)) (name : String) : Option Json :=
  match members.filter fun m => m.1 = some name with
  | [m] => some m.2
  | _ => none

/-- the values of a record's fields, in the order of their names -/
def fields? (names : List String) : Json → Option (List Json)
  | array items => if items.length = names.length then some items else none
  | object members =>
    if members.all fun m => m.1.isSome then names.mapM (member? members) else none
  | _ => none

end Json

/-! ### numbers -/

instance : JsonForm UInt8 where
  toJson n := Json.ofNat n.toNat
  ofJson? v := (v.natBelow? UInt8.size).map UInt8.ofNat

instance : JsonForm UInt32 where
  toJson n := Json.ofNat n.toNat
  ofJson? v := (v.natBelow? UInt32.size).map UInt32.ofNat

instance : JsonForm UInt64 where
  toJson n := Json.ofNat n.toNat
  ofJson? v := (v.natBelow? UInt64.size).map UInt64.ofNat

instance : JsonForm Int32 where
  toJson n := .number (.ofInt n.toInt)
  ofJson? v := do
    let n ← v.int?
    if Int32.minValue.toInt ≤ n ∧ n ≤ Int32.maxValue.toInt then some (Int32.ofInt n) else none

/-- doubles are written with the fewest digits; what is not finite is written as nothing -/
instance : JsonForm Float where
  toJson x :=
    match Decimal.Binary64.ofFloat x with
    | .finite negative m e => .number (Decimal.FloatStyle.compact.numeral negative m e)
    | _ => .null
  ofJson? v :=
    match v with
    | .number n => n.toFloat?
    | _ => none

/-! ### lists and hashes -/

instance {α : Type} [JsonForm α] : JsonForm (List α) where
  toJson l := .array (l.map toJson)
  ofJson? v :=
    match v with
    | .array items => items.mapM ofJson?
    | _ => none

instance : JsonForm Hash where
  toJson x := toJson x.bytes
  ofJson? v := do
    let bytes ← ofJson? v
    Hash.ofBytes? bytes

/-! ## records -/

instance : JsonForm ProverConfig where
  toJson c := .record
    [("max_block_payload", toJson c.maxBlockPayload),
     ("min_transaction_size", toJson c.minTransactionSize)]
  ofJson? v := do
    match ← v.fields? ["max_block_payload", "min_transaction_size"] with
    | [payload, size] => return ⟨← ofJson? payload, ← ofJson? size⟩
    | _ => none

/-- a mode is written as its name; it may also be read from an object with that name and nothing
under it -/
instance : JsonForm UpdateMode where
  toJson m :=
    match m with
    | .none => .string (some "None")
    | .all => .string (some "All")
  ofJson? v :=
    match v with
    | .string (some "None") => some .none
    | .string (some "All") => some .all
    | .object [(some "None", .null)] => some .none
    | .object [(some "All", .null)] => some .all
    | _ => none

instance : JsonForm FilterConfig where
  toJson c := .record
    [("target_fpr", toJson c.targetRate), ("expected_elements", toJson c.expectedElements),
     ("tweak", toJson c.tweak), ("update", toJson c.update)]
  ofJson? v := do
    match ← v.fields? ["target_fpr", "expected_elements", "tweak", "update"] with
    | [rate, elements, tweak, update] =>
      return ⟨← ofJson? rate, ← ofJson? elements, ← ofJson? tweak, ← ofJson? update⟩
    | _ => none

instance : JsonForm BloomFilter where
  toJson f := .record
    [("bits", toJson f.toBytes), ("hash_funcs", toJson f.hashCount), ("tweak", toJson f.tweak),
     ("update", toJson f.update)]
  ofJson? v := do
    match ← v.fields? ["bits", "hash_funcs", "tweak", "update"] with
    | [bits, hashCount, tweak, update] =>
      return BloomFilter.ofBytes (← ofJson? bits) (← ofJson? hashCount) (← ofJson? tweak)
        (← ofJson? update)
    | _ => none

instance : JsonForm Header where
  toJson h := .record
    [("version", toJson h.version), ("prev_block", toJson h.prevBlock),
     ("merkle_root", toJson h.merkleRoot), ("timestamp", toJson h.timestamp),
     ("bits", toJson h.bits), ("nonce", toJson h.nonce)]
  ofJson? v := do
    match ← v.fields? ["version", "prev_block", "merkle_root", "timestamp", "bits", "nonce"] with
    | [version, prevBlock, merkleRoot, timestamp, bits, nonce] =>
      return ⟨← ofJson? version, ← ofJson? prevBlock, ← ofJson? merkleRoot, ← ofJson? timestamp,
        ← ofJson? bits, ← ofJson? nonce⟩
    | _ => none

instance : JsonForm Bool where
  toJson b := .bool b
  ofJson? v :=
    match v with
    | .bool b => some b
    | _ => none

instance : JsonForm PartialTree where
  toJson t := .record
    [("leaf_count", toJson t.leafCount), ("flag_bits", toJson t.flags),
     ("hash_list", toJson t.hashes)]
  ofJson? v := do
    match ← v.fields? ["leaf_count", "flag_bits", "hash_list"] with
    | [leafCount, flags, hashes] => return ⟨← ofJson? leafCount, ← ofJson? flags, ← ofJson? hashes⟩
    | _ => none

instance : JsonForm MatchedLeaf where
  toJson leaf := .record [("position", toJson leaf.position), ("hash", toJson leaf.hash)]
  ofJson? v := do
    match ← v.fields? ["position", "hash"] with
    | [position, hash] => return ⟨← ofJson? position, ← ofJson? hash⟩
    | _ => none

instance : JsonForm MatchResult where
  toJson r := .record [("root", toJson r.root), ("matches", toJson r.leaves)]
  ofJson? v := do
    match ← v.fields? ["root", "matches"] with
    | [root, leaves] => return ⟨← ofJson? root, ← ofJson? leaves⟩
    | _ => none

instance : JsonForm MerkleBlock where
  toJson b := .record [("header", toJson b.header), ("tree", toJson b.tree)]
  ofJson? v := do
    match ← v.fields? ["header", "tree"] with
    | [header, tree] => return ⟨← ofJson? header, ← ofJson? tree⟩
    | _ => none

instance : JsonForm OutPoint where
  toJson o := .record [("txid", toJson o.txid), ("vout", toJson o.vout)]
  ofJson? v := do
    match ← v.fields? ["txid", "vout"] with
    | [txid, vout] => return ⟨← ofJson? txid, ← ofJson? vout⟩
    | _ => none

instance : JsonForm TxOut where
  toJson o := .record [("value", toJson o.value), ("script_pubkey", toJson o.scriptPubkey)]
  ofJson? v := do
    match ← v.fields? ["value", "script_pubkey"] with
    | [value, script] => return ⟨← ofJson? value, ← ofJson? script⟩
    | _ => none

instance : JsonForm Transaction where
  toJson tx := .record
    [("txid", toJson tx.txid), ("inputs", toJson tx.inputs), ("outputs", toJson tx.outputs)]
  ofJson? v := do
    match ← v.fields? ["txid", "inputs", "outputs"] with
    | [txid, inputs, outputs] => return ⟨← ofJson? txid, ← ofJson? inputs, ← ofJson? outputs⟩
    | _ => none

instance : JsonForm Block where
  toJson b := .record [("header", toJson b.header), ("transactions", toJson b.transactions)]
  ofJson? v := do
    match ← v.fields? ["header", "transactions"] with
    | [header, transactions] => return ⟨← ofJson? header, ← ofJson? transactions⟩
    | _ => none

end BlockProof
