import BlockProof.Block
import BlockProof.Tree

/-!
# The wire form of headers, trees and merkle blocks

A `Reader` takes what it needs from the front of a byte string and hands back the rest, or says why
it cannot. A merkle block is a header and a partial tree. The tree travels as the count of leaves in
four bytes, the hashes after their count, and the packed flags after their count of bytes.

* `WireError`             the causes of a refusal;
* `takeBytes n`, `readNat w`, `readMany r n`, `readAll r`   bytes, numbers, several values, and one
                          value that leaves nothing over;
* `CompactSize.encode`, `CompactSize.decode`   counts in one to nine bytes;
* `readCount size`        the count of a list whose elements take `size` bytes each, refused before
                          any element is looked at if the list would be too long;
* `packBits`, `unpackBits`   flags to bytes, and all bits of all bytes;
* `MerkleBlock`           a header and the proof that goes with it;
* `encode…`, `read…`      the wire form of each type, and its reader;
* `WireValue`, `WireType`, `readStream`   values of these types one after another.
-/

namespace BlockProof

/-! ## reading from the front -/

def maxListBytes : Nat := 4000000

inductive WireError where
  | unexpectedEnd
  | nonMinimal
  | oversized (requested : Nat)
  | trailingBytes (count : Nat)
deriving DecidableEq

def WireError.message : WireError → String
  | unexpectedEnd => "I/O error: failed to fill whole buffer"
  | nonMinimal => "Non-minimal varint encoding"
  | oversized requested =>
    "Oversized vector: " ++ toString requested ++ " bytes > " ++ toString maxListBytes
  | trailingBytes count => "Trailing bytes after message: " ++ toString count

/-- takes a value from the front of a byte string and leaves the rest -/
abbrev Reader (α : Type) := List UInt8 → Except WireError (α × List UInt8)

def takeBytes (n : Nat) : Reader (List UInt8) := fun bs =>
  let front := bs.take n
  if front.length = n then .ok (front, bs.drop n) else .error .unexpectedEnd

def readNat (w : Nat) : Reader Nat := fun bs => do
  let (front, bs) ← takeBytes w bs
  return (ofLittleEndian front, bs)

/-- values, `n` of them one after another, after those in `done`, the newest of which comes first -/
def readManyOnto {α : Type} (r : Reader α) : Nat → List α → Reader (List α)
  | 0, done, bs => .ok (done.reverse, bs)
  | n + 1, done, bs =>
    match r bs with
    | .error e => .error e
    | .ok (x, bs) => readManyOnto r n (x :: done) bs

def readMany {α : Type} (r : Reader α) (n : Nat) : Reader (List α) := readManyOnto r n []

def readAll {α : Type} (r : Reader α) (bs : List UInt8) : Except WireError α := do
  let (x, rest) ← r bs
  if rest.isEmpty then .ok x else .error (.trailingBytes rest.length)

theorem takeBytes_append {n : Nat} {front : List UInt8} (h : front.length = n)
    (rest : List UInt8) : takeBytes n (front ++ rest) = .ok (front, rest) := by
  subst h
  simp [takeBytes]

theorem readManyOnto_eq {α : Type} (r : Reader α) (n : Nat) (done : List α) (bs : List UInt8) :
    readManyOnto r n done bs =
      (readManyOnto r n [] bs).map fun (xs, rest) => (done.reverse ++ xs, rest) := by
  induction n generalizing done bs with
  | zero => simp [readManyOnto, Except.map]
  | succ n ih =>
    simp only [readManyOnto]
    cases h : r bs with
    | error e => rfl
    | ok v =>
      obtain ⟨x, bs⟩ := v
      simp only
      rw [ih (x :: done), ih [x]]
      cases readManyOnto r n [] bs <;> simp [Except.map]

theorem readMany_zero {α : Type} (r : Reader α) (bs : List UInt8) :
    readMany r 0 bs = .ok ([], bs) := rfl

theorem readMany_succ {α : Type} (r : Reader α) (n : Nat) (bs : List UInt8) :
    readMany r (n + 1) bs = (do
      let (x, bs) ← r bs
      let (xs, bs) ← readMany r n bs
      return (x :: xs, bs)) := by
  simp only [readMany, readManyOnto]
  cases r bs with
  | error e => rfl
  | ok v =>
    obtain ⟨x, bs⟩ := v
    simp only [bind, Except.bind]
    rw [readManyOnto_eq]
    cases readManyOnto r n [] bs with
    | error e => rfl
    | ok v => rfl

/-! ## counts

A count below `0xfd` is one byte. A larger one is a marker byte, `0xfd`, `0xfe` or `0xff`, and two,
four or eight bytes. Only the shortest form that holds the count is accepted. -/

namespace CompactSize

def encode (n : UInt64) : List UInt8 :=
  if n < 0xfd then [n.toUInt8]
  else if n < 0x10000 then 0xfd :: littleEndian 2 n.toNat
  else if n < 0x100000000 then 0xfe :: littleEndian 4 n.toNat
  else 0xff :: littleEndian 8 n.toNat

def encodedLength (n : UInt64) : Nat :=
  if n < 0xfd then 1 else if n < 0x10000 then 3 else if n < 0x100000000 then 5 else 9

/-- the `w` bytes after a marker, which must not spell a count below `least` -/
def decodeBody (w least : Nat) : Reader UInt64 := fun bs => do
  let (n, bs) ← readNat w bs
  if n < least then .error .nonMinimal else .ok (UInt64.ofNat n, bs)

def decode : Reader UInt64
  | [] => .error .unexpectedEnd
  | marker :: bs =>
    if marker < 0xfd then .ok (marker.toUInt64, bs)
    else if marker = 0xfd then decodeBody 2 0xfd bs
    else if marker = 0xfe then decodeBody 4 0x10000 bs
    else decodeBody 8 0x100000000 bs

end CompactSize

/-- the count of a list whose elements take `size` bytes each -/
def readCount (size : Nat) : Reader Nat := fun bs => do
  let (n, bs) ← CompactSize.decode bs
  let requested := min (n.toNat * size) (UInt64.size - 1)
  if maxListBytes < requested then .error (.oversized requested) else .ok (n.toNat, bs)

/-! ## flags in bytes

Flag number `i` is bit `i % 8` of byte `i / 8`, the least significant bit first. The last byte is
filled up with zeros, so unpacking may yield up to seven flags more than were packed. -/

def byteOfBits (f : Nat → Bool) : UInt8 :=
  UInt8.ofNat ((List.range 8).foldr (fun j rest => (f j).toNat <<< j + rest) 0)

def bitsOfByte (b : UInt8) : List Bool := (List.range 8).map b.toNat.testBit

/-- flags as bytes; bits past the last flag are zero -/
def packBits (flags : Array Bool) : List UInt8 :=
  (List.range ((flags.size + 7) / 8)).map fun i => byteOfBits fun j => flags.getD (8 * i + j) false

def unpackBits (bs : List UInt8) : List Bool := bs.flatMap bitsOfByte

@[simp]
theorem length_bitsOfByte (b : UInt8) : (bitsOfByte b).length = 8 := by simp [bitsOfByte]

@[simp]
theorem length_packBits (flags : Array Bool) :
    (packBits flags).length = (flags.size + 7) / 8 := by simp [packBits]

@[simp]
theorem unpackBits_cons (b : UInt8) (bs : List UInt8) :
    unpackBits (b :: bs) = bitsOfByte b ++ unpackBits bs := rfl

@[simp]
theorem length_unpackBits (bs : List UInt8) : (unpackBits bs).length = 8 * bs.length := by
  induction bs with
  | nil => rfl
  | cons b bs ih =>
    simp only [unpackBits_cons, List.length_append, length_bitsOfByte, ih, List.length_cons]
    omega

/-! ## messages -/

@[ext]
structure MerkleBlock where
  header : Header
  tree : PartialTree
deriving DecidableEq, Inhabited

def MerkleBlock.blockHash (b : MerkleBlock) : Hash := b.header.blockHash

/-! ### writing -/

def encodeUInt32 (n : UInt32) : List UInt8 := littleEndian 4 n.toNat

/-- the leaf count, the counted hashes, the counted bytes of flags -/
def encodeTree (t : PartialTree) : List UInt8 :=
  let flags := packBits t.flags.toArray
  encodeUInt32 t.leafCount ++
    CompactSize.encode (UInt64.ofNat t.hashes.length) ++ t.hashes.flatMap (·.bytes) ++
    CompactSize.encode (UInt64.ofNat flags.length) ++ flags

def encodeMerkleBlock (b : MerkleBlock) : List UInt8 := b.header.toBytes ++ encodeTree b.tree

/-! ### reading -/

def readUInt32 : Reader UInt32 := fun bs => do
  let (n, bs) ← readNat 4 bs
  return (UInt32.ofNat n, bs)

def readHash : Reader Hash := fun bs => do
  let (front, rest) ← takeBytes 32 bs
  match Hash.ofBytes? front with
  | some x => return (x, rest)
  | none => throw .unexpectedEnd

def readHeader : Reader Header := fun bs => do
  let (version, bs) ← readUInt32 bs
  let (prevBlock, bs) ← readHash bs
  let (merkleRoot, bs) ← readHash bs
  let (timestamp, bs) ← readUInt32 bs
  let (bits, bs) ← readUInt32 bs
  let (nonce, bs) ← readUInt32 bs
  return (⟨version.toInt32, prevBlock, merkleRoot, timestamp, bits, nonce⟩, bs)

/-- a tree; its flags come back with the padding of their last byte -/
def readTree : Reader PartialTree := fun bs => do
  let (leafCount, bs) ← readUInt32 bs
  let (count, bs) ← readCount 32 bs
  let (hashes, bs) ← readMany readHash count bs
  let (size, bs) ← readCount 1 bs
  let (flags, bs) ← takeBytes size bs
  return (⟨leafCount, unpackBits flags, hashes⟩, bs)

def readMerkleBlock : Reader MerkleBlock := fun bs => do
  let (header, bs) ← readHeader bs
  let (tree, bs) ← readTree bs
  return (⟨header, tree⟩, bs)

/-! ### streams of several types -/

inductive WireValue where
  | compactSize (n : UInt64)
  | word (n : UInt32)
  | hash (x : Hash)
  | header (h : Header)
  | tree (t : PartialTree)
  | merkleBlock (b : MerkleBlock)
deriving DecidableEq

inductive WireType where
  | compactSize
  | word
  | hash
  | header
  | tree
  | merkleBlock
deriving DecidableEq

namespace WireValue

def type : WireValue → WireType
  | compactSize _ => .compactSize
  | word _ => .word
  | hash _ => .hash
  | header _ => .header
  | tree _ => .tree
  | merkleBlock _ => .merkleBlock

def encode : WireValue → List UInt8
  | compactSize n => CompactSize.encode n
  | word n => encodeUInt32 n
  | hash x => x.bytes
  | header h => h.toBytes
  | tree t => encodeTree t
  | merkleBlock b => encodeMerkleBlock b

end WireValue

def WireType.read : WireType → Reader WireValue
  | .compactSize => fun bs => (CompactSize.decode bs).map fun (n, rest) => (.compactSize n, rest)
  | .word => fun bs => (readUInt32 bs).map fun (n, rest) => (.word n, rest)
  | .hash => fun bs => (readHash bs).map fun (x, rest) => (.hash x, rest)
  | .header => fun bs => (readHeader bs).map fun (h, rest) => (.header h, rest)
  | .tree => fun bs => (readTree bs).map fun (t, rest) => (.tree t, rest)
  | .merkleBlock => fun bs => (readMerkleBlock bs).map fun (b, rest) => (.merkleBlock b, rest)

/-- values of the given types read one after another, each with what it leaves over, and the first
failure if there is one -/
def readStream : List WireType → List UInt8 → List (WireValue × List UInt8) × Option WireError
  | [], _ => ([], none)
  | t :: types, bs =>
    match t.read bs with
    | .error e => ([], some e)
    | .ok (v, rest) =>
      let (values, failure) := readStream types rest
      ((v, rest) :: values, failure)

end BlockProof
