import BlockProof.Decimal
import BlockProof.Wire

/-!
# Filters over transactions

A Bloom filter is a row of bits. An element sets a handful of them, and is taken to be in the filter
when all of them are set, so no element is ever missed but strangers may pass. A filter without bits
passes everything. In mode `all` a filter learns the outputs that let a transaction pass, so that
the transactions spending them pass too. An exact set of ids is the alternative without strangers.

For `n` elements and a rate `p` of false positives a filter takes `-n * ln p / (ln 2) ^ 2` bits,
rounded down to whole bytes, and `(bits / n) * ln 2` hash functions, both capped at what a peer
loads.

* `sizeFilter n p`, `falsePositiveRate m n k`   sizes, and the rate that comes of them;
* `FilterError`                   why a filter or a filtered block is refused;
* `murmur data index tweak`       hash function number `index` of a filter;
* `dataPushes`                    the pushes of a script that are not empty, in order;
* `BloomFilter`                   the bits, always whole bytes of them;
* `BloomFilter.sized`, `BloomFilter.ofBytes?`   an empty filter for a number of elements and a rate,
                                  and one from a peer, under the limits of the protocol;
* `BloomFilter.matchTransaction`  the verdict on a transaction, and the filter after it;
* `FilterConfig`                  what a client asks of a filter;
* `TxidSet.matchTransaction`      the verdict of an exact set of ids, and the set after it.
-/

namespace BlockProof

/-! ## how large a filter has to be -/

def maxFilterBytes : Nat := 36000

def maxHashFunctions : UInt32 := 50

def logTwo : Float := 0.693147180559945309417232121458

/-- multiplies `r` by the `e`th power of `x`, by repeated squaring -/
def mulPower (x r : Float) (e : Nat) : Float :=
  let r := if e % 2 = 1 then r * x else r
  if e / 2 = 0 then r else mulPower (x * x) r (e / 2)
termination_by e
decreasing_by omega

def integerPower (x : Float) (e : Int) : Float :=
  let r := mulPower x 1 e.natAbs
  if e < 0 then 1 / r else r

/-- how often a filter of `m` bits and `k` hash functions with `n` elements in it takes a stranger
for an element -/
def falsePositiveRate (m n : UInt64) (k : UInt32) : Float :=
  if m = 0 then 1
  else
    let exponent := -k.toFloat * n.toFloat / m.toFloat
    integerPower (1 - exponent.exp) k.toInt32.toInt

structure FilterSizes where
  sizeBytes : Nat
  hashCount : UInt32
  expectedRate : Float

/-- a rate kept between one in a thousand million and one -/
def clampRate (rate : Float) : Float :=
  let rate := if rate < 1e-9 then 1e-9 else rate
  if 1 < rate then 1 else rate

/-- the sizes for a number of elements and a wanted rate; zero bytes are possible -/
def sizeFilter (elements : UInt64) (rate : Float) : FilterSizes :=
  if elements = 0 then ⟨1, 1, 0⟩
  else
    let n := elements.toFloat
    let bits := (-n * (clampRate rate).log / (logTwo * logTwo)).toUInt64
    let sizeBytes := min bits.toNat (maxFilterBytes * 8) / 8
    let fullBits := UInt64.ofNat (sizeBytes * 8)
    let hashCount := min (fullBits.toFloat / n * logTwo).toUInt32 maxHashFunctions
    ⟨sizeBytes, hashCount, falsePositiveRate fullBits elements hashCount⟩

/-! ## why a filter is refused -/

def maxElements : UInt64 := 100000

inductive FilterError where
  | filterTooLarge (size : Nat)
  | tooManyHashFunctions (count : UInt32)
  | invalidRate (rate : Float)
  | tooManyElements (count : UInt64)
  | noElements
  | unsupportedUpdate (byte : UInt8)
  | proof (e : ProofError)

def FilterError.message : FilterError → String
  | filterTooLarge size =>
    "Filter size exceeds maximum: " ++ toString size ++ " > " ++ toString maxFilterBytes ++ " bytes"
  | tooManyHashFunctions count =>
    "Too many hash functions: " ++ toString count.toNat ++ " > " ++ toString maxHashFunctions.toNat
  | invalidRate rate =>
    "Invalid false positive rate: " ++ Decimal.FloatStyle.plain.write rate ++
      " (must be in (0, 1])"
  | tooManyElements count =>
    "Too many elements: " ++ toString count.toNat ++ " > " ++ toString maxElements.toNat
  | noElements => "Invalid filter parameters: expected_elements cannot be 0"
  | unsupportedUpdate byte =>
    "Invalid filter parameters: unsupported update flag " ++ toString byte.toNat
  | proof e => "Merkle block error: " ++ e.message

/-! ## the positions of an element -/

namespace Murmur

def rotateLeft (x n : UInt32) : UInt32 := (x <<< n) ||| (x >>> (32 - n))

def scramble (k : UInt32) : UInt32 := rotateLeft (k * 0xcc9e2d51) 15 * 0x1b873593

def mix (h k : UInt32) : UInt32 := rotateLeft (h ^^^ scramble k) 13 * 5 + 0xe6546b64

/-- mixes whole words, then the up to three bytes that are left -/
def absorb (h : UInt32) : List UInt8 → UInt32
  | a :: b :: c :: d :: rest => absorb (mix h (UInt32.ofNat (ofLittleEndian [a, b, c, d]))) rest
  | tail => h ^^^ scramble (UInt32.ofNat (ofLittleEndian tail))

def finish (h : UInt32) : UInt32 :=
  let h := (h ^^^ (h >>> 16)) * 0x85ebca6b
  let h := (h ^^^ (h >>> 13)) * 0xc2b2ae35
  h ^^^ (h >>> 16)

def hash (data : List UInt8) (seed : UInt32) : UInt32 :=
  finish (absorb seed data ^^^ UInt32.ofNat data.length)

end Murmur

/-- the distance between the seeds of neighbouring hash functions -/
def seedStep : UInt32 := 0xfba4c795

/-- hash function number `index` of a filter with the given tweak -/
def murmur (data : List UInt8) (index tweak : UInt32) : UInt32 :=
  Murmur.hash data (index * seedStep + tweak)

/-- the bits of an element in a filter of `size` bits with `k` hash functions -/
def hashPositions (data : List UInt8) (k : UInt32) (size : Nat) (tweak : UInt32) : List Nat :=
  (List.range k.toNat).map fun i => (murmur data (UInt32.ofNat i) tweak).toNat % size

/-- the bits of an element, unless a position is asked for in a filter without bits -/
def hashPositions? (data : List UInt8) (k : UInt32) (size : Nat) (tweak : UInt32) :
    Option (List Nat) :=
  if size = 0 ∧ k ≠ 0 then none else some (hashPositions data k size tweak)

theorem hashPositions_lt {data : List UInt8} {k : UInt32} {size : Nat} {tweak : UInt32}
    (hsize : 0 < size) {p : Nat} (hp : p ∈ hashPositions data k size tweak) : p < size := by
  obtain ⟨i, _, rfl⟩ := List.mem_map.1 hp
  exact Nat.mod_lt _ hsize

/-! ## data pushed by a script

An opcode from `0x01` to `0x4b` pushes that many bytes; `0x4c`, `0x4d` and `0x4e` push as many bytes
as a count of one, two or four bytes says; every other opcode pushes nothing. A push that the script
cuts short ends the search. -/

def readCounted (w : Nat) : Reader (List UInt8) := fun bs => do
  let (n, bs) ← readNat w bs
  takeBytes n bs

/-- the data that an opcode pushes, nothing if it is no push; the reader stands after the opcode -/
def readPush (op : UInt8) : Reader (List UInt8) :=
  if 0x01 ≤ op ∧ op ≤ 0x4b then takeBytes op.toNat
  else if op = 0x4c then readCounted 1
  else if op = 0x4d then readCounted 2
  else if op = 0x4e then readCounted 4
  else fun bs => .ok ([], bs)

theorem length_le_of_takeBytes {n : Nat} {bs front rest : List UInt8}
    (h : takeBytes n bs = .ok (front, rest)) : rest.length ≤ bs.length := by
  simp only [takeBytes] at h
  split at h
  · obtain ⟨-, rfl⟩ := Prod.mk.inj (Except.ok.inj h)
    simp
  · cases h

theorem length_le_of_readCounted {w : Nat} {bs data rest : List UInt8}
    (h : readCounted w bs = .ok (data, rest)) : rest.length ≤ bs.length := by
  simp only [readCounted, readNat] at h
  cases hw : takeBytes w bs with
  | error e => rw [hw] at h; cases h
  | ok v =>
    rw [hw] at h
    exact Nat.le_trans (length_le_of_takeBytes h) (length_le_of_takeBytes hw)

theorem length_le_of_readPush {op : UInt8} {bs data rest : List UInt8}
    (h : readPush op bs = .ok (data, rest)) : rest.length ≤ bs.length := by
  simp only [readPush] at h
  split at h
  · exact length_le_of_takeBytes h
  split at h
  · exact length_le_of_readCounted h
  split at h
  · exact length_le_of_readCounted h
  split at h
  · exact length_le_of_readCounted h
  · obtain ⟨-, rfl⟩ := Prod.mk.inj (Except.ok.inj h)
    exact Nat.le_refl _

/-- the first push that is not empty, and the script after it; nothing is left of a script that has
no such push -/
def nextPush : List UInt8 → Option (List UInt8) × List UInt8
  | [] => (none, [])
  | op :: bs =>
    match _h : readPush op bs with
    | .error _ => (none, [])
    | .ok (data, rest) => if data.isEmpty then nextPush rest else (some data, rest)
termination_by script => script.length
decreasing_by exact Nat.lt_succ_of_le (length_le_of_readPush _h)

theorem length_lt_of_nextPush {script data rest : List UInt8}
    (h : nextPush script = (some data, rest)) : rest.length < script.length := by
  fun_induction nextPush script with
  | case1 => cases h
  | case2 => cases h
  | case3 op bs data' rest' hread hempty ih =>
    exact Nat.lt_trans (ih h) (Nat.lt_succ_of_le (length_le_of_readPush hread))
  | case4 op bs data' rest' hread hfull =>
    obtain ⟨-, rfl⟩ := Prod.mk.inj h
    exact Nat.lt_succ_of_le (length_le_of_readPush hread)

def dataPushes (script : List UInt8) : List (List UInt8) :=
  match _h : nextPush script with
  | (none, _) => []
  | (some data, rest) => data :: dataPushes rest
termination_by script.length
decreasing_by exact length_lt_of_nextPush _h

/-! ## Bloom filters -/

/-- whether a filter learns from the transactions it lets pass -/
inductive UpdateMode where
  | none
  | all
deriving DecidableEq

namespace UpdateMode

def toByte : UpdateMode → UInt8
  | none => 0
  | all => 1

def ofByte (b : UInt8) : Except FilterError UpdateMode :=
  if b = 0 then .ok none else if b = 1 then .ok all else .error (.unsupportedUpdate b)

theorem ofByte_toByte (m : UpdateMode) : ofByte m.toByte = .ok m := by
  cases m <;> rfl

end UpdateMode

/-- a row of bits, in whole bytes, and how elements set them -/
structure BloomFilter where
  bits : Array Bool
  hashCount : UInt32
  tweak : UInt32
  update : UpdateMode
  eight_dvd_size : 8 ∣ bits.size
deriving DecidableEq

namespace BloomFilter

def setBits (bits : Array Bool) (positions : List Nat) : Array Bool :=
  positions.foldl (fun bits p => bits.setIfInBounds p true) bits

@[simp]
theorem size_setBits (bits : Array Bool) (positions : List Nat) :
    (setBits bits positions).size = bits.size := by
  unfold setBits
  induction positions generalizing bits with
  | nil => rfl
  | cons p ps ih => rw [List.foldl_cons, ih, Array.size_setIfInBounds]

/-! ### making filters -/

def ofBytes (bytes : List UInt8) (hashCount tweak : UInt32) (update : UpdateMode) : BloomFilter :=
  ⟨(unpackBits bytes).toArray, hashCount, tweak, update, by
    rw [List.size_toArray, length_unpackBits]
    exact Nat.dvd_mul_right 8 bytes.length⟩

def ofBytes? (bytes : List UInt8) (hashCount tweak : UInt32) (update : UpdateMode) :
    Except FilterError BloomFilter :=
  if maxFilterBytes < bytes.length then .error (.filterTooLarge bytes.length)
  else if maxHashFunctions < hashCount then .error (.tooManyHashFunctions hashCount)
  else .ok (ofBytes bytes hashCount tweak update)

def sized (elements : UInt64) (rate : Float) (tweak : UInt32) (update : UpdateMode) :
    BloomFilter :=
  let sizes := sizeFilter elements rate
  ⟨Array.replicate (8 * sizes.sizeBytes) false, sizes.hashCount, tweak, update, by
    rw [Array.size_replicate]
    exact Nat.dvd_mul_right 8 sizes.sizeBytes⟩

/-! ### looking at filters -/

def toBytes (f : BloomFilter) : List UInt8 := packBits f.bits

def sizeBytes (f : BloomFilter) : Nat := f.bits.size / 8

def bitsSet (f : BloomFilter) : Nat := f.bits.count true

def falsePositiveRate (f : BloomFilter) (elements : UInt64) : Float :=
  BlockProof.falsePositiveRate (UInt64.ofNat f.bits.size) elements f.hashCount

/-! ### elements -/

def positions (f : BloomFilter) (element : List UInt8) : List Nat :=
  hashPositions element f.hashCount f.bits.size f.tweak

def insert (f : BloomFilter) (element : List UInt8) : BloomFilter :=
  if f.bits.isEmpty then f
  else { f with
    bits := setBits f.bits (f.positions element)
    eight_dvd_size := by rw [size_setBits]; exact f.eight_dvd_size }

def contains (f : BloomFilter) (element : List UInt8) : Bool :=
  if f.bits.isEmpty then true
  else (f.positions element).all fun p => f.bits.getD p false

def insertOutPoint (f : BloomFilter) (o : OutPoint) : BloomFilter := f.insert o.toBytes

def containsOutPoint (f : BloomFilter) (o : OutPoint) : Bool := f.contains o.toBytes

def clear (f : BloomFilter) : BloomFilter :=
  { f with
    bits := Array.replicate f.bits.size false
    eight_dvd_size := by simpa using f.eight_dvd_size }

/-! ### transactions -/

def matchesOutput (f : BloomFilter) (out : TxOut) : Bool :=
  (dataPushes out.scriptPubkey).any f.contains

/-- looks at output number `out.2` of a transaction, with the verdict so far in `s.1` -/
def visitOutput (tx : Transaction) (s : Bool × BloomFilter) (out : TxOut × Nat) :
    Bool × BloomFilter :=
  if s.2.matchesOutput out.1 then
    (true, if s.2.update = .all then s.2.insertOutPoint (tx.outPoint out.2) else s.2)
  else s

/-- the verdict on a transaction and the filter after it: first its id, then every output in turn,
each against the filter as the outputs before it left it, and the outputs it spends only if nothing
has matched yet -/
def matchTransaction (f : BloomFilter) (tx : Transaction) : Bool × BloomFilter :=
  let s := tx.outputs.zipIdx.foldl (visitOutput tx) (f.contains tx.txid.bytes, f)
  if s.1 then s else (tx.inputs.any s.2.containsOutPoint, s.2)

end BloomFilter

/-! ## what a client asks of a filter -/

structure FilterConfig where
  targetRate : Float
  expectedElements : UInt64
  tweak : UInt32
  update : UpdateMode

namespace FilterConfig

/-- one stranger in ten thousand, fifty elements, and a filter that learns -/
def standard : FilterConfig := ⟨0.0001, 50, 0, .all⟩

instance : Inhabited FilterConfig := ⟨standard⟩

def validate (c : FilterConfig) : Except FilterError Unit :=
  if ¬ (0 < c.targetRate ∧ c.targetRate ≤ 1) then .error (.invalidRate c.targetRate)
  else if c.expectedElements = 0 then .error .noElements
  else if maxElements < c.expectedElements then .error (.tooManyElements c.expectedElements)
  else .ok ()

def checked (c : FilterConfig) : Except FilterError FilterConfig := do
  c.validate
  return c

end FilterConfig

def BloomFilter.ofConfig? (c : FilterConfig) : Except FilterError BloomFilter := do
  c.validate
  return BloomFilter.sized c.expectedElements c.targetRate c.tweak c.update

/-! ## exact sets of transaction ids -/

/-- ids of transactions, and whether spending from one of them counts -/
structure TxidSet where
  txids : List Hash
  followsSpends : Bool
deriving DecidableEq

namespace TxidSet

def ofList (txids : List Hash) : TxidSet := ⟨txids.foldl (fun s x => s.insert x) [], false⟩

def followingSpends (s : TxidSet) : TxidSet := { s with followsSpends := true }

def insert (s : TxidSet) (x : Hash) : TxidSet := { s with txids := s.txids.insert x }

def spentBy (s : TxidSet) (tx : Transaction) : Bool :=
  tx.inputs.any fun o => decide (o.txid ∈ s.txids)

def matchTransaction (s : TxidSet) (tx : Transaction) : Bool × TxidSet :=
  if tx.txid ∈ s.txids then (true, s)
  else if s.followsSpends ∧ s.spentBy tx then (true, s.insert tx.txid)
  else (false, s)

def sorted (s : TxidSet) : List Hash := s.txids.mergeSort Hash.le

end TxidSet

end BlockProof
