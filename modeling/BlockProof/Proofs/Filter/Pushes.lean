import BlockProof.Filter
import BlockProof.Proofs.Wire.Exact

/-!
# The grammar of scripts

A script is a sequence of items, each an opcode that pushes nothing or a push with all of its data,
and then a tail: nothing, or a push that the script cuts short. The items are told apart by their
first bytes, so there is one way to read a script, and no longer sequence of items begins it.
Looking for pushes follows these items to the end of the last one.

* `ScriptItem`           the items, their bytes and what they push;
* `CutShort`             the pushes whose count or data is cut short;
* `ItemsOf script items tail`   the items and the tail of a script;
* `readPush_eq_ok_iff`, `readPush_eq_error_iff`   reading one opcode, told by items;
* `exists_itemsOf`       every script has items and a tail, and its pushes are those of the items;
* `answerTo k script`    what is answered when the next push is asked for time and again;
* `pushes_follow_grammar`   the main result.
-/

namespace BlockProof

/-! ## items -/

inductive CountWidth where
  | one
  | two
  | four

namespace CountWidth

def size : CountWidth → Nat
  | one => 1
  | two => 2
  | four => 4

def opcode : CountWidth → UInt8
  | one => 0x4c
  | two => 0x4d
  | four => 0x4e

end CountWidth

/-- what a script is made of -/
inductive ScriptItem where
  /-- an opcode that pushes nothing -/
  | plain (op : UInt8) (hop : ¬ (0x01 ≤ op ∧ op ≤ 0x4e))
  /-- data after an opcode that is its length -/
  | direct (data : List UInt8) (pos : 1 ≤ data.length) (le : data.length ≤ 0x4b)
  /-- data after its length in one, two or four bytes -/
  | counted (w : CountWidth) (data : List UInt8) (lt : data.length < 1 <<< (8 * w.size))

namespace ScriptItem

def opcode : ScriptItem → UInt8
  | plain op _ => op
  | direct data _ _ => UInt8.ofNat data.length
  | counted w _ _ => w.opcode

def body : ScriptItem → List UInt8
  | plain _ _ => []
  | direct data _ _ => data
  | counted w data _ => littleEndian w.size data.length ++ data

def bytes (i : ScriptItem) : List UInt8 := i.opcode :: i.body

def push? : ScriptItem → Option (List UInt8)
  | plain _ _ => none
  | direct data _ _ => some data
  | counted _ data _ => some data

/-- the data of a push, and no bytes for an opcode that is none -/
def data (i : ScriptItem) : List UInt8 := i.push?.getD []

end ScriptItem

/-- the byte strings that begin with a push and end before its count or its data does -/
inductive CutShort : List UInt8 → Prop where
  | direct {op : UInt8} {bs : List UInt8} (lo : 0x01 ≤ op) (hi : op ≤ 0x4b)
      (short : bs.length < op.toNat) : CutShort (op :: bs)
  | count {w : CountWidth} {bs : List UInt8} (short : bs.length < w.size) :
      CutShort (w.opcode :: bs)
  | data {w : CountWidth} {count bs : List UInt8} (length_count : count.length = w.size)
      (short : bs.length < ofLittleEndian count) : CutShort (w.opcode :: (count ++ bs))

/-- `script` is these items and then this tail, which is empty or a push that is cut short -/
structure ItemsOf (script : List UInt8) (items : List ScriptItem) (tail : List UInt8) : Prop where
  split : script = items.flatMap ScriptItem.bytes ++ tail
  tail : tail = [] ∨ CutShort tail

/-! ## reading one opcode -/

theorem opcode_cases (op : UInt8) : (0x01 ≤ op ∧ op ≤ 0x4b) ∨ (∃ w : CountWidth, op = w.opcode) ∨
    ¬ (0x01 ≤ op ∧ op ≤ 0x4e) := by
  by_cases hpush : 0x01 ≤ op ∧ op ≤ 0x4e
  · by_cases hdirect : op ≤ 0x4b
    · exact .inl ⟨hpush.1, hdirect⟩
    · have hlo : 0x4b < op.toNat := UInt8.lt_iff_toNat_lt.mp (UInt8.not_le.mp hdirect)
      have hhi : op.toNat ≤ 0x4e := UInt8.le_iff_toNat_le.mp hpush.2
      have hop : op = 0x4c ∨ op = 0x4d ∨ op = 0x4e := by
        simp only [← UInt8.toNat_inj]
        show op.toNat = 76 ∨ op.toNat = 77 ∨ op.toNat = 78
        omega
      rcases hop with h | h | h
      · exact .inr (.inl ⟨.one, h⟩)
      · exact .inr (.inl ⟨.two, h⟩)
      · exact .inr (.inl ⟨.four, h⟩)
  · exact .inr (.inr hpush)

theorem readPush_direct {op : UInt8} (lo : 0x01 ≤ op) (hi : op ≤ 0x4b) :
    readPush op = takeBytes op.toNat := by
  rw [readPush, if_pos ⟨lo, hi⟩]

theorem readPush_counted (w : CountWidth) : readPush w.opcode = readCounted w.size := by
  cases w <;> rfl

theorem readPush_plain {op : UInt8} (hop : ¬ (0x01 ≤ op ∧ op ≤ 0x4e)) :
    readPush op = fun bs => .ok ([], bs) := by
  have hne (k : UInt8) (hk : 0x01 ≤ k ∧ k ≤ 0x4e) : op ≠ k := fun h => hop (h ▸ hk)
  have hdirect : ¬ (0x01 ≤ op ∧ op ≤ 0x4b) :=
    fun h => hop ⟨h.1, UInt8.le_trans h.2 (by decide)⟩
  rw [readPush, if_neg hdirect, if_neg (hne _ (by decide)), if_neg (hne _ (by decide)),
    if_neg (hne _ (by decide))]

theorem toNat_ofNat_of_direct {n : Nat} (h : n ≤ 0x4b) : (UInt8.ofNat n).toNat = n :=
  UInt8.toNat_ofNat_of_lt' (by
    show n < 256
    omega)

theorem direct_range {n : Nat} (pos : 1 ≤ n) (le : n ≤ 0x4b) :
    0x01 ≤ UInt8.ofNat n ∧ UInt8.ofNat n ≤ 0x4b := by
  rw [UInt8.le_iff_toNat_le, UInt8.le_iff_toNat_le, toNat_ofNat_of_direct le]
  exact ⟨pos, le⟩

theorem CountWidth.opcode_injective {w w' : CountWidth} (h : w.opcode = w'.opcode) : w = w' := by
  cases w <;> cases w' <;> first | rfl | exact absurd h (by decide)

theorem readCounted_eq_ok_iff {w : Nat} {bs data rest : List UInt8} :
    readCounted w bs = .ok (data, rest) ↔
      data.length < 1 <<< (8 * w) ∧ bs = littleEndian w data.length ++ (data ++ rest) := by
  simp only [readCounted, bind_eq_ok_iff, Prod.exists, readNat_eq_ok_iff, takeBytes_eq_ok_iff]
  constructor
  · intro h
    obtain ⟨n, _, ⟨hn, rfl⟩, rfl, rfl⟩ := h
    exact ⟨hn, rfl⟩
  · intro h
    obtain ⟨hn, rfl⟩ := h
    exact ⟨data.length, data ++ rest, ⟨hn, rfl⟩, rfl, rfl⟩

theorem readCounted_eq_error_iff {w : Nat} {bs : List UInt8} {e : WireError} :
    readCounted w bs = .error e ↔ e = .unexpectedEnd ∧ (bs.length < w ∨
      ∃ count rest : List UInt8, bs = count ++ rest ∧ count.length = w ∧
        rest.length < ofLittleEndian count) := by
  by_cases hw : bs.length < w
  · have hcut : takeBytes w bs = .error .unexpectedEnd := takeBytes_eq_error_iff.mpr ⟨hw, rfl⟩
    have hread : readCounted w bs = .error .unexpectedEnd := by
      rw [readCounted, readNat, hcut]
      rfl
    rw [hread, Except.error.injEq, eq_comm]
    exact ⟨fun h => ⟨h, .inl hw⟩, fun h => h.1⟩
  · obtain ⟨count, rest, hlen, rfl⟩ : ∃ count rest : List UInt8, count.length = w ∧
        bs = count ++ rest :=
      ⟨bs.take w, bs.drop w, by rw [List.length_take]; omega, (List.take_append_drop w bs).symm⟩
    have hread : readCounted w (count ++ rest) = takeBytes (ofLittleEndian count) rest := by
      rw [readCounted, readNat, takeBytes_append hlen]
      rfl
    rw [hread, takeBytes_eq_error_iff]
    constructor
    · intro h
      exact ⟨h.2, .inr ⟨count, rest, rfl, hlen, h.1⟩⟩
    · intro h
      obtain ⟨rfl, hshort | ⟨count', rest', hsplit, hlen', hshort⟩⟩ := h
      · exact absurd hshort hw
      · obtain ⟨rfl, rfl⟩ := List.append_inj hsplit (hlen.trans hlen'.symm)
        exact ⟨hshort, rfl⟩

/-- what an opcode pushes, if the script does not cut it short, is the data of an item -/
theorem readPush_eq_ok_iff {op : UInt8} {bs data rest : List UInt8} :
    readPush op bs = .ok (data, rest) ↔
      ∃ i : ScriptItem, op :: bs = i.bytes ++ rest ∧ i.data = data := by
  constructor
  · intro h
    rcases opcode_cases op with ⟨lo, hi⟩ | ⟨w, rfl⟩ | hop
    · rw [readPush_direct lo hi, takeBytes_eq_ok_iff] at h
      obtain ⟨hlen, rfl⟩ := h
      have hpos : 1 ≤ data.length := hlen ▸ UInt8.le_iff_toNat_le.mp lo
      have hle : data.length ≤ 0x4b := hlen ▸ UInt8.le_iff_toNat_le.mp hi
      refine ⟨.direct data hpos hle, ?_, rfl⟩
      show op :: (data ++ rest) = UInt8.ofNat data.length :: (data ++ rest)
      rw [hlen, UInt8.ofNat_toNat]
    · rw [readPush_counted, readCounted_eq_ok_iff] at h
      obtain ⟨hlt, rfl⟩ := h
      refine ⟨.counted w data hlt, ?_, rfl⟩
      show _ = w.opcode :: (littleEndian w.size data.length ++ data ++ rest)
      rw [List.append_assoc]
    · rw [readPush_plain hop] at h
      obtain ⟨rfl, rfl⟩ := Prod.mk.inj (Except.ok.inj h)
      exact ⟨.plain op hop, rfl, rfl⟩
  · intro h
    obtain ⟨i, hbytes, rfl⟩ := h
    cases i with
    | plain op' hop =>
      obtain ⟨rfl, rfl⟩ := List.cons.inj hbytes
      rw [readPush_plain hop]
      rfl
    | direct data pos le =>
      obtain ⟨rfl, rfl⟩ := List.cons.inj hbytes
      obtain ⟨lo, hi⟩ := direct_range pos le
      show readPush (UInt8.ofNat data.length) (data ++ rest) = .ok (data, rest)
      rw [readPush_direct lo hi, toNat_ofNat_of_direct le]
      exact takeBytes_append rfl rest
    | counted w data lt =>
      obtain ⟨rfl, rfl⟩ := List.cons.inj hbytes
      show readPush w.opcode (littleEndian w.size data.length ++ data ++ rest) = .ok (data, rest)
      rw [readPush_counted, readCounted_eq_ok_iff, List.append_assoc]
      exact ⟨lt, rfl⟩

/-- an opcode is refused just if it begins a push that the script cuts short -/
theorem readPush_eq_error_iff {op : UInt8} {bs : List UInt8} {e : WireError} :
    readPush op bs = .error e ↔ e = .unexpectedEnd ∧ CutShort (op :: bs) := by
  constructor
  · intro h
    rcases opcode_cases op with ⟨lo, hi⟩ | ⟨w, rfl⟩ | hop
    · rw [readPush_direct lo hi, takeBytes_eq_error_iff] at h
      exact ⟨h.2, .direct lo hi h.1⟩
    · rw [readPush_counted, readCounted_eq_error_iff] at h
      obtain ⟨rfl, hshort | ⟨count, rest, rfl, hlen, hshort⟩⟩ := h
      · exact ⟨rfl, .count hshort⟩
      · exact ⟨rfl, .data hlen hshort⟩
    · rw [readPush_plain hop] at h
      cases h
  · rintro ⟨rfl, hcut⟩
    generalize hscript : op :: bs = script at hcut
    cases hcut with
    | direct lo hi short =>
      obtain ⟨rfl, rfl⟩ := List.cons.inj hscript
      rw [readPush_direct lo hi, takeBytes_eq_error_iff]
      exact ⟨short, rfl⟩
    | count short =>
      obtain ⟨rfl, rfl⟩ := List.cons.inj hscript
      rw [readPush_counted, readCounted_eq_error_iff]
      exact ⟨rfl, .inl short⟩
    | data length_count short =>
      obtain ⟨rfl, rfl⟩ := List.cons.inj hscript
      rw [readPush_counted, readCounted_eq_error_iff]
      exact ⟨rfl, .inr ⟨_, _, rfl, length_count, short⟩⟩

/-! ## one way to read a script -/

namespace ScriptItem

theorem readPush_opcode (i : ScriptItem) (rest : List UInt8) :
    readPush i.opcode (i.body ++ rest) = .ok (i.data, rest) :=
  readPush_eq_ok_iff.mpr ⟨i, rfl, rfl⟩

def kind : ScriptItem → Nat
  | plain _ _ => 0
  | direct _ _ _ => 1
  | counted _ _ _ => 2

theorem kind_eq (i : ScriptItem) : i.kind =
    if ¬ (0x01 ≤ i.opcode ∧ i.opcode ≤ 0x4e) then 0 else if i.opcode ≤ 0x4b then 1 else 2 := by
  cases i with
  | plain op hop => exact (if_pos hop).symm
  | direct data pos le =>
    obtain ⟨lo, hi⟩ := direct_range pos le
    exact ((if_neg (not_not_intro ⟨lo, UInt8.le_trans hi (by decide)⟩)).trans (if_pos hi)).symm
  | counted w data lt => cases w <;> rfl

theorem bytes_injective {i i' : ScriptItem} (h : i.bytes = i'.bytes) : i = i' := by
  obtain ⟨hopcode, hbody⟩ := List.cons.inj h
  have hkind : i.kind = i'.kind := by rw [kind_eq, kind_eq, hopcode]
  cases i with
  | plain op hop =>
    cases i' with
    | plain op' hop' =>
      obtain rfl : op = op' := hopcode
      rfl
    | direct => cases hkind
    | counted => cases hkind
  | direct data pos le =>
    cases i' with
    | plain => cases hkind
    | direct data' pos' le' =>
      obtain rfl : data = data' := hbody
      rfl
    | counted => cases hkind
  | counted w data lt =>
    cases i' with
    | plain => cases hkind
    | direct => cases hkind
    | counted w' data' lt' =>
      obtain rfl : w = w' := CountWidth.opcode_injective hopcode
      have hlen : (littleEndian w.size data.length).length =
          (littleEndian w.size data'.length).length := by
        rw [length_littleEndian, length_littleEndian]
      obtain ⟨-, rfl⟩ := List.append_inj hbody hlen
      rfl

/-- no item is the beginning of another -/
theorem append_inj {i i' : ScriptItem} {rest rest' : List UInt8}
    (h : i.bytes ++ rest = i'.bytes ++ rest') : i = i' ∧ rest = rest' := by
  have hread := i.readPush_opcode rest
  have hread' := i'.readPush_opcode rest'
  obtain ⟨hopcode, hbody⟩ := List.cons.inj h
  rw [hopcode, show i.body ++ rest = i'.body ++ rest' from hbody, hread'] at hread
  obtain ⟨-, rfl⟩ := Prod.mk.inj (Except.ok.inj hread)
  exact ⟨bytes_injective (List.append_cancel_right h), rfl⟩

theorem not_cutShort (i : ScriptItem) (rest : List UInt8) : ¬ CutShort (i.bytes ++ rest) := by
  intro hcut
  have hread := i.readPush_opcode rest
  cases hread.symm.trans (readPush_eq_error_iff.mpr ⟨rfl, hcut⟩)

end ScriptItem

namespace ItemsOf

section
variable {script tail : List UInt8} {items : List ScriptItem}

theorem nil : ItemsOf [] [] [] := ⟨rfl, .inl rfl⟩

theorem of_cutShort (hcut : CutShort script) : ItemsOf script [] script := ⟨rfl, .inr hcut⟩

theorem cons (i : ScriptItem) (h : ItemsOf script items tail) :
    ItemsOf (i.bytes ++ script) (i :: items) tail :=
  ⟨by rw [List.flatMap_cons, List.append_assoc, ← h.split], h.tail⟩

theorem isPrefix (h : ItemsOf script items tail) {items' : List ScriptItem} {rest : List UInt8}
    (hsplit : script = items'.flatMap ScriptItem.bytes ++ rest) : items' <+: items := by
  induction items' generalizing script items with
  | nil => exact List.nil_prefix
  | cons i items' ih =>
    rw [List.flatMap_cons, List.append_assoc] at hsplit
    cases items with
    | nil =>
      obtain rfl : script = tail := h.split
      rcases h.tail with rfl | hcut
      · cases hsplit
      · rw [hsplit] at hcut
        exact absurd hcut (i.not_cutShort _)
    | cons k items =>
      have hboth := h.split
      rw [List.flatMap_cons, List.append_assoc, hsplit] at hboth
      obtain ⟨rfl, hrest⟩ := ScriptItem.append_inj hboth
      exact List.cons_prefix_cons.mpr ⟨rfl, ih ⟨hrest, h.tail⟩ rfl⟩

theorem eq_and_eq (h : ItemsOf script items tail) {items' : List ScriptItem} {tail' : List UInt8}
    (h' : ItemsOf script items' tail') : items' = items ∧ tail' = tail := by
  obtain rfl : items' = items :=
    (h.isPrefix h'.split).eq_of_length_le (h'.isPrefix h.split).length_le
  exact ⟨rfl, List.append_cancel_left (h'.split.symm.trans h.split)⟩

end
end ItemsOf

/-! ## pushes -/

/-- the data of the pushes among some items, without empty pushes -/
def pushedBy (items : List ScriptItem) : List (List UInt8) :=
  (items.filterMap ScriptItem.push?).filter (· ≠ [])

theorem pushedBy_cons (i : ScriptItem) (items : List ScriptItem) : pushedBy (i :: items) =
    if i.data.isEmpty then pushedBy items else i.data :: pushedBy items := by
  cases i with
  | plain op hop => rfl
  | direct data pos le => cases data <;> rfl
  | counted w data lt => cases data <;> rfl

theorem nextPush_nil : nextPush [] = (none, []) := by
  rw [nextPush]

theorem nextPush_of_cutShort {op : UInt8} {bs : List UInt8} (hcut : CutShort (op :: bs)) :
    nextPush (op :: bs) = (none, []) := by
  have hread := readPush_eq_error_iff.mpr ⟨rfl, hcut⟩
  rw [nextPush]
  split
  · rfl
  · next hok => cases hread.symm.trans hok

theorem nextPush_append (i : ScriptItem) (rest : List UInt8) : nextPush (i.bytes ++ rest) =
    if i.data.isEmpty then nextPush rest else (some i.data, rest) := by
  have hread := i.readPush_opcode rest
  show nextPush (i.opcode :: (i.body ++ rest)) = _
  rw [nextPush]
  split
  · next herror => cases hread.symm.trans herror
  · next hok =>
    obtain ⟨rfl, rfl⟩ := Prod.mk.inj (Except.ok.inj (hread.symm.trans hok))
    rfl

theorem dataPushes_of_none {script rest : List UInt8} (h : nextPush script = (none, rest)) :
    dataPushes script = [] := by
  rw [dataPushes]
  split
  · rfl
  · next hsome => cases h.symm.trans hsome

theorem dataPushes_of_some {script data rest : List UInt8}
    (h : nextPush script = (some data, rest)) : dataPushes script = data :: dataPushes rest := by
  rw [dataPushes]
  split
  · next hnone => cases h.symm.trans hnone
  · next hsome =>
    obtain ⟨hdata, rfl⟩ := Prod.mk.inj (h.symm.trans hsome)
    rw [Option.some.inj hdata]

theorem dataPushes_append (i : ScriptItem) (rest : List UInt8) : dataPushes (i.bytes ++ rest) =
    if i.data.isEmpty then dataPushes rest else i.data :: dataPushes rest := by
  have hnext := nextPush_append i rest
  split
  · next hempty =>
    rw [if_pos hempty] at hnext
    rw [dataPushes, hnext, ← dataPushes]
  · next hfull =>
    rw [if_neg hfull] at hnext
    exact dataPushes_of_some hnext

theorem exists_itemsOf (script : List UInt8) :
    ∃ items tail, ItemsOf script items tail ∧ dataPushes script = pushedBy items := by
  induction hlen : script.length using Nat.strong_induction_on generalizing script with
  | h n ih =>
    cases script with
    | nil => exact ⟨[], [], .nil, dataPushes_of_none nextPush_nil⟩
    | cons op bs =>
      cases hread : readPush op bs with
      | error e =>
        have hcut := (readPush_eq_error_iff.mp hread).2
        exact ⟨[], op :: bs, .of_cutShort hcut, dataPushes_of_none (nextPush_of_cutShort hcut)⟩
      | ok v =>
        obtain ⟨data, rest⟩ := v
        obtain ⟨i, hsplit, -⟩ := readPush_eq_ok_iff.mp hread
        have hlt : rest.length < n := hlen ▸ Nat.lt_succ_of_le (length_le_of_readPush hread)
        obtain ⟨items, tail, hitems, hpushes⟩ := ih rest.length hlt rest rfl
        refine ⟨i :: items, tail, ?_, ?_⟩
        · rw [hsplit]
          exact hitems.cons i
        · rw [hsplit, dataPushes_append, pushedBy_cons, hpushes]

/-! ## asking for one push after another -/

/-- the answer when the next push is asked for once more after `k` times -/
def answerTo : Nat → List UInt8 → Option (List UInt8)
  | 0, script => (nextPush script).1
  | k + 1, script => answerTo k (nextPush script).2

theorem nextPush_eq_of_none {script rest : List UInt8} (h : nextPush script = (none, rest)) :
    rest = [] := by
  fun_induction nextPush script with
  | case1 => exact (Prod.mk.inj h).2.symm
  | case2 => exact (Prod.mk.inj h).2.symm
  | case3 op bs data rest' hread hempty ih => exact ih h
  | case4 op bs data rest' hread hfull => cases h

theorem answerTo_nil (k : Nat) : answerTo k [] = none := by
  induction k with
  | zero => rw [answerTo, nextPush_nil]
  | succ k ih => rw [answerTo, nextPush_nil, ih]

/-- the answers are the pushes in order, and then none for good -/
theorem answerTo_eq (k : Nat) (script : List UInt8) :
    answerTo k script = (dataPushes script)[k]? := by
  fun_induction dataPushes script generalizing k with
  | case1 script rest hnext =>
    obtain rfl := nextPush_eq_of_none hnext
    rw [List.getElem?_nil]
    cases k with
    | zero => rw [answerTo, hnext]
    | succ k => rw [answerTo, hnext, answerTo_nil]
  | case2 script data rest hnext ih =>
    cases k with
    | zero =>
      rw [answerTo, hnext]
      rfl
    | succ k => rw [answerTo, hnext, List.getElem?_cons_succ, ih]

/-- `script` is read as these items and this tail, and what it pushes is what they push -/
structure ReadAs (script : List UInt8) (items : List ScriptItem) (tail : List UInt8) : Prop where
  itemsOf : ItemsOf script items tail
  unique : ∀ items' tail', ItemsOf script items' tail' → items' = items ∧ tail' = tail
  /-- no other sequence of items that begins the script is as long -/
  longest : ∀ items' rest, script = items'.flatMap ScriptItem.bytes ++ rest → items' <+: items
  pushes : dataPushes script = pushedBy items
  answers : ∀ k, answerTo k script = (pushedBy items)[k]?
  none_for_good : ∀ k, answerTo k script = none → ∀ l, k ≤ l → answerTo l script = none

/-- **Pushes are found by the grammar of scripts.** Every byte string is read in one way as items
and a tail; the search yields the data that the items push, in order, without empty data and
without anything of the tail, and however often it is asked after that it yields nothing more. -/
theorem pushes_follow_grammar (script : List UInt8) : ∃ items tail, ReadAs script items tail := by
  obtain ⟨items, tail, hitems, hpushes⟩ := exists_itemsOf script
  refine ⟨items, tail, hitems, fun _ _ => hitems.eq_and_eq, fun _ _ => hitems.isPrefix, hpushes,
    ?_, ?_⟩
  · intro k
    rw [answerTo_eq, hpushes]
  · intro k hk l hl
    rw [answerTo_eq, List.getElem?_eq_none_iff] at hk ⊢
    exact hk.trans hl

/-- a push of no bytes, one that spells its length in four, and one that is cut short -/
example : dataPushes [0x4c, 0, 0x4e, 2, 0, 0, 0, 7, 8, 0x51, 0x4d, 0xff] = [[7, 8]] := by
  decide +kernel

end BlockProof
