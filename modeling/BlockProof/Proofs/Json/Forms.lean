import BlockProof.Json.Records
import BlockProof.Proofs.Filter.Loadable
import BlockProof.Proofs.Json.Text

/-!
# JSON forms lose nothing

A form is lawful if each value reads back from its form, and if the form is one that can be written.
The forms of numbers keep to the range of their type, a list has a lawful form if its items have,
and so has a record if its fields have and their names differ. A filter is made anew from the bytes
of its bits, of which it has whole bytes.

* `LawfulJsonForm α`             values are told from their forms;
* `ofJsonText?_toJsonText`       and then from their texts;
* `Json.fields?_record`          the values of a record's fields, told from its form;
* `json_texts_lose_nothing`      the main result.
-/

namespace BlockProof

/-- a form from which values are told, and that can be written -/
class LawfulJsonForm (α : Type) [JsonForm α] : Prop where
  ofJson?_toJson (x : α) : ofJson? (toJson x) = some x
  writable_toJson (x : α) : (toJson x).Writable

export LawfulJsonForm (ofJson?_toJson writable_toJson)

attribute [simp] LawfulJsonForm.ofJson?_toJson LawfulJsonForm.writable_toJson

/-! ## numbers -/

namespace Json

theorem natBelow?_ofNat {bound n : Nat} (h : n < bound) : (ofNat n).natBelow? bound = some n := by
  rw [natBelow?, ofNat, int?, Decimal.Numeral.toInt?_ofNat]
  simp only [Option.bind_eq_bind, Option.bind_some]
  rw [if_pos ⟨by omega, by omega⟩, Int.toNat_natCast]

theorem writable_ofNat (n : Nat) : (ofNat n).Writable :=
  .number fun _ hd => absurd hd List.not_mem_nil

end Json

instance : LawfulJsonForm UInt8 where
  ofJson?_toJson n := by
    show ((Json.ofNat n.toNat).natBelow? UInt8.size).map UInt8.ofNat = some n
    rw [Json.natBelow?_ofNat n.toNat_lt, Option.map_some, UInt8.ofNat_toNat]
  writable_toJson n := Json.writable_ofNat n.toNat

instance : LawfulJsonForm UInt32 where
  ofJson?_toJson n := by
    show ((Json.ofNat n.toNat).natBelow? UInt32.size).map UInt32.ofNat = some n
    rw [Json.natBelow?_ofNat n.toNat_lt, Option.map_some, UInt32.ofNat_toNat]
  writable_toJson n := Json.writable_ofNat n.toNat

instance : LawfulJsonForm UInt64 where
  ofJson?_toJson n := by
    show ((Json.ofNat n.toNat).natBelow? UInt64.size).map UInt64.ofNat = some n
    rw [Json.natBelow?_ofNat n.toNat_lt, Option.map_some, UInt64.ofNat_toNat]
  writable_toJson n := Json.writable_ofNat n.toNat

instance : LawfulJsonForm Int32 where
  ofJson?_toJson n := by
    have hint : (Json.number (.ofInt n.toInt)).int? = some n.toInt :=
      Decimal.Numeral.toInt?_ofInt n.toInt
    show (Json.number (.ofInt n.toInt)).int? >>= _ = some n
    rw [hint, Option.bind_eq_bind, Option.bind_some]
    rw [if_pos ⟨n.le_toInt, n.toInt_le⟩, Int32.ofInt_toInt]
  writable_toJson n := .number fun _ hd => absurd hd List.not_mem_nil

/-! ## lists and hashes -/

theorem mapM_eq_some_map {α β : Type} {f : α → Option β} {g : α → β} {l : List α}
    (h : ∀ x ∈ l, f x = some (g x)) : l.mapM f = some (l.map g) := by
  induction l with
  | nil => rfl
  | cons x l ih =>
    obtain ⟨hx, hl⟩ := List.forall_mem_cons.mp h
    rw [List.mapM_cons, hx, ih hl]
    rfl

instance {α : Type} [JsonForm α] [LawfulJsonForm α] : LawfulJsonForm (List α) where
  ofJson?_toJson l := by
    show (l.map toJson).mapM ofJson? = some l
    rw [List.mapM_map]
    exact (mapM_eq_some_map fun x _ => ofJson?_toJson x).trans (congrArg some l.map_id')
  writable_toJson l := by
    refine .array fun v hv => ?_
    obtain ⟨x, -, rfl⟩ := List.mem_map.mp hv
    exact writable_toJson x

instance : LawfulJsonForm Hash where
  ofJson?_toJson x := by
    show (ofJson? (toJson x.bytes)).bind Hash.ofBytes? = some x
    rw [ofJson?_toJson, Option.bind_some, Hash.ofBytes?_bytes]
  writable_toJson x := writable_toJson x.bytes

instance : LawfulJsonForm Bool where
  ofJson?_toJson _ := rfl
  writable_toJson b := .bool b

instance : LawfulJsonForm UpdateMode where
  ofJson?_toJson m := by cases m <;> rfl
  writable_toJson m := by cases m <;> exact .string _

/-! ## records -/

namespace Json

section
variable {names : List String} {fields : List (String × Json)}

theorem filter_name_eq (hnames : (fields.map Prod.fst).Nodup) {f : String × Json}
    (hf : f ∈ fields) : fields.filter (fun g => g.1 = f.1) = [f] := by
  induction fields with
  | nil => exact absurd hf List.not_mem_nil
  | cons g fields ih =>
    obtain ⟨hg, hrest⟩ := List.nodup_cons.mp hnames
    rcases List.mem_cons.mp hf with rfl | hf
    · have hothers : fields.filter (fun g => g.1 = f.1) = [] := by
        refine List.filter_eq_nil_iff.mpr fun a ha h => hg ?_
        rw [← of_decide_eq_true h]
        exact List.mem_map_of_mem ha
      rw [List.filter_cons, if_pos (decide_eq_true rfl), hothers]
    · have hne : g.1 ≠ f.1 := by
        intro h
        rw [h] at hg
        exact hg (List.mem_map_of_mem hf)
      rw [List.filter_cons_of_neg (by simpa using hne)]
      exact ih hrest hf

theorem member?_record (hnames : (fields.map Prod.fst).Nodup) {f : String × Json}
    (hf : f ∈ fields) :
    member? (fields.map fun (name, v) => (some name, v)) f.1 = some f.2 := by
  have hfilter : (fields.map fun (name, v) => ((some name, v) : Literal × Json)).filter
      (fun m => m.1 = some f.1) = [(some f.1, f.2)] := by
    have hname : ((fun m : Literal × Json => decide (m.1 = some f.1)) ∘
        fun (g : String × Json) => (some g.1, g.2)) = fun g => decide (g.1 = f.1) := by
      funext g
      simp
    rw [List.filter_map, hname, filter_name_eq hnames hf]
    rfl
  rw [member?, hfilter]

/-- the values of a record's fields, in their order -/
theorem fields?_record (hnames : (fields.map Prod.fst).Nodup) :
    (record fields).fields? (fields.map Prod.fst) = some (fields.map Prod.snd) := by
  have hkeys : (fields.map fun (name, v) => ((some name, v) : Literal × Json)).all
      (fun m => m.1.isSome) = true := by
    rw [List.all_map]
    exact List.all_eq_true.mpr fun _ _ => rfl
  rw [record, fields?, if_pos hkeys, List.mapM_map]
  exact mapM_eq_some_map fun f hf => member?_record hnames hf

theorem bind_fields?_record {α : Type} {x : α} {k : List Json → Option α} (hnames : names.Nodup)
    (hfields : fields.map Prod.fst = names) (hk : k (fields.map Prod.snd) = some x) :
    (record fields).fields? names >>= k = some x := by
  subst hfields
  rw [fields?_record hnames]
  exact hk

theorem writable_record (h : ∀ f ∈ fields, f.2.Writable) : (record fields).Writable := by
  refine .object (fun m hm => ?_) fun m hm => ?_
  · obtain ⟨f, -, rfl⟩ := List.mem_map.mp hm
    rfl
  · obtain ⟨f, hf, rfl⟩ := List.mem_map.mp hm
    exact h f hf

end

end Json

instance : LawfulJsonForm ProverConfig where
  ofJson?_toJson c := Json.bind_fields?_record (by decide) rfl (by simp)
  writable_toJson c := Json.writable_record (by simp)

instance : LawfulJsonForm BloomFilter where
  ofJson?_toJson f := by
    refine Json.bind_fields?_record (by decide) rfl ?_
    simp [BloomFilter.ofBytes_toBytes]
  writable_toJson f := Json.writable_record (by simp)

instance : LawfulJsonForm Header where
  ofJson?_toJson h := Json.bind_fields?_record (by decide) rfl (by simp)
  writable_toJson h := Json.writable_record (by simp)

instance : LawfulJsonForm PartialTree where
  ofJson?_toJson t := Json.bind_fields?_record (by decide) rfl (by simp)
  writable_toJson t := Json.writable_record (by simp)

instance : LawfulJsonForm MatchedLeaf where
  ofJson?_toJson leaf := Json.bind_fields?_record (by decide) rfl (by simp)
  writable_toJson leaf := Json.writable_record (by simp)

instance : LawfulJsonForm MatchResult where
  ofJson?_toJson r := Json.bind_fields?_record (by decide) rfl (by simp)
  writable_toJson r := Json.writable_record (by simp)

instance : LawfulJsonForm MerkleBlock where
  ofJson?_toJson b := Json.bind_fields?_record (by decide) rfl (by simp)
  writable_toJson b := Json.writable_record (by simp)

instance : LawfulJsonForm OutPoint where
  ofJson?_toJson o := Json.bind_fields?_record (by decide) rfl (by simp)
  writable_toJson o := Json.writable_record (by simp)

instance : LawfulJsonForm TxOut where
  ofJson?_toJson o := Json.bind_fields?_record (by decide) rfl (by simp)
  writable_toJson o := Json.writable_record (by simp)

instance : LawfulJsonForm Transaction where
  ofJson?_toJson tx := Json.bind_fields?_record (by decide) rfl (by simp)
  writable_toJson tx := Json.writable_record (by simp)

instance : LawfulJsonForm Block where
  ofJson?_toJson b := Json.bind_fields?_record (by decide) rfl (by simp)
  writable_toJson b := Json.writable_record (by simp)

/-! ## whole texts -/

theorem parse_toJsonText {α : Type} [JsonForm α] [LawfulJsonForm α] (x : α) :
    Json.parse (toJsonText x) = some (toJson x) := Json.parse_write (writable_toJson x)

theorem ofJsonText?_toJsonText {α : Type} [JsonForm α] [LawfulJsonForm α] (x : α) :
    ofJsonText? (toJsonText x) = some x := by
  rw [ofJsonText?, parse_toJsonText, Option.bind_some, ofJson?_toJson]

/-- `g` has the parts of `f`, and answers every question as `f` does -/
structure BloomFilter.Restores (f g : BloomFilter) : Prop where
  bits : g.bits = f.bits
  hashCount : g.hashCount = f.hashCount
  tweak : g.tweak = f.tweak
  update : g.update = f.update
  contains (element : List UInt8) : g.contains element = f.contains element
  containsOutPoint (o : OutPoint) : g.containsOutPoint o = f.containsOutPoint o
  matchTransaction (tx : Transaction) : g.matchTransaction tx = f.matchTransaction tx

/-- **The JSON form loses nothing.** Each value reads back from its text. The text of a filter is an
object with the bytes of its bits, however many they are, and the filter that is read from it has
the same bits, hash count, tweak and mode, and gives the same answers. -/
theorem json_texts_lose_nothing :
    (∀ h : Header, ofJsonText? (toJsonText h) = some h) ∧
    (∀ o : OutPoint, ofJsonText? (toJsonText o) = some o) ∧
    (∀ o : TxOut, ofJsonText? (toJsonText o) = some o) ∧
    (∀ tx : Transaction, ofJsonText? (toJsonText tx) = some tx) ∧
    (∀ b : Block, ofJsonText? (toJsonText b) = some b) ∧
    (∀ t : PartialTree, ofJsonText? (toJsonText t) = some t) ∧
    (∀ leaf : MatchedLeaf, ofJsonText? (toJsonText leaf) = some leaf) ∧
    (∀ r : MatchResult, ofJsonText? (toJsonText r) = some r) ∧
    (∀ b : MerkleBlock, ofJsonText? (toJsonText b) = some b) ∧
    (∀ c : ProverConfig, ofJsonText? (toJsonText c) = some c) ∧
    (∀ m : UpdateMode, ofJsonText? (toJsonText m) = some m) ∧
    (∀ f : BloomFilter, ofJsonText? (toJsonText f) = some f) ∧
    ∀ f : BloomFilter,
      Json.parse (toJsonText f) = some (.record
        [("bits", toJson f.toBytes), ("hash_funcs", toJson f.hashCount), ("tweak", toJson f.tweak),
         ("update", toJson f.update)]) ∧
      ∃ g, ofJsonText? (toJsonText f) = some g ∧ f.Restores g := by
  refine ⟨ofJsonText?_toJsonText, ofJsonText?_toJsonText, ofJsonText?_toJsonText,
    ofJsonText?_toJsonText, ofJsonText?_toJsonText, ofJsonText?_toJsonText, ofJsonText?_toJsonText,
    ofJsonText?_toJsonText, ofJsonText?_toJsonText, ofJsonText?_toJsonText, ofJsonText?_toJsonText,
    ofJsonText?_toJsonText, fun f => ⟨parse_toJsonText f, f, ofJsonText?_toJsonText f, ?_⟩⟩
  exact ⟨rfl, rfl, rfl, rfl, fun _ => rfl, fun _ => rfl, fun _ => rfl⟩

end BlockProof
