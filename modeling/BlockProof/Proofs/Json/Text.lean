import BlockProof.Json.Text
import BlockProof.Proofs.Json.Words

/-!
# Texts read back as the values they were written for

From a stage that waits for a value, the text of a value leads to the stage after that value,
whatever stands around it: this is proved for simple values word by word, and carried through arrays
and objects by induction on the value. What has been read of a container is kept with the newest
first, so the inductions over its parts are for any parts read before.

* `Writable v`                what a written value is made of;
* `parseFrom_word`            one word moves the machine one step;
* `ReadsBack v`               the text of `v` leads past `v`, in front of what may follow a value;
* `parseFrom_itemChars`, `parseFrom_memberChars`   the parts of a container;
* `Writable.readsBack`, `parse_write`   the text of a value reads back as that value.
-/

namespace BlockProof.Json

/-- a value whose strings and keys have texts, and whose numerals have digits after the point -/
inductive Writable : Json → Prop where
  | null : Writable null
  | bool (b : Bool) : Writable (bool b)
  | number {n : Decimal.Numeral} (digits : ∀ d ∈ n.fraction, d < 10) : Writable (number n)
  | string (s : String) : Writable (string (some s))
  | array {items : List Json} (values : ∀ v ∈ items, Writable v) : Writable (array items)
  | object {members : List (Literal × Json)} (keys : ∀ m ∈ members, m.1.isSome = true)
      (values : ∀ m ∈ members, Writable m.2) : Writable (object members)

/-! ## one word -/

section
variable {stage next : Stage} {frames : List Frame} {cs rest : List Char} {t : Token}

theorem parseFrom_of_readToken (h : readToken cs = some (t, rest)) :
    parseFrom stage cs = (stage.step t).bind fun next => parseFrom next rest := by
  have hne : cs.isEmpty = false := by
    cases cs with
    | nil => cases h
    | cons c cs => rfl
  rw [parseFrom.eq_def stage cs, skipBlanks_of_readToken h, hne, if_neg Bool.false_ne_true]
  split
  · next hnone =>
    rw [h] at hnone
    cases hnone
  · next t' rest' hsome =>
    rw [h] at hsome
    cases hsome
    cases stage.step t <;> rfl

theorem parseFrom_word (h : readToken cs = some (t, rest)) (hstep : stage.step t = some next) :
    parseFrom stage cs = parseFrom next rest := by
  rw [parseFrom_of_readToken h, hstep, Option.bind_some]

theorem parseFrom_firstItem (h : readToken cs = some (t, rest)) (ht : t ≠ .closeArray) :
    parseFrom (.firstItem frames) cs = parseFrom (.value (.array [] :: frames)) cs := by
  rw [parseFrom_of_readToken h, parseFrom_of_readToken h]
  cases t with
  | closeArray => exact absurd rfl ht
  | _ => rfl

end

/-! ## simple values -/

/-- the text of `v` leads past `v`, in front of what cannot belong to a numeral -/
def ReadsBack (v : Json) : Prop :=
  ∀ (frames : List Frame) (rest : List Char), NoNumeral rest →
    parseFrom (.value frames) (chars v ++ rest) = parseFrom (Stage.put v frames) rest

theorem noNumeral_nil : NoNumeral [] := fun c hc => by cases hc

theorem noNumeral_cons {c : Char} (hc : c ∈ [',', ']', '}']) (cs : List Char) :
    NoNumeral (c :: cs) := by
  intro d hd
  cases hd
  simp only [List.mem_cons, List.not_mem_nil, or_false] at hc
  rcases hc with rfl | rfl | rfl <;> decide

theorem Writable.exists_word {v : Json} (hv : Writable v) {rest : List Char}
    (hrest : NoNumeral rest) :
    ∃ t rest', readToken (chars v ++ rest) = some (t, rest') ∧ t ≠ .closeArray := by
  cases hv with
  | null => exact ⟨.null, _, rfl, by decide⟩
  | bool b =>
    cases b with
    | true => exact ⟨.bool true, _, rfl, by decide⟩
    | false => exact ⟨.bool false, _, rfl, by decide⟩
  | number hdigits => exact ⟨_, _, readToken_text .plus hdigits hrest, Token.noConfusion⟩
  | string s => exact ⟨_, _, readToken_quote s rest, Token.noConfusion⟩
  | array => exact ⟨.openArray, _, rfl, by decide⟩
  | object => exact ⟨.openObject, _, rfl, by decide⟩

/-! ## containers -/

section
variable {frames : List Frame} {rest : List Char}

theorem parseFrom_itemChars {v : Json} {items : List Json} (h : ∀ w ∈ v :: items, ReadsBack w)
    (done : List Json) :
    parseFrom (.value (.array done :: frames)) (itemChars (v :: items) ++ ']' :: rest) =
      parseFrom (Stage.put (.array (done.reverse ++ v :: items)) frames) rest := by
  induction items generalizing v done with
  | nil =>
    have hv := h v List.mem_cons_self
    rw [itemChars, hv _ _ (noNumeral_cons (by decide) rest), ← List.reverse_cons]
    exact parseFrom_word rfl rfl
  | cons w items ih =>
    obtain ⟨hv, hitems⟩ := List.forall_mem_cons.mp h
    have htail := ih hitems (v :: done)
    rw [List.reverse_cons, List.append_assoc, List.singleton_append] at htail
    rw [← htail, itemChars, List.append_assoc, List.cons_append,
      hv _ _ (noNumeral_cons (by decide) _)]
    · exact parseFrom_word rfl rfl
    · exact List.cons_ne_nil w items

theorem exists_itemChars_eq (v : Json) (items : List Json) (rest : List Char) :
    ∃ cs, NoNumeral cs ∧ itemChars (v :: items) ++ ']' :: rest = chars v ++ cs := by
  cases items with
  | nil => exact ⟨_, noNumeral_cons (by decide) rest, rfl⟩
  | cons w items =>
    refine ⟨',' :: (itemChars (w :: items) ++ ']' :: rest), noNumeral_cons (by decide) _, ?_⟩
    rw [itemChars, List.append_assoc, List.cons_append]
    exact List.cons_ne_nil w items

theorem parseFrom_array {v : Json} {items : List Json} (hv : Writable v)
    (h : ∀ w ∈ v :: items, ReadsBack w) :
    parseFrom (.value frames) (chars (.array (v :: items)) ++ rest) =
      parseFrom (Stage.put (.array (v :: items)) frames) rest := by
  have hchars : chars (.array (v :: items)) ++ rest =
      '[' :: (itemChars (v :: items) ++ ']' :: rest) :=
    congrArg (List.cons _) (List.append_assoc _ _ _)
  obtain ⟨cs, hcs, heq⟩ := exists_itemChars_eq v items rest
  obtain ⟨t, rest', hread, ht⟩ := hv.exists_word hcs
  rw [← heq] at hread
  calc parseFrom (.value frames) (chars (.array (v :: items)) ++ rest)
      = parseFrom (.firstItem frames) (itemChars (v :: items) ++ ']' :: rest) := by
        rw [hchars]
        exact parseFrom_word rfl rfl
    _ = parseFrom (.value (.array [] :: frames)) (itemChars (v :: items) ++ ']' :: rest) :=
        parseFrom_firstItem hread ht
    _ = parseFrom (Stage.put (.array (v :: items)) frames) rest := parseFrom_itemChars h []

theorem parseFrom_member {m : Literal × Json} (hm : m.1.isSome = true ∧ ReadsBack m.2)
    (hrest : NoNumeral rest) (done : List (Literal × Json)) :
    parseFrom (.key done frames) (quote m.1 ++ ':' :: (chars m.2 ++ rest)) =
      parseFrom (.afterMember (m :: done) frames) rest := by
  obtain ⟨k, v⟩ := m
  obtain ⟨s, rfl⟩ := Option.isSome_iff_exists.mp hm.1
  calc parseFrom (.key done frames) (quote (some s) ++ ':' :: (chars v ++ rest))
      = parseFrom (.colon done (some s) frames) (':' :: (chars v ++ rest)) :=
        parseFrom_word (readToken_quote s _) rfl
    _ = parseFrom (.value (.object done (some s) :: frames)) (chars v ++ rest) :=
        parseFrom_word rfl rfl
    _ = parseFrom (.afterMember ((some s, v) :: done) frames) rest := hm.2 _ _ hrest

theorem parseFrom_memberChars {m : Literal × Json} {members : List (Literal × Json)}
    (h : ∀ l ∈ m :: members, l.1.isSome = true ∧ ReadsBack l.2) (done : List (Literal × Json)) :
    parseFrom (.key done frames) (memberChars (m :: members) ++ '}' :: rest) =
      parseFrom (Stage.put (.object (done.reverse ++ m :: members)) frames) rest := by
  induction members generalizing m done with
  | nil =>
    have hm := h m List.mem_cons_self
    rw [memberChars, List.append_assoc, List.cons_append,
      parseFrom_member hm (noNumeral_cons (c := '}') (by decide) _), ← List.reverse_cons]
    exact parseFrom_word rfl rfl
  | cons l members ih =>
    obtain ⟨hm, hmembers⟩ := List.forall_mem_cons.mp h
    have htail := ih hmembers (m :: done)
    rw [List.reverse_cons, List.append_assoc, List.singleton_append] at htail
    rw [← htail, memberChars, List.append_assoc, List.cons_append, List.append_assoc,
      List.cons_append, parseFrom_member hm (noNumeral_cons (c := ',') (by decide) _)]
    · exact parseFrom_word rfl rfl
    · exact List.cons_ne_nil l members

theorem exists_memberChars_eq (m : Literal × Json) (members : List (Literal × Json)) :
    ∃ cs, memberChars (m :: members) = quote m.1 ++ cs := by
  cases members with
  | nil => exact ⟨_, rfl⟩
  | cons l members => exact ⟨_, memberChars.eq_3 m.1 m.2 _ (List.cons_ne_nil l members)⟩

theorem parseFrom_object {m : Literal × Json} {members : List (Literal × Json)}
    (h : ∀ l ∈ m :: members, l.1.isSome = true ∧ ReadsBack l.2) :
    parseFrom (.value frames) (chars (.object (m :: members)) ++ rest) =
      parseFrom (Stage.put (.object (m :: members)) frames) rest := by
  have hchars : chars (.object (m :: members)) ++ rest =
      '{' :: (memberChars (m :: members) ++ '}' :: rest) :=
    congrArg (List.cons _) (List.append_assoc _ _ _)
  have hread : ∃ s cs, readToken (memberChars (m :: members) ++ '}' :: rest) =
      some (.string s, cs) := by
    obtain ⟨s, hs⟩ := Option.isSome_iff_exists.mp (h m List.mem_cons_self).1
    obtain ⟨cs, hcs⟩ := exists_memberChars_eq m members
    rw [hcs, hs, List.append_assoc]
    exact ⟨_, _, readToken_quote s _⟩
  obtain ⟨s, cs, hread⟩ := hread
  calc parseFrom (.value frames) (chars (.object (m :: members)) ++ rest)
      = parseFrom (.firstKey frames) (memberChars (m :: members) ++ '}' :: rest) := by
        rw [hchars]
        exact parseFrom_word rfl rfl
    _ = parseFrom (.colon [] s frames) cs := parseFrom_word hread rfl
    _ = parseFrom (.key [] frames) (memberChars (m :: members) ++ '}' :: rest) :=
        (parseFrom_word hread rfl).symm
    _ = parseFrom (Stage.put (.object (m :: members)) frames) rest := parseFrom_memberChars h []

end

/-! ## whole texts -/

theorem Writable.readsBack {v : Json} (hv : Writable v) : ReadsBack v := by
  induction hv with
  | null => exact fun _ _ _ => parseFrom_word rfl rfl
  | bool b => cases b <;> exact fun _ _ _ => parseFrom_word rfl rfl
  | number hdigits => exact fun _ _ hrest => parseFrom_word (readToken_text .plus hdigits hrest) rfl
  | string s => exact fun _ rest _ => parseFrom_word (readToken_quote s rest) rfl
  | @array items hitems ih =>
    intro frames rest _
    cases items with
    | nil => exact (parseFrom_word rfl rfl).trans (parseFrom_word rfl rfl)
    | cons v items => exact parseFrom_array (hitems v List.mem_cons_self) ih
  | @object members hkeys hvalues ih =>
    intro frames rest _
    cases members with
    | nil => exact (parseFrom_word rfl rfl).trans (parseFrom_word rfl rfl)
    | cons m members => exact parseFrom_object fun l hl => ⟨hkeys l hl, ih l hl⟩

theorem parseFrom_finished (v : Json) : parseFrom (.finished v) [] = some v := by
  rw [parseFrom.eq_def]
  rfl

/-- the text of a value reads back as that value -/
theorem parse_write {v : Json} (hv : Writable v) : parse v.write = some v := by
  have hread := hv.readsBack [] [] noNumeral_nil
  rw [List.append_nil] at hread
  rw [parse, write, String.toList_ofList, hread]
  exact parseFrom_finished v

end BlockProof.Json
