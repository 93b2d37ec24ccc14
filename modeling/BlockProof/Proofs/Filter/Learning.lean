import BlockProof.Filter

/-!
# What a filter learns from a transaction

A filter is its bits. Putting an element in sets the bits of that element, and an element is taken
to be in the filter when none of its bits is missing. A filter that learns puts in the outputs that
let a transaction pass, while it is still looking at that transaction. The first of these outputs
met the filter as it was before, so the verdict does not depend on what was learned on the way.

* `BloomFilter.HasBit`, `BloomFilter.Covers`   the bits of a filter, and those of an element;
* `BloomFilter.Alike`, `BloomFilter.Grows`     filters of one shape, and filters that gained bits;
* `BloomFilter.afterOutputs f tx v`            verdict and filter when `v` outputs have been seen;
* `BloomFilter.Learns f tx v`                  output number `v` is put in;
* `BloomFilter.MatchedAmong f tx v`            one of these outputs matched;
* `BloomFilter.Wants f tx`                     something about `tx` is in the filter;
* `BloomFilter.hasBit_matchTransaction`        the bits after a transaction;
* `BloomFilter.matchTransaction_fst_iff`       the verdict, told from the filter before;
* `BloomFilter.ToldFromBefore`                 all that a match does, told from the filter before;
* `BloomFilter.match_told_from_before`         the main result.
-/

namespace BlockProof

namespace BloomFilter

/-! ## bits -/

def HasBit (f : BloomFilter) (j : Nat) : Prop := f.bits[j]? = some true

/-- bit `j` is there and is one of the bits of `element` -/
def Covers (f : BloomFilter) (element : List UInt8) (j : Nat) : Prop :=
  j < f.bits.size ∧ j ∈ f.positions element

section
variable {f : BloomFilter} {e : List UInt8} {j : Nat}

theorem HasBit.lt_size (h : f.HasBit j) : j < f.bits.size :=
  (Array.getElem?_eq_some_iff.mp h).1

theorem covers_of_mem_positions (hsize : 0 < f.bits.size) (hj : j ∈ f.positions e) :
    f.Covers e j := ⟨hashPositions_lt hsize hj, hj⟩

theorem isEmpty_bits_iff : f.bits.isEmpty = true ↔ f.bits.size = 0 := decide_eq_true_iff

theorem not_covers_of_isEmpty (hempty : f.bits.isEmpty = true) : ¬ f.Covers e j := by
  intro hcovers
  have hlt : j < f.bits.size := hcovers.1
  rw [isEmpty_bits_iff.mp hempty] at hlt
  exact Nat.not_lt_zero j hlt

theorem getElem?_setBits {bits : Array Bool} {positions : List Nat} {j : Nat} :
    (setBits bits positions)[j]? = some true ↔
      bits[j]? = some true ∨ (j < bits.size ∧ j ∈ positions) := by
  unfold setBits
  induction positions generalizing bits with
  | nil => simp
  | cons p positions ih =>
    rw [List.foldl_cons, ih, Array.size_setIfInBounds, Array.getElem?_setIfInBounds, List.mem_cons]
    by_cases hp : p = j
    · by_cases hj : j < bits.size <;> simp [hp, hj]
    · simp [hp, Ne.symm hp]

theorem hasBit_insert : (f.insert e).HasBit j ↔ f.HasBit j ∨ f.Covers e j := by
  unfold insert
  split
  · next hempty => exact ⟨.inl, fun h => h.resolve_right (not_covers_of_isEmpty hempty)⟩
  · exact getElem?_setBits

/-- an element is in the filter when none of its bits is missing -/
theorem contains_iff : f.contains e = true ↔ ∀ j, f.Covers e j → f.HasBit j := by
  unfold contains
  split
  · next hempty =>
    exact ⟨fun _ j hj => absurd hj (not_covers_of_isEmpty hempty), fun _ => rfl⟩
  · next hfull =>
    have hsize : 0 < f.bits.size := Nat.pos_of_ne_zero fun h => hfull (isEmpty_bits_iff.mpr h)
    have hbit (p : Nat) : f.bits.getD p false = true ↔ f.HasBit p := by
      rw [HasBit, Array.getD_eq_getD_getElem?]
      cases f.bits[p]? <;> simp
    simp only [List.all_eq_true, hbit]
    exact ⟨fun h j hj => h j hj.2, fun h j hj => h j (covers_of_mem_positions hsize hj)⟩

end

/-! ## shape and growth -/

/-- two filters with as many bits, and with one way to set them -/
structure Alike (f g : BloomFilter) : Prop where
  size : g.bits.size = f.bits.size
  hashCount : g.hashCount = f.hashCount
  tweak : g.tweak = f.tweak
  update : g.update = f.update

/-- filter `f` has become `g` by gaining bits -/
structure Grows (f g : BloomFilter) : Prop extends Alike f g where
  bits : ∀ j, f.HasBit j → g.HasBit j

section
variable {f g k : BloomFilter} {e : List UInt8} {j : Nat}

theorem Alike.refl (f : BloomFilter) : f.Alike f := ⟨rfl, rfl, rfl, rfl⟩

theorem Alike.trans (h : f.Alike g) (h' : g.Alike k) : f.Alike k :=
  ⟨h'.size.trans h.size, h'.hashCount.trans h.hashCount, h'.tweak.trans h.tweak,
    h'.update.trans h.update⟩

theorem Alike.positions (h : f.Alike g) (e : List UInt8) : g.positions e = f.positions e := by
  rw [BloomFilter.positions, BloomFilter.positions, h.size, h.hashCount, h.tweak]

theorem Alike.covers_iff (h : f.Alike g) : g.Covers e j ↔ f.Covers e j := by
  rw [Covers, Covers, h.size, h.positions]

theorem Alike.eq_of_hasBit (h : f.Alike g) (hbits : ∀ j, g.HasBit j ↔ f.HasBit j) : g = f := by
  have heq : g.bits = f.bits := by
    refine Array.ext h.size ?_
    intro j hg hf
    have hiff := hbits j
    rw [HasBit, HasBit, Array.getElem?_eq_getElem hg, Array.getElem?_eq_getElem hf,
      Option.some_inj, Option.some_inj] at hiff
    exact Bool.eq_iff_iff.mpr hiff
  obtain ⟨bits, hashCount, tweak, update, hdvd⟩ := f
  obtain ⟨bits', hashCount', tweak', update', hdvd'⟩ := g
  obtain rfl : bits' = bits := heq
  obtain rfl : hashCount' = hashCount := h.hashCount
  obtain rfl : tweak' = tweak := h.tweak
  obtain rfl : update' = update := h.update
  rfl

theorem Grows.refl (f : BloomFilter) : f.Grows f := ⟨.refl f, fun _ hj => hj⟩

theorem Grows.trans (h : f.Grows g) (h' : g.Grows k) : f.Grows k :=
  ⟨h.toAlike.trans h'.toAlike, fun j hj => h'.bits j (h.bits j hj)⟩

theorem Grows.contains (h : f.Grows g) (he : f.contains e = true) : g.contains e = true :=
  contains_iff.mpr fun j hj => h.bits j (contains_iff.mp he j (h.toAlike.covers_iff.mp hj))

theorem Grows.matchesOutput {out : TxOut} (h : f.Grows g) (hout : f.matchesOutput out = true) :
    g.matchesOutput out = true := by
  obtain ⟨data, hdata, hin⟩ := List.any_eq_true.mp hout
  exact List.any_eq_true.mpr ⟨data, hdata, h.contains hin⟩

theorem alike_insert (f : BloomFilter) (e : List UInt8) : f.Alike (f.insert e) := by
  unfold BloomFilter.insert
  split
  · exact .refl f
  · exact ⟨size_setBits _ _, rfl, rfl, rfl⟩

end

/-! ## the outputs of a transaction, one after another -/

/-- the verdict and the filter when the first `v` outputs of `tx` have been looked at -/
def afterOutputs (f : BloomFilter) (tx : Transaction) (v : Nat) : Bool × BloomFilter :=
  (tx.outputs.zipIdx.take v).foldl (visitOutput tx) (f.contains tx.txid.bytes, f)

/-- output number `v` of `tx` pushes something that is in the filter by the time the filter looks at
it, and the filter learns -/
def Learns (f : BloomFilter) (tx : Transaction) (v : Nat) : Prop :=
  f.update = .all ∧ ∃ out, tx.outputs[v]? = some out ∧
    (f.afterOutputs tx v).2.matchesOutput out = true

section
variable {f : BloomFilter} {tx : Transaction} {v : Nat} {out : TxOut} {j : Nat}

theorem afterOutputs_zero (f : BloomFilter) (tx : Transaction) :
    f.afterOutputs tx 0 = (f.contains tx.txid.bytes, f) := rfl

theorem afterOutputs_succ (hout : tx.outputs[v]? = some out) :
    f.afterOutputs tx (v + 1) = visitOutput tx (f.afterOutputs tx v) (out, v) := by
  have hget : tx.outputs.zipIdx[v]? = some (out, v) := by
    rw [List.getElem?_zipIdx, hout, Nat.zero_add]
    rfl
  rw [afterOutputs, List.take_add_one, hget, List.foldl_append]
  rfl

theorem afterOutputs_length (f : BloomFilter) (tx : Transaction) :
    f.afterOutputs tx tx.outputs.length =
      tx.outputs.zipIdx.foldl (visitOutput tx) (f.contains tx.txid.bytes, f) := by
  rw [afterOutputs, ← List.length_zipIdx, List.take_length]

theorem visitOutput_fst (s : Bool × BloomFilter) :
    (visitOutput tx s (out, v)).1 = true ↔ s.1 = true ∨ s.2.matchesOutput out = true := by
  unfold visitOutput
  split <;> simp_all

theorem alike_visitOutput (s : Bool × BloomFilter) :
    s.2.Alike (visitOutput tx s (out, v)).2 := by
  unfold visitOutput
  split
  · split
    · exact alike_insert _ _
    · exact .refl _
  · exact .refl _

theorem hasBit_visitOutput (s : Bool × BloomFilter) :
    (visitOutput tx s (out, v)).2.HasBit j ↔ s.2.HasBit j ∨
      (s.2.update = .all ∧ s.2.matchesOutput out = true ∧
        s.2.Covers (tx.outPoint v).toBytes j) := by
  unfold visitOutput
  split
  · next hmatch =>
    split
    · next hall =>
      rw [insertOutPoint, hasBit_insert]
      simp [hall, hmatch]
    · next hnone => simp [hnone]
  · next hno => simp [hno]

theorem alike_afterOutputs (f : BloomFilter) (hv : v ≤ tx.outputs.length) :
    f.Alike (f.afterOutputs tx v).2 := by
  induction v with
  | zero => exact .refl f
  | succ v ih =>
    rw [afterOutputs_succ (List.getElem?_eq_getElem hv)]
    exact (ih (Nat.le_of_succ_le hv)).trans (alike_visitOutput _)

/-- the bits gained are those of the outputs learned -/
theorem hasBit_afterOutputs (hv : v ≤ tx.outputs.length) : (f.afterOutputs tx v).2.HasBit j ↔
    f.HasBit j ∨ ∃ u < v, f.Learns tx u ∧ f.Covers (tx.outPoint u).toBytes j := by
  induction v with
  | zero => simp [afterOutputs_zero]
  | succ v ih =>
    have halike := alike_afterOutputs f (Nat.le_of_succ_le hv)
    have hout : tx.outputs[v]? = some tx.outputs[v] := List.getElem?_eq_getElem hv
    have hlearns : f.Learns tx v ↔
        f.update = .all ∧ (f.afterOutputs tx v).2.matchesOutput tx.outputs[v] = true := by
      simp [Learns, hout]
    rw [afterOutputs_succ hout, hasBit_visitOutput, ih (Nat.le_of_succ_le hv), halike.update,
      halike.covers_iff, ← and_assoc, ← hlearns, or_assoc]
    refine or_congr_right ?_
    simp only [Nat.lt_succ_iff_lt_or_eq, or_and_right, exists_or, exists_eq_left]

theorem grows_afterOutputs (hv : v ≤ tx.outputs.length) : f.Grows (f.afterOutputs tx v).2 :=
  ⟨alike_afterOutputs f hv, fun _ hj => (hasBit_afterOutputs hv).mpr (.inl hj)⟩

/-! ## the first output to match -/

/-- one of the first `v` outputs of `tx` matched when its turn came -/
def MatchedAmong (f : BloomFilter) (tx : Transaction) (v : Nat) : Prop :=
  ∃ u out, u < v ∧ tx.outputs[u]? = some out ∧ (f.afterOutputs tx u).2.matchesOutput out = true

theorem not_matchedAmong_zero (f : BloomFilter) (tx : Transaction) : ¬ f.MatchedAmong tx 0 :=
  fun ⟨u, _, hu, _⟩ => Nat.not_lt_zero u hu

theorem matchedAmong_succ_iff (hout : tx.outputs[v]? = some out) : f.MatchedAmong tx (v + 1) ↔
    f.MatchedAmong tx v ∨ (f.afterOutputs tx v).2.matchesOutput out = true := by
  simp only [MatchedAmong, Nat.lt_succ_iff_lt_or_eq, or_and_right, exists_or]
  refine or_congr_right ?_
  simp [hout]

theorem afterOutputs_fst_iff (hv : v ≤ tx.outputs.length) : (f.afterOutputs tx v).1 = true ↔
    f.contains tx.txid.bytes = true ∨ f.MatchedAmong tx v := by
  induction v with
  | zero => simp [afterOutputs_zero, not_matchedAmong_zero]
  | succ v ih =>
    have hout : tx.outputs[v]? = some tx.outputs[v] := List.getElem?_eq_getElem hv
    rw [afterOutputs_succ hout, visitOutput_fst, ih (Nat.le_of_succ_le hv),
      matchedAmong_succ_iff hout, or_assoc]

theorem afterOutputs_of_not_matchedAmong (hv : v ≤ tx.outputs.length)
    (hnone : ¬ f.MatchedAmong tx v) : (f.afterOutputs tx v).2 = f := by
  refine (alike_afterOutputs f hv).eq_of_hasBit ?_
  intro j
  rw [hasBit_afterOutputs hv]
  refine ⟨fun h => h.resolve_right ?_, .inl⟩
  rintro ⟨u, hu, ⟨-, out, hout, hmatch⟩, -⟩
  exact hnone ⟨u, out, hu, hout, hmatch⟩

/-- some output matches when its turn comes just if some output matches the filter before: the first
to match meets the filter as it was -/
theorem matchedAmong_iff (hv : v ≤ tx.outputs.length) : f.MatchedAmong tx v ↔
    ∃ u out, u < v ∧ tx.outputs[u]? = some out ∧ f.matchesOutput out = true := by
  refine ⟨?_, ?_⟩
  · intro h
    induction v with
    | zero => exact absurd h (not_matchedAmong_zero f tx)
    | succ v ih =>
      have hout : tx.outputs[v]? = some tx.outputs[v] := List.getElem?_eq_getElem hv
      by_cases hearlier : f.MatchedAmong tx v
      · obtain ⟨u, out, hu, hrest⟩ := ih (Nat.le_of_succ_le hv) hearlier
        exact ⟨u, out, Nat.lt_succ_of_lt hu, hrest⟩
      · have hmatch := ((matchedAmong_succ_iff hout).mp h).resolve_left hearlier
        rw [afterOutputs_of_not_matchedAmong (Nat.le_of_succ_le hv) hearlier] at hmatch
        exact ⟨v, _, Nat.lt_succ_self v, hout, hmatch⟩
  · rintro ⟨u, out, hu, hout, hmatch⟩
    have hle : u ≤ tx.outputs.length := Nat.le_trans (Nat.le_of_lt hu) hv
    exact ⟨u, out, hu, hout, (grows_afterOutputs hle).matchesOutput hmatch⟩

end

/-! ## a whole transaction -/

section
variable {f g : BloomFilter} {tx : Transaction}

/-- what lets `tx` pass: its id, something that an output pushes, or an output that it spends -/
def Wants (f : BloomFilter) (tx : Transaction) : Prop :=
  f.contains tx.txid.bytes = true ∨ (∃ out ∈ tx.outputs, f.matchesOutput out = true) ∨
    ∃ o ∈ tx.inputs, f.containsOutPoint o = true

theorem matchTransaction_snd (f : BloomFilter) (tx : Transaction) :
    (f.matchTransaction tx).2 = (f.afterOutputs tx tx.outputs.length).2 := by
  rw [matchTransaction, ← afterOutputs_length]
  split <;> rfl

theorem matchTransaction_fst (f : BloomFilter) (tx : Transaction) :
    (f.matchTransaction tx).1 = ((f.afterOutputs tx tx.outputs.length).1 ||
      tx.inputs.any (f.afterOutputs tx tx.outputs.length).2.containsOutPoint) := by
  rw [matchTransaction, ← afterOutputs_length]
  split <;> simp_all

theorem alike_matchTransaction (f : BloomFilter) (tx : Transaction) :
    f.Alike (f.matchTransaction tx).2 := by
  rw [matchTransaction_snd]
  exact alike_afterOutputs f (Nat.le_refl _)

theorem hasBit_matchTransaction {j : Nat} : (f.matchTransaction tx).2.HasBit j ↔
    f.HasBit j ∨ ∃ v, f.Learns tx v ∧ f.Covers (tx.outPoint v).toBytes j := by
  rw [matchTransaction_snd, hasBit_afterOutputs (Nat.le_refl _)]
  refine or_congr_right (exists_congr fun v => ?_)
  refine ⟨fun h => h.2, fun h => ⟨?_, h⟩⟩
  obtain ⟨-, out, hout, -⟩ := h.1
  exact (List.getElem?_eq_some_iff.mp hout).1

theorem grows_matchTransaction (f : BloomFilter) (tx : Transaction) :
    f.Grows (f.matchTransaction tx).2 :=
  ⟨alike_matchTransaction f tx, fun _ hj => hasBit_matchTransaction.mpr (.inl hj)⟩

theorem matchTransaction_fst_iff : (f.matchTransaction tx).1 = true ↔ f.Wants tx := by
  have hlast : tx.outputs.length ≤ tx.outputs.length := Nat.le_refl _
  have houtputs : f.MatchedAmong tx tx.outputs.length ↔
      ∃ out ∈ tx.outputs, f.matchesOutput out = true := by
    rw [matchedAmong_iff hlast]
    refine ⟨?_, ?_⟩
    · rintro ⟨u, out, -, hout, hmatch⟩
      exact ⟨out, List.mem_of_getElem? hout, hmatch⟩
    · rintro ⟨out, hmem, hmatch⟩
      obtain ⟨u, hu⟩ := List.getElem?_of_mem hmem
      exact ⟨u, out, (List.getElem?_eq_some_iff.mp hu).1, hu, hmatch⟩
  rw [matchTransaction_fst, Bool.or_eq_true, afterOutputs_fst_iff hlast, List.any_eq_true]
  by_cases hsome : f.MatchedAmong tx tx.outputs.length
  · exact ⟨fun _ => .inr (.inl (houtputs.mp hsome)), fun _ => .inl (.inr hsome)⟩
  · rw [afterOutputs_of_not_matchedAmong hlast hsome, houtputs, or_assoc]
    rfl

theorem Grows.wants (h : f.Grows g) (hwants : f.Wants tx) : g.Wants tx := by
  rcases hwants with hid | ⟨out, hout, hmatch⟩ | ⟨o, ho, hin⟩
  · exact .inl (h.contains hid)
  · exact .inr (.inl ⟨out, hout, h.matchesOutput hmatch⟩)
  · exact .inr (.inr ⟨o, ho, h.contains hin⟩)

theorem learns_of_matchesOutput (hall : f.update = .all) {v : Nat} {out : TxOut}
    (hout : tx.outputs[v]? = some out) (hmatch : f.matchesOutput out = true) : f.Learns tx v := by
  have hv : v ≤ tx.outputs.length := Nat.le_of_lt (List.getElem?_eq_some_iff.mp hout).1
  exact ⟨hall, out, hout, (grows_afterOutputs hv).matchesOutput hmatch⟩

theorem Learns.contains {v : Nat} (h : f.Learns tx v) :
    (f.matchTransaction tx).2.containsOutPoint (tx.outPoint v) = true := by
  refine contains_iff.mpr ?_
  intro j hj
  rw [(alike_matchTransaction f tx).covers_iff] at hj
  exact hasBit_matchTransaction.mpr (.inr ⟨v, h, hj⟩)

theorem not_learns_of_refuse (hrefuse : (f.matchTransaction tx).1 = false) (v : Nat) :
    ¬ f.Learns tx v := by
  rintro ⟨-, out, hout, hmatch⟩
  have hv : v < tx.outputs.length := (List.getElem?_eq_some_iff.mp hout).1
  have hsome : f.MatchedAmong tx tx.outputs.length := ⟨v, out, hv, hout, hmatch⟩
  have hpass : (f.afterOutputs tx tx.outputs.length).1 = true :=
    (afterOutputs_fst_iff (Nat.le_refl _)).mpr (.inr hsome)
  rw [matchTransaction_fst, hpass, Bool.true_or] at hrefuse
  cases hrefuse

theorem matchTransaction_snd_of_not_learns (hnone : ∀ v, ¬ f.Learns tx v) :
    (f.matchTransaction tx).2 = f := by
  refine (alike_matchTransaction f tx).eq_of_hasBit ?_
  intro j
  rw [hasBit_matchTransaction]
  refine ⟨fun h => h.resolve_right ?_, .inl⟩
  rintro ⟨v, hlearns, -⟩
  exact hnone v hlearns

theorem matchTransaction_snd_of_none (hnone : f.update = .none) :
    (f.matchTransaction tx).2 = f := by
  refine matchTransaction_snd_of_not_learns ?_
  rintro v ⟨hall, -⟩
  rw [hnone] at hall
  cases hall

theorem Learns.mem_created {v : Nat} (h : f.Learns tx v) : tx.outPoint v ∈ tx.created := by
  obtain ⟨-, out, hout, -⟩ := h
  have hv : v < tx.outputs.length := (List.getElem?_eq_some_iff.mp hout).1
  exact List.mem_map.mpr ⟨v, List.mem_range.mpr hv, rfl⟩

def withUpdate (f : BloomFilter) (mode : UpdateMode) : BloomFilter := { f with update := mode }

theorem wants_withUpdate {mode : UpdateMode} : (f.withUpdate mode).Wants tx ↔ f.Wants tx := Iff.rfl

end

/-! ## all of it, from the filter before -/

theorem matchesOutput_iff {f : BloomFilter} {out : TxOut} : f.matchesOutput out = true ↔
    ∃ data ∈ dataPushes out.scriptPubkey, f.contains data = true := List.any_eq_true

/-- what `f` answers about `tx`, and what has become of it then, by what is in `f` before -/
structure ToldFromBefore (f : BloomFilter) (tx : Transaction) : Prop where
  verdict : (f.matchTransaction tx).1 = true ↔ f.contains tx.txid.bytes = true ∨
    (∃ out ∈ tx.outputs, ∃ data ∈ dataPushes out.scriptPubkey, f.contains data = true) ∨
      ∃ o ∈ tx.inputs, f.containsOutPoint o = true
  /-- learning on the way does not show in the verdict -/
  verdict_withUpdate : ∀ mode,
    ((f.withUpdate mode).matchTransaction tx).1 = (f.matchTransaction tx).1
  unchanged : (f.matchTransaction tx).1 = false ∨ f.update = .none → (f.matchTransaction tx).2 = f
  learned : f.update = .all → ∀ (v : Nat) (out : TxOut), tx.outputs[v]? = some out →
    (∃ data ∈ dataPushes out.scriptPubkey, f.contains data = true) →
      (f.matchTransaction tx).2.containsOutPoint (tx.outPoint v) = true
  /-- nothing but bits is gained -/
  alike : f.Alike (f.matchTransaction tx).2
  bits_stay : ∀ j : Nat, f.bits[j]? = some true → (f.matchTransaction tx).2.bits[j]? = some true
  bits_gained : ∀ j : Nat, (f.matchTransaction tx).2.bits[j]? = some true →
    f.bits[j]? = some true ∨ ∃ o ∈ tx.created, j ∈ f.positions o.toBytes

/-- **A match is told from the filter before it**, whatever the filter learns while it looks at the
outputs one after another: the verdict, that it is the same in both modes, and what is learned. -/
theorem match_told_from_before (f : BloomFilter) (tx : Transaction) : f.ToldFromBefore tx := by
  have hverdict {g : BloomFilter} : (g.matchTransaction tx).1 = true ↔ g.Wants tx :=
    matchTransaction_fst_iff
  exact
    { verdict := by
        rw [hverdict, Wants]
        simp only [matchesOutput_iff]
      verdict_withUpdate := by
        intro mode
        rw [Bool.eq_iff_iff, hverdict, hverdict, wants_withUpdate]
      unchanged := by
        rintro (hrefuse | hnone)
        · exact matchTransaction_snd_of_not_learns (not_learns_of_refuse hrefuse)
        · exact matchTransaction_snd_of_none hnone
      learned := by
        intro hall v out hout hpush
        exact (learns_of_matchesOutput hall hout (matchesOutput_iff.mpr hpush)).contains
      alike := alike_matchTransaction f tx
      bits_stay := (grows_matchTransaction f tx).bits
      bits_gained := by
        intro j hj
        refine (hasBit_matchTransaction.mp hj).imp_right ?_
        rintro ⟨v, hlearns, hcovers⟩
        exact ⟨tx.outPoint v, hlearns.mem_created, hcovers.2⟩ }

end BloomFilter

end BlockProof
