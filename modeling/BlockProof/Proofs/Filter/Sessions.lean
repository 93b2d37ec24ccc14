import BlockProof.Proofs.Filter.Learning

/-!
# Filters in use

A client puts elements into a filter, asks it and clears it, and transactions are matched against
it, in any order. After all that, the bits of the filter are those that it began with, unless it has
been cleared, and those of the elements put in since it was last cleared. A match puts elements in
as well: the outpoints of the outputs that the filter learns.

* `BloomFilter.Operation`       what can be done with a filter, its effect and its answer;
* `BloomFilter.run f ops`       the filter after operations;
* `BloomFilter.SinceClear`      an element has been put in and not been cleared away;
* `BloomFilter.hasBit_run`      the bits after operations;
* `BloomFilter.HoldsWhatWasPutIn`, `BloomFilter.run_holds_what_was_put_in`   the main result.
-/

namespace BlockProof

namespace BloomFilter

/-! ## operations -/

inductive Operation where
  | insert (element : List UInt8)
  | insertOutPoint (o : OutPoint)
  | clear
  | contains (element : List UInt8)
  | matchTransaction (tx : Transaction)

namespace Operation

def after (f : BloomFilter) : Operation → BloomFilter
  | insert element => f.insert element
  | insertOutPoint o => f.insertOutPoint o
  | clear => f.clear
  | contains _ => f
  | matchTransaction tx => (f.matchTransaction tx).2

def answer (f : BloomFilter) : Operation → Option Bool
  | contains element => some (f.contains element)
  | matchTransaction tx => some (f.matchTransaction tx).1
  | _ => none

/-- the operation, done with `f`, puts an element in -/
inductive PutsIn (f : BloomFilter) : Operation → List UInt8 → Prop where
  | element (e : List UInt8) : PutsIn f (.insert e) e
  | outPoint (o : OutPoint) : PutsIn f (.insertOutPoint o) o.toBytes
  | learned {tx : Transaction} {v : Nat} (h : f.Learns tx v) :
      PutsIn f (.matchTransaction tx) (tx.outPoint v).toBytes

end Operation

def run (f : BloomFilter) (ops : List Operation) : BloomFilter := ops.foldl Operation.after f

/-- one of `ops` has put `e` in, and the filter has not been cleared since -/
def SinceClear (f : BloomFilter) (ops : List Operation) (e : List UInt8) : Prop :=
  ∃ before op after, ops = before ++ op :: after ∧ .clear ∉ after ∧ op.PutsIn (f.run before) e

/-- bit `j` was set before `ops`, none of which clears the filter -/
def Survives (f : BloomFilter) (ops : List Operation) (j : Nat) : Prop :=
  .clear ∉ ops ∧ f.HasBit j

/-! ## one operation -/

section
variable {f g : BloomFilter} {op : Operation} {j : Nat}

theorem alike_clear (f : BloomFilter) : f.Alike f.clear :=
  ⟨Array.size_replicate, rfl, rfl, rfl⟩

theorem not_hasBit_clear : ¬ f.clear.HasBit j := by
  intro h
  obtain ⟨_, hval⟩ := Array.getElem?_eq_some_iff.mp h
  cases (Array.getElem_replicate _).symm.trans hval

theorem alike_after (f : BloomFilter) (op : Operation) : f.Alike (op.after f) := by
  cases op with
  | insert e => exact alike_insert f e
  | insertOutPoint o => exact alike_insert f o.toBytes
  | clear => exact alike_clear f
  | contains e => exact .refl f
  | matchTransaction tx => exact alike_matchTransaction f tx

/-- an operation keeps the bits, unless it clears them, and sets those of what it puts in -/
theorem hasBit_after : (op.after f).HasBit j ↔
    (op ≠ .clear ∧ f.HasBit j) ∨ ∃ e, op.PutsIn f e ∧ f.Covers e j := by
  cases op with
  | insert e =>
    refine hasBit_insert.trans (or_congr ⟨fun h => ⟨nofun, h⟩, fun h => h.2⟩ ?_)
    exact ⟨fun h => ⟨e, .element e, h⟩, fun ⟨_, .element _, h⟩ => h⟩
  | insertOutPoint o =>
    refine hasBit_insert.trans (or_congr ⟨fun h => ⟨nofun, h⟩, fun h => h.2⟩ ?_)
    exact ⟨fun h => ⟨o.toBytes, .outPoint o, h⟩, fun ⟨_, .outPoint _, h⟩ => h⟩
  | clear =>
    refine ⟨fun h => absurd h not_hasBit_clear, ?_⟩
    rintro (⟨hne, -⟩ | ⟨e, hputs, -⟩)
    · exact absurd rfl hne
    · cases hputs
  | contains e =>
    refine ⟨fun h => .inl ⟨nofun, h⟩, ?_⟩
    rintro (⟨-, h⟩ | ⟨e, hputs, -⟩)
    · exact h
    · cases hputs
  | matchTransaction tx =>
    refine hasBit_matchTransaction.trans (or_congr ⟨fun h => ⟨nofun, h⟩, fun h => h.2⟩ ?_)
    exact ⟨fun ⟨v, h, hj⟩ => ⟨_, .learned h, hj⟩, fun ⟨_, .learned h, hj⟩ => ⟨_, h, hj⟩⟩

theorem Grows.answer (h : f.Grows g) (hop : op.answer f = some true) :
    op.answer g = some true := by
  cases op with
  | insert e => cases hop
  | insertOutPoint o => cases hop
  | clear => cases hop
  | contains e => exact congrArg some (h.contains (Option.some.inj hop))
  | matchTransaction tx =>
    have hwants : f.Wants tx := matchTransaction_fst_iff.mp (Option.some.inj hop)
    exact congrArg some (matchTransaction_fst_iff.mpr (h.wants hwants))

end

/-! ## any number of operations -/

section
variable {f g : BloomFilter} {op : Operation} {ops more : List Operation} {e : List UInt8} {j : Nat}

theorem run_append (f : BloomFilter) (ops more : List Operation) :
    f.run (ops ++ more) = (f.run ops).run more := List.foldl_append

theorem alike_run (f : BloomFilter) (ops : List Operation) : f.Alike (f.run ops) := by
  induction ops generalizing f with
  | nil => exact .refl f
  | cons op ops ih => exact (alike_after f op).trans (ih (op.after f))

theorem survives_cons_iff : f.Survives (op :: ops) j ↔
    .clear ∉ ops ∧ op ≠ .clear ∧ f.HasBit j := by
  rw [Survives, List.mem_cons, not_or, ne_comm, and_assoc, and_left_comm]

theorem sinceClear_cons_iff : f.SinceClear (op :: ops) e ↔
    (.clear ∉ ops ∧ op.PutsIn f e) ∨ (op.after f).SinceClear ops e := by
  refine ⟨?_, ?_⟩
  · rintro ⟨before, op', after, hsplit, hclear, hputs⟩
    cases before with
    | nil =>
      obtain ⟨rfl, rfl⟩ := List.cons.inj hsplit
      exact .inl ⟨hclear, hputs⟩
    | cons _ before =>
      obtain ⟨rfl, hrest⟩ := List.cons.inj hsplit
      exact .inr ⟨before, op', after, hrest, hclear, hputs⟩
  · rintro (⟨hclear, hputs⟩ | ⟨before, op', after, rfl, hclear, hputs⟩)
    · exact ⟨[], op, ops, rfl, hclear, hputs⟩
    · exact ⟨op :: before, op', after, rfl, hclear, hputs⟩

/-- after operations a filter has the bits that it began with, as long as nothing clears them, and
those of what has been put in since it was last cleared -/
theorem hasBit_run : (f.run ops).HasBit j ↔
    f.Survives ops j ∨ ∃ e, f.SinceClear ops e ∧ f.Covers e j := by
  induction ops generalizing f with
  | nil =>
    refine ⟨fun h => .inl ⟨List.not_mem_nil, h⟩, ?_⟩
    rintro (⟨-, h⟩ | ⟨e, ⟨before, op, after, hsplit, -, -⟩, -⟩)
    · exact h
    · cases before <;> cases hsplit
  | cons op ops ih =>
    show ((op.after f).run ops).HasBit j ↔ _
    rw [ih, survives_cons_iff]
    simp only [Survives, hasBit_after, (alike_after f op).covers_iff, sinceClear_cons_iff,
      or_and_right, exists_or, and_or_left, and_assoc, exists_and_left, or_assoc]

theorem grows_run (hclear : .clear ∉ ops) : f.Grows (f.run ops) :=
  ⟨alike_run f ops, fun _ hj => hasBit_run.mpr (.inl ⟨hclear, hj⟩)⟩

theorem SinceClear.contains (h : f.SinceClear ops e) : (f.run ops).contains e = true := by
  refine contains_iff.mpr ?_
  intro j hj
  rw [(alike_run f ops).covers_iff] at hj
  exact hasBit_run.mpr (.inr ⟨e, h, hj⟩)

theorem Alike.run_eq {ops' : List Operation} (h : f.Alike g)
    (hsurvive : ∀ j, g.Survives ops' j ↔ f.Survives ops j)
    (hputs : ∀ e, g.SinceClear ops' e ↔ f.SinceClear ops e) : g.run ops' = f.run ops := by
  refine Alike.eq_of_hasBit ?_ ?_
  · have hf := alike_run f ops
    have hg := alike_run g ops'
    exact ⟨hg.size.trans (h.size.trans hf.size.symm),
      hg.hashCount.trans (h.hashCount.trans hf.hashCount.symm),
      hg.tweak.trans (h.tweak.trans hf.tweak.symm),
      hg.update.trans (h.update.trans hf.update.symm)⟩
  · intro j
    simp only [hasBit_run, hsurvive, hputs, h.covers_iff]

/-! ## filters without bits -/

theorem eq_of_size_eq_zero (hsize : f.bits.size = 0) (h : f.Alike g) : g = f := by
  have hnone (k : BloomFilter) (hk : k.bits.size = 0) (j : Nat) : ¬ k.HasBit j :=
    fun hj => Nat.not_lt_zero j (hk ▸ hj.lt_size)
  exact h.eq_of_hasBit fun j =>
    ⟨fun hj => absurd hj (hnone g (h.size.trans hsize) j), fun hj => absurd hj (hnone f hsize j)⟩

theorem contains_of_size_eq_zero (hsize : f.bits.size = 0) (e : List UInt8) :
    f.contains e = true :=
  contains_iff.mpr fun _ hj => absurd hj (not_covers_of_isEmpty (isEmpty_bits_iff.mpr hsize))

theorem answer_of_size_eq_zero (hsize : f.bits.size = 0) {a : Bool} (h : op.answer f = some a) :
    a = true := by
  cases op with
  | insert e => cases h
  | insertOutPoint o => cases h
  | clear => cases h
  | contains e => exact (Option.some.inj h).symm.trans (contains_of_size_eq_zero hsize e)
  | matchTransaction tx =>
    refine (Option.some.inj h).symm.trans (matchTransaction_fst_iff.mpr ?_)
    exact .inl (contains_of_size_eq_zero hsize tx.txid.bytes)

end

/-! ## the state of a filter in use -/

/-- the filter `f` after `ops` holds what has been put in since it was last cleared, and nothing
else that it did not begin with -/
structure HoldsWhatWasPutIn (f : BloomFilter) (ops : List Operation) : Prop where
  size : (f.run ops).bits.size = f.bits.size
  hashCount : (f.run ops).hashCount = f.hashCount
  tweak : (f.run ops).tweak = f.tweak
  update : (f.run ops).update = f.update
  positions_lt : 0 < f.bits.size → ∀ e, ∀ p ∈ (f.run ops).positions e, p < (f.run ops).bits.size
  bit_iff : ∀ j < f.bits.size, (f.run ops).bits[j]? = some true ↔
    f.Survives ops j ∨ ∃ e, f.SinceClear ops e ∧ j ∈ f.positions e
  contains_put_in : ∀ e, f.SinceClear ops e → (f.run ops).contains e = true
  /-- only clearing takes a positive answer back -/
  answer_stays : ∀ (op : Operation) (more : List Operation),
    op.answer (f.run ops) = some true → .clear ∉ more →
      op.answer (f.run (ops ++ more)) = some true
  /-- neither the order nor the number of times matters -/
  eq_of_same : ∀ (g : BloomFilter) (ops' : List Operation), f.Alike g →
    (∀ j, g.Survives ops' j ↔ f.Survives ops j) →
      (∀ e, g.SinceClear ops' e ↔ f.SinceClear ops e) → g.run ops' = f.run ops
  without_bits : f.bits.size = 0 →
    f.run ops = f ∧ ∀ (op : Operation) (a : Bool), op.answer f = some a → a = true

/-- **A filter in use holds exactly what was put in**, whatever filter it was and however its use
mixes insertions, clearing, questions and matches. -/
theorem run_holds_what_was_put_in (f : BloomFilter) (ops : List Operation) :
    f.HoldsWhatWasPutIn ops := by
  have halike := alike_run f ops
  exact
    { size := halike.size
      hashCount := halike.hashCount
      tweak := halike.tweak
      update := halike.update
      positions_lt := by
        intro hsize e p hp
        exact hashPositions_lt (halike.size.symm ▸ hsize) hp
      bit_iff := by
        intro j hj
        refine hasBit_run.trans (or_congr_right (exists_congr fun e => and_congr_right fun _ => ?_))
        exact ⟨fun h => h.2, fun h => ⟨hj, h⟩⟩
      contains_put_in := fun e he => he.contains
      answer_stays := by
        intro op more hop hclear
        rw [run_append]
        exact (grows_run hclear).answer hop
      eq_of_same := fun g ops' h hsurvive hputs => h.run_eq hsurvive hputs
      without_bits := by
        intro hsize
        exact ⟨eq_of_size_eq_zero hsize halike, fun op a => answer_of_size_eq_zero hsize⟩ }

end BloomFilter

end BlockProof
