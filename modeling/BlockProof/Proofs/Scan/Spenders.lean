import BlockProof.Proofs.Filter.Learning
import BlockProof.Proofs.Scan.Dependency

/-!
# A filter that learns misses no spender

When a filter lets a transaction pass for something that one of its outputs pushes, it takes up that
output, and holds it for the rest of the scan. A transaction that spends the output is asked about
after that, unless it has passed before, and then it passes too. So it does not matter whether the
block lists the spender before the transaction that it spends from or after it.

* `Scan.matcherAfter`            the matcher after the calls of a log;
* `Scan.History.answer`          each call of a log got the answer of the matcher at that moment;
* `Scan.asked_after_or_passed`   whom the scan asks after a transaction has passed;
* `BloomFilter.FindsOutput`      an output pushes something that is in the filter;
* `matchBitmap_misses_no_spender`   the main result.
-/

namespace BlockProof

namespace Scan

variable {σ : Type} {ask : Matcher σ} {txs : List Transaction} {m m' : σ}

/-! ## the matcher at each call -/

def afterCall (ask : Matcher σ) (txs : List Transaction) (m : σ) (c : Nat × Bool) : σ :=
  match txs[c.1]? with
  | some tx => (ask m tx).2
  | none => m

def matcherAfter (ask : Matcher σ) (txs : List Transaction) (m : σ) (log : List (Nat × Bool)) : σ :=
  log.foldl (afterCall ask txs) m

theorem afterCall_of_some {i : Nat} {tx : Transaction} (htx : txs[i]? = some tx) (a : Bool) :
    afterCall ask txs m (i, a) = (ask m tx).2 := by
  rw [afterCall, htx]

theorem matcherAfter_append (log log' : List (Nat × Bool)) :
    matcherAfter ask txs m (log ++ log') =
      matcherAfter ask txs (matcherAfter ask txs m log) log' := List.foldl_append

theorem matcherAfter_concat {log : List (Nat × Bool)} {i : Nat} {tx : Transaction}
    (htx : txs[i]? = some tx) (a : Bool) :
    matcherAfter ask txs m (log ++ [(i, a)]) = (ask (matcherAfter ask txs m log) tx).2 := by
  rw [matcherAfter_append]
  exact afterCall_of_some htx a

theorem History.matcherAfter_eq {log : List (Nat × Bool)} (h : History ask txs m log m') :
    matcherAfter ask txs m log = m' := by
  induction h with
  | start => rfl
  | call _ htx hask ih => rw [matcherAfter_concat htx, ih, hask]

theorem History.answer {log before after : List (Nat × Bool)} {i : Nat} {a : Bool}
    (h : History ask txs m log m') (hlog : log = before ++ (i, a) :: after) :
    ∃ tx, txs[i]? = some tx ∧ (ask (matcherAfter ask txs m before) tx).1 = a := by
  induction h generalizing after with
  | start => exact absurd hlog (by simp)
  | @call log m₁ m₂ k tx b hist htx hask ih =>
    rcases List.eq_nil_or_concat after with rfl | ⟨after, c, rfl⟩
    · obtain ⟨rfl, hcall⟩ := List.append_inj' hlog rfl
      obtain ⟨rfl, rfl⟩ := Prod.mk.inj (List.head_eq_of_cons_eq hcall)
      rw [hist.matcherAfter_eq]
      exact ⟨tx, htx, congrArg Prod.fst hask⟩
    · have hsplit : log ++ [(k, b)] = (before ++ (i, a) :: after) ++ [c] := by
        rw [hlog, List.concat_eq_append, List.append_assoc]
        rfl
      exact ih (List.append_inj' hsplit rfl).1

/-! ## the calls of a whole scan -/

variable (ask txs m) in
theorem history_scan : History ask txs m (scan ask txs m).log (scan ask txs m).matcher :=
  (ordered_upTo ask txs m (Nat.le_refl _)).2.history

theorem passed_scan_iff {i : Nat} :
    (scan ask txs m).passed[i]? = some true ↔ (i, true) ∈ (scan ask txs m).log := by
  rw [log, List.mem_reverse]
  exact (ordered_upTo ask txs m (Nat.le_refl _)).2.marks i

variable (ask m) in
/-- each transaction is asked about, and gets the answer of the matcher at that moment -/
theorem exists_call {i : Nat} {tx : Transaction} (htx : txs[i]? = some tx) :
    ∃ before after, (scan ask txs m).log =
      before ++ (i, (ask (matcherAfter ask txs m before) tx).1) :: after := by
  obtain ⟨a, ha⟩ := (asked_log_upTo_iff ask m (Nat.le_refl _) i).mpr
    (List.getElem?_eq_some_iff.mp htx).1
  obtain ⟨before, after, hlog⟩ := List.append_of_mem ha
  obtain ⟨t, ht, rfl⟩ := (history_scan ask txs m).answer hlog
  cases htx.symm.trans ht
  exact ⟨before, after, hlog⟩

/-- what spends from a transaction that passes has passed before, or is asked about afterwards -/
theorem asked_after_or_passed {before after : List (Nat × Bool)} {i j : Nat}
    (h : (scan ask txs m).log = before ++ [(j, true)] ++ after) (hi : i < txs.length)
    (hspends : Spends txs i j) : (i, true) ∈ before ++ [(j, true)] ∨ Asked after i := by
  obtain ⟨-, hord⟩ := ordered_upTo ask txs m (Nat.le_refl _)
  rw [← scan_eq_upTo] at hord
  rw [← List.append_cons] at h
  have hcalls := log_eq_append_cons_iff.mp h
  by_cases hpassed : (i, true) ∈ before ++ [(j, true)]
  · exact .inl hpassed
  · refine .inr (asked_reverse_iff.mp ?_)
    have hnot : (i, true) ∉ (j, true) :: before.reverse := by
      intro hmem
      apply hpassed
      rw [← List.mem_reverse, List.reverse_append]
      exact hmem
    by_cases hasked : Asked ((j, true) :: before.reverse) i
    · exact (hord.kept _ j _ hcalls i hasked hspends hnot).resolve_right
        fun hpending => List.not_mem_nil hpending.2
    · obtain ⟨a, ha⟩ := (hord.phase.asked_iff i).mpr hi
      rw [hcalls] at ha
      exact ⟨a, (List.mem_append.mp ha).resolve_right fun hmem => hasked ⟨a, hmem⟩⟩

end Scan

/-! ## outputs that a filter finds -/

namespace BloomFilter

/-- `o` is an output of `tx` that pushes something which is in the filter -/
structure FindsOutput (f : BloomFilter) (tx : Transaction) (o : OutPoint) : Prop where
  txid : o.txid = tx.txid
  pushes : ∃ out, tx.outputs[o.vout.toNat]? = some out ∧
    ∃ data ∈ dataPushes out.scriptPubkey, f.contains data = true

section
variable {f g : BloomFilter} {tx : Transaction} {o : OutPoint}

theorem FindsOutput.exists_matchesOutput (h : f.FindsOutput tx o) :
    ∃ out, tx.outputs[o.vout.toNat]? = some out ∧ f.matchesOutput out = true := by
  obtain ⟨out, hout, hdata⟩ := h.pushes
  exact ⟨out, hout, List.any_eq_true.mpr hdata⟩

theorem FindsOutput.grows (h : f.FindsOutput tx o) (hgrows : f.Grows g) : g.FindsOutput tx o := by
  obtain ⟨out, hout, data, hdata, hin⟩ := h.pushes
  exact ⟨h.txid, out, hout, data, hdata, hgrows.contains hin⟩

theorem FindsOutput.passes (h : f.FindsOutput tx o) : (f.matchTransaction tx).1 = true := by
  obtain ⟨out, hout, hmatch⟩ := h.exists_matchesOutput
  exact matchTransaction_fst_iff.mpr (.inr (.inl ⟨out, List.mem_of_getElem? hout, hmatch⟩))

theorem FindsOutput.learned (h : f.FindsOutput tx o) (hall : f.update = .all) :
    (f.matchTransaction tx).2.containsOutPoint o = true := by
  obtain ⟨out, hout, hmatch⟩ := h.exists_matchesOutput
  have ho : tx.outPoint o.vout.toNat = o := by
    rw [Transaction.outPoint, UInt32.ofNat_toNat, ← h.txid]
  have hcontains := (learns_of_matchesOutput hall hout hmatch).contains
  rw [ho] at hcontains
  exact hcontains

theorem passes_of_spends (ho : o ∈ tx.inputs) (hin : f.containsOutPoint o = true) :
    (f.matchTransaction tx).1 = true :=
  matchTransaction_fst_iff.mpr (.inr (.inr ⟨o, ho, hin⟩))

theorem grows_afterCall (txs : List Transaction) (f : BloomFilter) (c : Nat × Bool) :
    f.Grows (Scan.afterCall matchTransaction txs f c) := by
  unfold Scan.afterCall
  split
  · exact grows_matchTransaction f _
  · exact .refl f

theorem grows_matcherAfter (txs : List Transaction) (f : BloomFilter) (log : List (Nat × Bool)) :
    f.Grows (Scan.matcherAfter matchTransaction txs f log) := by
  induction log generalizing f with
  | nil => exact .refl f
  | cons c log ih => exact (grows_afterCall txs f c).trans (ih _)

end

end BloomFilter

/-! ## the scan of a block -/

/-- which transactions of `b` pass the filter `f`, and the filter after the scan -/
def matchFilter (f : BloomFilter) (b : Block) : Array Bool × BloomFilter :=
  matchBitmap BloomFilter.matchTransaction b f

/-- after the scan of `b` the filter holds `o`, and every transaction that spends `o` has passed -/
structure SpendersPass (f : BloomFilter) (b : Block) (o : OutPoint) : Prop where
  learned : (matchFilter f b).2.containsOutPoint o = true
  spenders : ∀ (i : Nat) (tx : Transaction), b.transactions[i]? = some tx → o ∈ tx.inputs →
    (matchFilter f b).1[i]? = some true

section
variable {f : BloomFilter} {b : Block}

theorem spendersPass_of_call (hall : f.update = .all) {before after : List (Nat × Bool)} {j : Nat}
    {tx : Transaction} {o : OutPoint}
    (hlog : (scan BloomFilter.matchTransaction b.transactions f).log =
      before ++ (j, true) :: after) (htx : b.transactions[j]? = some tx)
    (hfinds : (Scan.matcherAfter BloomFilter.matchTransaction b.transactions f before).FindsOutput
      tx o) : SpendersPass f b o := by
  have hist := Scan.history_scan BloomFilter.matchTransaction b.transactions f
  have hgrows := BloomFilter.grows_matcherAfter b.transactions f before
  have hholds (later : List (Nat × Bool)) :
      (Scan.matcherAfter BloomFilter.matchTransaction b.transactions f
        (before ++ [(j, true)] ++ later)).containsOutPoint o = true := by
    rw [Scan.matcherAfter_append, Scan.matcherAfter_concat htx]
    exact (BloomFilter.grows_matcherAfter _ _ later).contains
      (hfinds.learned (hgrows.update.trans hall))
  rw [List.append_cons] at hlog
  refine ⟨?_, ?_⟩
  · have hfinal := hholds after
    rw [← hlog, hist.matcherAfter_eq] at hfinal
    exact hfinal
  · intro i tx' htx' ho
    refine Scan.passed_scan_iff.mpr ?_
    have hi : i < b.transactions.length := (List.getElem?_eq_some_iff.mp htx').1
    have hspends : Spends b.transactions i j := ⟨tx, htx, tx', htx', o, ho, hfinds.txid⟩
    rcases Scan.asked_after_or_passed hlog hi hspends with hpassed | ⟨a, ha⟩
    · rw [hlog]
      exact List.mem_append_left after hpassed
    · obtain ⟨mid, rest, rfl⟩ := List.append_of_mem ha
      have hcall : (scan BloomFilter.matchTransaction b.transactions f).log =
          (before ++ [(j, true)] ++ mid) ++ (i, a) :: rest :=
        hlog.trans (List.append_assoc _ mid _).symm
      obtain ⟨t, ht, hanswer⟩ := hist.answer hcall
      cases htx'.symm.trans ht
      rw [BloomFilter.passes_of_spends ho (hholds mid)] at hanswer
      rw [hcall, hanswer]
      exact List.mem_append_right _ List.mem_cons_self

theorem exists_call_of_findsOutput {j : Nat} {tx : Transaction} {o : OutPoint}
    (htx : b.transactions[j]? = some tx) (hfinds : f.FindsOutput tx o) :
    ∃ before after, (scan BloomFilter.matchTransaction b.transactions f).log =
        before ++ (j, true) :: after ∧
      (Scan.matcherAfter BloomFilter.matchTransaction b.transactions f before).FindsOutput tx o := by
  obtain ⟨before, after, hlog⟩ := Scan.exists_call BloomFilter.matchTransaction f htx
  have hthen := hfinds.grows (BloomFilter.grows_matcherAfter b.transactions f before)
  rw [hthen.passes] at hlog
  exact ⟨before, after, hlog, hthen⟩

end

/-- the scan of `b` with the filter `f` misses no transaction that spends an output which the filter
found -/
structure MissesNoSpender (f : BloomFilter) (b : Block) : Prop where
  /-- the filter at each call is the one that the calls before it lead to -/
  replay : Scan.matcherAfter BloomFilter.matchTransaction b.transactions f
    (scan BloomFilter.matchTransaction b.transactions f).log = (matchFilter f b).2
  of_call : ∀ (before after : List (Nat × Bool)) (j : Nat) (tx : Transaction) (o : OutPoint),
    (scan BloomFilter.matchTransaction b.transactions f).log = before ++ (j, true) :: after →
      b.transactions[j]? = some tx →
        (Scan.matcherAfter BloomFilter.matchTransaction b.transactions f before).FindsOutput tx o →
          SpendersPass f b o
  of_start : ∀ (j : Nat) (tx : Transaction) (o : OutPoint), b.transactions[j]? = some tx →
    f.FindsOutput tx o → (matchFilter f b).1[j]? = some true ∧ SpendersPass f b o

/-- **A filter that learns misses no spender** of an output that it found, wherever in the block the
spender stands. -/
theorem matchBitmap_misses_no_spender (f : BloomFilter) (hall : f.update = .all) (b : Block) :
    MissesNoSpender f b where
  replay := (Scan.history_scan _ b.transactions f).matcherAfter_eq
  of_call before after j tx o hlog htx hfinds := spendersPass_of_call hall hlog htx hfinds
  of_start j tx o htx hfinds := by
    obtain ⟨before, after, hlog, hthen⟩ := exists_call_of_findsOutput htx hfinds
    refine ⟨Scan.passed_scan_iff.mpr ?_, spendersPass_of_call hall hlog htx hthen⟩
    rw [hlog]
    exact List.mem_append_right _ List.mem_cons_self

/-- a spender that the filter refuses when it stands alone, listed before the transaction that it
spends from -/
theorem matchBitmap_misses_no_spender_ahead :
    ∃ (f : BloomFilter) (b : Block) (spender parent : Transaction) (o : OutPoint),
      f.update = .all ∧ MissesNoSpender f b ∧ b.transactions = [spender, parent] ∧
        f.FindsOutput parent o ∧ o ∈ spender.inputs ∧ (f.matchTransaction spender).1 = false ∧
        (matchFilter f b).1[0]? = some true ∧ (matchFilter f b).1[1]? = some true := by
  let f : BloomFilter := (BloomFilter.ofBytes (List.replicate 8 0) 3 0 .all).insert [7, 7]
  let o : OutPoint := ⟨.fill 1, 1⟩
  let spender : Transaction := ⟨.fill 2, [⟨.fill 9, 0⟩, o], []⟩
  let parent : Transaction := ⟨.fill 1, [], [⟨5, []⟩, ⟨6, [2, 7, 7]⟩]⟩
  let b : Block := ⟨default, [spender, parent]⟩
  have hall : f.update = .all := by decide +kernel
  have hmisses := matchBitmap_misses_no_spender f hall b
  have hpush : [7, 7] ∈ dataPushes [2, 7, 7] := by decide +kernel
  have hin : f.contains [7, 7] = true := by decide +kernel
  have hfinds : f.FindsOutput parent o := ⟨rfl, ⟨6, [2, 7, 7]⟩, rfl, [7, 7], hpush, hin⟩
  have halone : (f.matchTransaction spender).1 = false := by decide +kernel
  have ho : o ∈ spender.inputs := by decide +kernel
  obtain ⟨hparent, hspenders⟩ := hmisses.of_start 1 parent o rfl hfinds
  exact ⟨f, b, spender, parent, o, hall, hmisses, rfl, hfinds, ho, halone,
    hspenders.spenders 0 spender rfl ho, hparent⟩

end BlockProof
