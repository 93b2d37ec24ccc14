import BlockProof.Prover
import BlockProof.Proofs.Scan.Steps
import Mathlib.Algebra.BigOperators.Fin
import Mathlib.Algebra.Order.BigOperators.Group.Finset

/-!
# How often a matcher is asked

Each step of the loop takes one question off, and puts questions on only when a transaction passes:
one for each input met that names its id. No transaction passes twice, so the questions of a whole
scan are one a transaction and one for each input that names a transaction that passes. This needs
nothing of the spends: they may run in circles, a transaction may spend from itself or name one id
often, and ids may come twice.

* `namings txs txid`       how many inputs name `txid`;
* `promptings txs marked`  how many inputs name a marked transaction, counted for each that is;
* `Scan.Step.cost`         what one step takes off and puts on;
* `Scan.Steps`             the loop, with its steps counted;
* `AsksBoundedly`, `matchBitmap_asks_boundedly`   the main result.
-/

namespace BlockProof

/-! ## inputs that name a transaction -/

def namings (txs : List Transaction) (txid : Hash) : Nat :=
  (txs.flatMap fun tx => tx.inputs).countP fun o => o.txid = txid

/-- how many inputs name the id of a marked transaction, summed over those that are marked -/
def promptings (txs : List Transaction) (marked : Array Bool) : Nat :=
  ∑ j : Fin txs.length with marked[j.val]? = some true, namings txs txs[j].txid

theorem namings_append (txs txs' : List Transaction) (txid : Hash) :
    namings (txs ++ txs') txid = namings txs txid + namings txs' txid := by
  rw [namings, List.flatMap_append, List.countP_append]
  rfl

theorem namings_cons (tx : Transaction) (txs : List Transaction) (txid : Hash) :
    namings (tx :: txs) txid =
      (tx.inputs.filter fun o => o.txid = txid).length + namings txs txid := by
  rw [namings, List.flatMap_cons, List.countP_append, List.countP_eq_length_filter]
  rfl

theorem length_spends_eq (txs : List Transaction) (txid : Hash) (k : Nat) :
    ((txs.zipIdx k).flatMap fun (tx, i) =>
      (tx.inputs.filter fun o => o.txid = txid).map fun _ => i).length = namings txs txid := by
  induction txs generalizing k with
  | nil => rfl
  | cons tx txs ih =>
    rw [List.zipIdx_cons, List.flatMap_cons, List.length_append, List.length_map, ih, namings_cons]

theorem length_spenders_le_namings (txs : List Transaction) (met : Nat) (txid : Hash) :
    (spenders txs met txid).length ≤ namings txs txid := by
  have hall : namings (txs.take met) txid + namings (txs.drop met) txid = namings txs txid := by
    rw [← namings_append, List.take_append_drop]
  have hmet : (spenders txs met txid).length = namings (txs.take met) txid :=
    length_spends_eq (txs.take met) txid 0
  exact hmet.trans_le (Nat.le.intro hall)

theorem promptings_le_sum (txs : List Transaction) (marked : Array Bool) :
    promptings txs marked ≤ ∑ j : Fin txs.length, namings txs txs[j].txid :=
  Finset.sum_le_univ_sum_of_nonneg fun _ => Nat.zero_le _

section
variable {txs : List Transaction}

theorem promptings_setIfInBounds {marked : Array Bool} {i : Nat} {tx : Transaction}
    (hi : marked[i]? = some false) (htx : txs[i]? = some tx) :
    promptings txs (marked.setIfInBounds i true) = namings txs tx.txid + promptings txs marked := by
  obtain ⟨hlt, rfl⟩ := List.getElem?_eq_some_iff.mp htx
  have hset : (Finset.univ.filter fun j : Fin txs.length =>
      (marked.setIfInBounds i true)[j.val]? = some true) =
        insert ⟨i, hlt⟩ (Finset.univ.filter fun j => marked[j.val]? = some true) := by
    ext j
    simp [Scan.setIfInBounds_eq_some_true_iff hi, Fin.ext_iff]
  have hnew : (⟨i, hlt⟩ : Fin txs.length) ∉
      Finset.univ.filter fun j => marked[j.val]? = some true := by
    simp [hi]
  rw [promptings, hset, Finset.sum_insert hnew]
  rfl

theorem card_named_le_one (hnodup : (txs.map (·.txid)).Nodup) (o : OutPoint) :
    (Finset.univ.filter fun j : Fin txs.length => o.txid = txs[j].txid).card ≤ 1 := by
  refine Finset.card_le_one.mpr ?_
  intro i hi j hj
  rw [Finset.mem_filter_univ] at hi hj
  have hid : (txs.map (·.txid))[i.val]? = (txs.map (·.txid))[j.val]? := by
    simpa using hi.symm.trans hj
  exact Fin.ext ((List.getElem?_inj (by simp) hnodup).mp hid)

theorem sum_namings_le (hnodup : (txs.map (·.txid)).Nodup) (inputs : List OutPoint) :
    ∑ j : Fin txs.length, inputs.countP (fun o => o.txid = txs[j].txid) ≤ inputs.length := by
  induction inputs with
  | nil => simp
  | cons o inputs ih =>
    have hone := card_named_le_one hnodup o
    rw [Finset.card_filter] at hone
    simp only [List.countP_cons, Finset.sum_add_distrib, List.length_cons, decide_eq_true_eq]
    exact Nat.add_le_add ih hone

theorem promptings_le_inputCount (hnodup : (txs.map (·.txid)).Nodup) (marked : Array Bool) :
    promptings txs marked ≤ inputCount txs :=
  (promptings_le_sum txs marked).trans (sum_namings_le hnodup _)

end

/-! ## what a step costs -/

namespace Scan

section
variable {σ : Type} {ask : Matcher σ} {txs : List Transaction} {met : Nat}

/-- a step takes one question off, and puts on no more than the inputs that name what passes -/
theorem Step.cost {pending pending' : List Nat} {s s' : Scan σ}
    (hstep : Step ask txs met pending s pending' s') :
    pending'.length + 1 + promptings txs s.passed ≤
      pending.length + promptings txs s'.passed := by
  cases hstep with
  | skip hi => exact Nat.le_refl _
  | refuse hi htx hask => exact Nat.le_refl _
  | @pass i pending s tx m hi htx hask =>
    have hput := length_spenders_le_namings txs met tx.txid
    rw [List.length_append, List.length_cons, promptings_setIfInBounds hi htx]
    omega

theorem Step.length_calls_le {pending pending' : List Nat} {s s' : Scan σ}
    (hstep : Step ask txs met pending s pending' s') : s'.calls.length ≤ s.calls.length + 1 := by
  cases hstep with
  | skip hi => exact Nat.le_succ _
  | refuse hi htx hask => exact Nat.le_refl _
  | pass hi htx hask => exact Nat.le_refl _

variable (ask txs met) in
/-- a run of the loop, with the number of its steps -/
inductive Steps (pending₀ : List Nat) (s₀ : Scan σ) : Nat → List Nat → Scan σ → Prop where
  | start : Steps pending₀ s₀ 0 pending₀ s₀
  | next {k : Nat} {pending pending' : List Nat} {s s' : Scan σ}
      (hrun : Steps pending₀ s₀ k pending s) (hstep : Step ask txs met pending s pending' s') :
      Steps pending₀ s₀ (k + 1) pending' s'

theorem Steps.cost {pending pending' : List Nat} {s s' : Scan σ} {steps : Nat}
    (hrun : Steps ask txs met pending s steps pending' s') :
    steps + pending'.length + promptings txs s.passed ≤
      pending.length + promptings txs s'.passed := by
  induction hrun with
  | start => exact Nat.le_of_eq (congrArg (· + _) (Nat.zero_add _))
  | next hrun hstep ih =>
    have hcost := hstep.cost
    omega

theorem exists_steps_settle (hmet : met ≤ txs.length) {pending : List Nat} {s : Scan σ}
    (hin : InRange txs met pending s) :
    ∃ steps, Steps ask txs met pending s steps [] (settle ask txs met pending s) :=
  (settle_invariant ask txs hmet (P := fun rest s' => ∃ k, Steps ask txs met pending s k rest s')
    (fun hstep _ ⟨k, hrun⟩ => ⟨k + 1, .next hrun hstep⟩) hin ⟨0, .start⟩).2

end

variable {σ : Type} (ask : Matcher σ) (txs : List Transaction) (m : σ)

/-- the calls made and the questions still pending are paid for by the transactions met and by the
inputs that name what has passed -/
theorem length_calls_scan_le :
    (scan ask txs m).calls.length ≤ txs.length + promptings txs (scan ask txs m).passed := by
  have hpaid := (upTo_invariant ask txs m
    (P := fun met pending s => s.calls.length + pending.length ≤ met + promptings txs s.passed)
    (Nat.zero_le _) ?_ ?_ (Nat.le_refl _)).2
  · rwa [scan_eq_upTo]
  · intro k s _ _ hs
    rw [List.length_singleton]
    rw [List.length_nil] at hs
    omega
  · intro met pending s pending' s' _ hstep _ hs
    have hcost := hstep.cost
    have hcalls := hstep.length_calls_le
    omega

end Scan

/-! ## the main result -/

/-- from every state that a scan of `b` can be in, the loop ends, and a scan asks no more often than
the transactions and the inputs that name what passes allow -/
structure AsksBoundedly {σ : Type} (ask : Matcher σ) (b : Block) (m : σ) : Prop where
  ends {met : Nat} {pending : List Nat} {s : Scan σ} (hmet : met ≤ b.transactions.length)
    (hin : Scan.InRange b.transactions met pending s) :
    ∃ steps, Scan.Steps ask b.transactions met pending s steps []
      (s.settle ask b.transactions met pending)
  steps_le {met steps : Nat} {pending pending' : List Nat} {s s' : Scan σ}
    (hrun : Scan.Steps ask b.transactions met pending s steps pending' s') :
    steps ≤ pending.length +
      ∑ j : Fin b.transactions.length, namings b.transactions b.transactions[j].txid
  calls_le : (scan ask b.transactions m).log.length ≤
    b.transactions.length + promptings b.transactions (matchBitmap ask b m).1
  calls_le_of_nodup (hnodup : b.txids.Nodup) : (scan ask b.transactions m).log.length ≤
    b.transactions.length + inputCount b.transactions

/-- **A scan ends on every block, with every matcher**, and asks at most once a transaction and once
more for each input that names a transaction that passes. -/
theorem matchBitmap_asks_boundedly {σ : Type} (ask : Matcher σ) (b : Block) (m : σ) :
    AsksBoundedly ask b m := by
  have hcalls : (scan ask b.transactions m).log.length ≤
      b.transactions.length + promptings b.transactions (matchBitmap ask b m).1 := by
    rw [Scan.log, List.length_reverse]
    exact Scan.length_calls_scan_le ask b.transactions m
  refine ⟨fun hmet hin => Scan.exists_steps_settle hmet hin, ?_, hcalls, ?_⟩
  · intro met steps pending pending' s s' hrun
    have hcost := hrun.cost
    have hall := promptings_le_sum b.transactions s'.passed
    omega
  · intro hnodup
    exact hcalls.trans (Nat.add_le_add_left (promptings_le_inputCount hnodup _) _)

/-- the bound is met: a spender that never passes is asked about again for each of its inputs -/
example : ∃ (ask : Matcher Unit) (b : Block), (scan ask b.transactions ()).log.length = 5 ∧
    b.transactions.length + promptings b.transactions (matchBitmap ask b ()).1 = 5 := by
  let ask : Matcher Unit := fun _ tx => (decide (tx.inputs = []), ())
  let b : Block := ⟨default,
    [⟨.fill 2, [⟨.fill 1, 0⟩, ⟨.fill 1, 1⟩, ⟨.fill 1, 2⟩], []⟩, ⟨.fill 1, [], []⟩]⟩
  exact ⟨ask, b, by decide +kernel, by decide +kernel⟩

end BlockProof
