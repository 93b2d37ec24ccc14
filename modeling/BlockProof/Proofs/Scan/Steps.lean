import BlockProof.Block

/-!
# The steps of a scan

A scan does one of three things with the question on top: it drops the question if the transaction
has passed, it notes that the matcher refuses, or it notes that the matcher lets pass and puts the
spenders met so far on top. What these steps keep, and what moving on to the next transaction keeps,
holds of every scan.

* `SpendsFrom`, `Spends`     transaction `i` spends from an id, or from transaction `j`;
* `Scan.Step`                the three steps;
* `Scan.upTo ask txs m k`    the scan when it has dealt with the first `k` transactions;
* `Scan.settle_invariant`    what every step keeps, settling keeps;
* `Scan.upTo_invariant`      the same for a whole scan.
-/

namespace BlockProof

/-! ## who spends from whom -/

def SpendsFrom (txs : List Transaction) (i : Nat) (txid : Hash) : Prop :=
  ∃ tx, txs[i]? = some tx ∧ ∃ o ∈ tx.inputs, o.txid = txid

def Spends (txs : List Transaction) (i j : Nat) : Prop :=
  ∃ tx, txs[j]? = some tx ∧ SpendsFrom txs i tx.txid

theorem mem_spenders_iff {txs : List Transaction} {met : Nat} {txid : Hash} {i : Nat} :
    i ∈ spenders txs met txid ↔ i < met ∧ SpendsFrom txs i txid := by
  have hmet (tx : Transaction) (k : Nat) :
      (tx, k) ∈ (txs.take met).zipIdx ↔ k < met ∧ txs[k]? = some tx := by
    rw [List.mem_zipIdx_iff_getElem?, List.getElem?_take]
    by_cases hk : k < met <;> simp [hk]
  simp only [spenders, List.mem_flatMap, Prod.exists, hmet, List.mem_map, List.mem_filter,
    decide_eq_true_eq]
  refine ⟨?_, ?_⟩
  · intro h
    obtain ⟨tx, k, ⟨hk, htx⟩, o, ⟨ho, hid⟩, rfl⟩ := h
    exact ⟨hk, tx, htx, o, ho, hid⟩
  · intro h
    obtain ⟨hi, tx, htx, o, ho, hid⟩ := h
    exact ⟨tx, i, ⟨hi, htx⟩, o, ⟨ho, hid⟩, rfl⟩

namespace Scan

variable {σ : Type} (ask : Matcher σ) (txs : List Transaction)

/-- one step of the loop, with the first `met` transactions met: from the questions pending and the
scan before it to those after it -/
inductive Step (met : Nat) : List Nat → Scan σ → List Nat → Scan σ → Prop where
  | skip {i : Nat} {pending : List Nat} {s : Scan σ} (hi : s.passed[i]? = some true) :
      Step met (i :: pending) s pending s
  | refuse {i : Nat} {pending : List Nat} {s : Scan σ} {tx : Transaction} {m : σ}
      (hi : s.passed[i]? = some false) (htx : txs[i]? = some tx)
      (hask : ask s.matcher tx = (false, m)) :
      Step met (i :: pending) s pending ⟨m, s.passed, (i, false) :: s.calls⟩
  | pass {i : Nat} {pending : List Nat} {s : Scan σ} {tx : Transaction} {m : σ}
      (hi : s.passed[i]? = some false) (htx : txs[i]? = some tx)
      (hask : ask s.matcher tx = (true, m)) :
      Step met (i :: pending) s (spenders txs met tx.txid ++ pending)
        ⟨m, s.passed.setIfInBounds i true, (i, true) :: s.calls⟩

theorem setIfInBounds_eq_some_true_iff {passed : Array Bool} {i k : Nat}
    (hi : passed[i]? = some false) :
    (passed.setIfInBounds i true)[k]? = some true ↔ k = i ∨ passed[k]? = some true := by
  obtain ⟨hlt, -⟩ := Array.getElem?_eq_some_iff.mp hi
  rw [Array.getElem?_setIfInBounds, if_pos hlt]
  by_cases hk : i = k
  · simp [hk]
  · simp [hk, Ne.symm hk]

theorem setIfInBounds_of_ne {passed : Array Bool} {i k : Nat} (hne : k ≠ i) :
    (passed.setIfInBounds i true)[k]? = passed[k]? := by
  rw [Array.getElem?_setIfInBounds, if_neg (Ne.symm hne)]

/-- there is a mark for each transaction, and all questions are about transactions met -/
structure InRange (met : Nat) (pending : List Nat) (s : Scan σ) : Prop where
  size : s.passed.size = txs.length
  pending : ∀ i ∈ pending, i < met

theorem InRange.getElem? {met : Nat} {pending : List Nat} {s : Scan σ}
    (h : InRange txs met pending s) (hmet : met ≤ txs.length) {i : Nat} (hi : i < met) :
    s.passed[i]? = some true ∨ s.passed[i]? = some false := by
  have hlt : i < s.passed.size := Nat.lt_of_lt_of_le hi (h.size ▸ hmet)
  rw [Array.getElem?_eq_getElem hlt]
  cases s.passed[i] with
  | true => exact .inl rfl
  | false => exact .inr rfl

theorem InRange.step {met : Nat} {pending pending' : List Nat} {s s' : Scan σ}
    (hstep : Step ask txs met pending s pending' s') (h : InRange txs met pending s) :
    InRange txs met pending' s' := by
  have htail {i : Nat} {rest : List Nat} (hall : ∀ k ∈ i :: rest, k < met) : ∀ k ∈ rest, k < met :=
    fun k hk => hall k (List.mem_cons_of_mem i hk)
  cases hstep with
  | skip hi => exact ⟨h.size, htail h.pending⟩
  | refuse hi htx hask => exact ⟨h.size, htail h.pending⟩
  | pass hi htx hask =>
    refine ⟨(Array.size_setIfInBounds).trans h.size, ?_⟩
    intro k hk
    rcases List.mem_append.mp hk with hk | hk
    · exact (mem_spenders_iff.mp hk).1
    · exact htail h.pending k hk

theorem InRange.move {k : Nat} {s : Scan σ} (h : InRange txs k [] s) :
    InRange txs (k + 1) [k] s := by
  refine ⟨h.size, ?_⟩
  intro i hi
  rw [List.mem_singleton.mp hi]
  exact Nat.lt_succ_self k

/-- what every step keeps holds when all questions are settled -/
theorem settle_invariant {met : Nat} (hmet : met ≤ txs.length) {P : List Nat → Scan σ → Prop}
    (hP : ∀ {pending s pending' s'}, Step ask txs met pending s pending' s' →
      InRange txs met pending s → P pending s → P pending' s')
    {pending : List Nat} {s : Scan σ} (hin : InRange txs met pending s) (h : P pending s) :
    InRange txs met [] (settle ask txs met pending s) ∧ P [] (settle ask txs met pending s) := by
  fun_induction settle ask txs met pending s with
  | case1 s => exact ⟨hin, h⟩
  | case2 i pending s hi htx _ =>
    have hlt : i < txs.length := Nat.lt_of_lt_of_le (hin.pending i List.mem_cons_self) hmet
    rw [List.getElem?_eq_getElem hlt] at htx
    cases htx
  | case3 i pending s hi tx htx m hask ih =>
    have hstep : Step ask txs met (i :: pending) s _ _ := .pass hi htx hask
    exact ih (hin.step ask txs hstep) (hP hstep hin h)
  | case4 i pending s hi tx htx answer m hask hno ih =>
    have hanswer : answer = false := Bool.not_eq_true _ ▸ hno
    have hstep : Step ask txs met (i :: pending) s _ _ := .refuse hi htx (hanswer ▸ hask)
    exact ih (hin.step ask txs hstep) (hP hstep hin h)
  | case5 i pending s hi ih =>
    have hpassed := (hin.getElem? txs hmet (hin.pending i List.mem_cons_self)).resolve_right hi
    have hstep : Step ask txs met (i :: pending) s _ _ := .skip hpassed
    exact ih (hin.step ask txs hstep) (hP hstep hin h)

/-! ## whole scans -/

variable (m : σ)

/-- the scan when it has dealt with the first `k` transactions and has not moved on yet -/
def upTo (k : Nat) : Scan σ :=
  (List.range k).foldl (fun s i => s.settle ask txs (i + 1) [i]) (start m txs.length)

theorem upTo_succ (k : Nat) :
    upTo ask txs m (k + 1) = (upTo ask txs m k).settle ask txs (k + 1) [k] := by
  rw [upTo, List.range_succ, List.foldl_append]
  rfl

theorem scan_eq_upTo : scan ask txs m = upTo ask txs m txs.length := rfl

/-- what holds at the start, is kept by moving on and is kept by every step, holds whenever all
questions are settled -/
theorem upTo_invariant {P : Nat → List Nat → Scan σ → Prop} (hstart : P 0 [] (start m txs.length))
    (hmove : ∀ {k s}, k < txs.length → InRange txs k [] s → P k [] s → P (k + 1) [k] s)
    (hstep : ∀ {met pending s pending' s'}, met ≤ txs.length →
      Step ask txs met pending s pending' s' → InRange txs met pending s → P met pending s →
        P met pending' s')
    {k : Nat} (hk : k ≤ txs.length) :
    InRange txs k [] (upTo ask txs m k) ∧ P k [] (upTo ask txs m k) := by
  induction k with
  | zero => exact ⟨⟨Array.size_replicate, fun i hi => absurd hi List.not_mem_nil⟩, hstart⟩
  | succ k ih =>
    obtain ⟨hin, hP⟩ := ih (Nat.le_of_succ_le hk)
    rw [upTo_succ]
    exact settle_invariant ask txs hk (hstep hk) hin.move (hmove hk hin hP)

theorem size_passed_scan : (scan ask txs m).passed.size = txs.length :=
  (upTo_invariant ask txs m (P := fun _ _ _ => True) trivial (fun _ _ _ => trivial)
    (fun _ _ _ _ => trivial) (Nat.le_refl _)).1.size

end Scan

end BlockProof
