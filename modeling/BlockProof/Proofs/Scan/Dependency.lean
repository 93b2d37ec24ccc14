import BlockProof.Prover
import BlockProof.Proofs.Scan.Steps

/-!
# The order of the questions, and why a question is asked again

Transactions are asked about for the first time in block order. A transaction is asked about again
only after one that it spends from has passed, and never after it has passed itself. Whenever one
passes, those met so far that spend from it and have not passed are asked about before the scan
moves on.

* `Asked calls i`            there is a call about transaction `i`;
* `Scan.History`             the calls that lead a matcher from one state to another;
* `Scan.EveryCall`           a rule about each call and those before it;
* `Scan.Phase`               which questions can be pending, before and after the first call about
                             the transaction that the scan stands at;
* `Scan.Kept`                a spender of what passed has been asked about since, or is pending;
* `Scan.scan_of_unchanged`   the scan with a matcher that has nothing to learn;
* `matchBitmap_obeys_dependencies`   the main result.
-/

namespace BlockProof

def Asked (calls : List (Nat × Bool)) (i : Nat) : Prop := ∃ a, (i, a) ∈ calls

theorem asked_cons_iff {calls : List (Nat × Bool)} {c : Nat × Bool} {i : Nat} :
    Asked (c :: calls) i ↔ i = c.1 ∨ Asked calls i := by
  obtain ⟨k, b⟩ := c
  refine ⟨?_, ?_⟩
  · intro h
    obtain ⟨a, ha⟩ := h
    rcases List.mem_cons.mp ha with heq | ha
    · exact .inl (congrArg Prod.fst heq)
    · exact .inr ⟨a, ha⟩
  · intro h
    rcases h with rfl | ⟨a, ha⟩
    · exact ⟨b, List.mem_cons_self⟩
    · exact ⟨a, List.mem_cons_of_mem _ ha⟩

theorem not_asked_nil (i : Nat) : ¬ Asked [] i := fun ⟨_, ha⟩ => List.not_mem_nil ha

theorem asked_reverse_iff {calls : List (Nat × Bool)} {i : Nat} :
    Asked calls.reverse i ↔ Asked calls i := by
  simp only [Asked, List.mem_reverse]

theorem Asked.append {calls : List (Nat × Bool)} {i : Nat} (h : Asked calls i)
    (later : List (Nat × Bool)) : Asked (later ++ calls) i := by
  obtain ⟨a, ha⟩ := h
  exact ⟨a, List.mem_append_right later ha⟩

namespace Scan

variable {σ : Type} (ask : Matcher σ) (txs : List Transaction)

/-- calls, the oldest first, that lead a matcher in state `m` to a state -/
inductive History (m : σ) : List (Nat × Bool) → σ → Prop where
  | start : History m [] m
  | call {log : List (Nat × Bool)} {m₁ m₂ : σ} {i : Nat} {tx : Transaction} {a : Bool}
      (h : History m log m₁) (htx : txs[i]? = some tx) (hask : ask m₁ tx = (a, m₂)) :
      History m (log ++ [(i, a)]) m₂

/-- `R` holds of each call and the calls before it; the newest call comes first -/
def EveryCall (R : List (Nat × Bool) → Nat × Bool → Prop) : List (Nat × Bool) → Prop
  | [] => True
  | c :: before => R before c ∧ EveryCall R before

theorem EveryCall.of_append {R : List (Nat × Bool) → Nat × Bool → Prop}
    {after before : List (Nat × Bool)} {c : Nat × Bool} (h : EveryCall R (after ++ c :: before)) :
    R before c := by
  induction after with
  | nil => exact h.1
  | cons _ after ih => exact ih h.2

/-- what every call obeys, given the calls before it -/
structure Proper (before : List (Nat × Bool)) (c : Nat × Bool) : Prop where
  not_passed : (c.1, true) ∉ before
  in_order : ¬ Asked before c.1 → ∀ k < c.1, Asked before k
  prompted : Asked before c.1 → ∃ j, (j, true) ∈ before ∧ Spends txs c.1 j

/-- the questions that can be pending with `met` transactions met -/
inductive Phase (met : Nat) (pending : List Nat) (calls : List (Nat × Bool)) : Prop where
  /-- the first question about the newest transaction -/
  | opening {k : Nat} (hmet : met = k + 1) (hpending : pending = [k])
      (hasked : ∀ i, Asked calls i ↔ i < k)
  /-- questions prompted by what has passed -/
  | following (hasked : ∀ i, Asked calls i ↔ i < met)
      (hprompted : ∀ i ∈ pending, ∃ j, (j, true) ∈ calls ∧ Spends txs i j)

section
variable {txs} {met : Nat} {pending : List Nat} {calls : List (Nat × Bool)} {i : Nat}

theorem Phase.proper (h : Phase txs met (i :: pending) calls) (hi : i < met)
    (hnot : (i, true) ∉ calls) (a : Bool) : Proper txs calls (i, a) := by
  cases h with
  | @opening k hmet hpending hasked =>
    obtain ⟨rfl, -⟩ := List.cons.inj hpending
    exact ⟨hnot, fun _ k hk => (hasked k).mpr hk,
      fun hagain => absurd ((hasked i).mp hagain) (Nat.lt_irrefl i)⟩
  | following hasked hprompted =>
    exact ⟨hnot, fun hfirst => absurd ((hasked i).mpr hi) hfirst,
      fun _ => hprompted i List.mem_cons_self⟩

theorem Phase.call (h : Phase txs met (i :: pending) calls) (hi : i < met) (a : Bool)
    {new : List Nat} (hnew : ∀ k ∈ new, a = true ∧ Spends txs k i) :
    Phase txs met (new ++ pending) ((i, a) :: calls) := by
  have hprompted {k : Nat} (hk : k ∈ new) : ∃ j, (j, true) ∈ (i, a) :: calls ∧ Spends txs k j := by
    obtain ⟨rfl, hspends⟩ := hnew k hk
    exact ⟨i, List.mem_cons_self, hspends⟩
  cases h with
  | @opening k hmet hpending hasked =>
    obtain ⟨rfl, rfl⟩ := List.cons.inj hpending
    refine .following ?_ ?_
    · intro k
      rw [asked_cons_iff, hasked k, hmet]
      show k = i ∨ k < i ↔ k < i + 1
      omega
    · intro k hk
      rw [List.append_nil] at hk
      exact hprompted hk
  | following hasked hold =>
    refine .following ?_ ?_
    · intro k
      rw [asked_cons_iff, hasked k]
      show k = i ∨ k < met ↔ k < met
      omega
    · intro k hk
      rcases List.mem_append.mp hk with hk | hk
      · exact hprompted hk
      · obtain ⟨j, hj, hspends⟩ := hold k (List.mem_cons_of_mem i hk)
        exact ⟨j, List.mem_cons_of_mem _ hj, hspends⟩

theorem Phase.skip (h : Phase txs met (i :: pending) calls) (hpassed : (i, true) ∈ calls) :
    Phase txs met pending calls := by
  cases h with
  | @opening k hmet hpending hasked =>
    obtain ⟨rfl, -⟩ := List.cons.inj hpending
    exact absurd ((hasked i).mp ⟨true, hpassed⟩) (Nat.lt_irrefl i)
  | following hasked hprompted =>
    exact .following hasked fun k hk => hprompted k (List.mem_cons_of_mem i hk)

theorem Phase.asked_iff (h : Phase txs met [] calls) (i : Nat) : Asked calls i ↔ i < met := by
  cases h with
  | opening hmet hpending hasked => cases hpending
  | following hasked hprompted => exact hasked i

end

/-- whenever `j` passed, each transaction that had been asked about by then, spends from `j` and had
not passed has been asked about since, or has not passed yet and is pending -/
def Kept (pending : List Nat) (s : Scan σ) : Prop :=
  ∀ after j before, s.calls = after ++ (j, true) :: before →
    ∀ i, Asked ((j, true) :: before) i → Spends txs i j → (i, true) ∉ (j, true) :: before →
      Asked after i ∨ (s.passed[i]? = some false ∧ i ∈ pending)

/-- what a scan keeps: the calls are those made, the marks are the answers, every call is proper,
and spenders are kept track of -/
structure Ordered (m : σ) (met : Nat) (pending : List Nat) (s : Scan σ) : Prop where
  history : History ask txs m s.log s.matcher
  marks : ∀ i, s.passed[i]? = some true ↔ (i, true) ∈ s.calls
  proper : EveryCall (Proper txs) s.calls
  phase : Phase txs met pending s.calls
  kept : Kept txs pending s

section
variable {ask txs} {m : σ} {met : Nat} {pending pending' : List Nat} {s s' : Scan σ}

theorem Kept.call {i : Nat} {a : Bool} (h : Kept txs (i :: pending) s) (new : List Nat) (m' : σ)
    {marked : Array Bool} (hmarked : ∀ k, k ≠ i → marked[k]? = s.passed[k]?)
    (hpass : a = true → ∀ k, Asked s.calls k → Spends txs k i → (k, true) ∉ s.calls → k ≠ i →
      s.passed[k]? = some false ∧ k ∈ new) :
    Kept txs (new ++ pending) ⟨m', marked, (i, a) :: s.calls⟩ := by
  intro after j before hcalls k hasked hspends hnot
  cases after with
  | nil =>
    obtain ⟨heq, rfl⟩ := List.cons.inj hcalls
    obtain ⟨rfl, rfl⟩ := Prod.mk.inj heq
    have hne : k ≠ i := fun h => hnot (h ▸ List.mem_cons_self)
    have hbefore : Asked s.calls k := (asked_cons_iff.mp hasked).resolve_left hne
    have hnotBefore : (k, true) ∉ s.calls := fun h => hnot (List.mem_cons_of_mem _ h)
    obtain ⟨hfalse, hnew⟩ := hpass rfl k hbefore hspends hnotBefore hne
    exact .inr ⟨(hmarked k hne).trans hfalse, List.mem_append_left _ hnew⟩
  | cons c after =>
    obtain ⟨rfl, hold⟩ := List.cons.inj hcalls
    by_cases hk : k = i
    · exact .inl (asked_cons_iff.mpr (.inl hk))
    · rcases h after j before hold k hasked hspends hnot with hafter | ⟨hfalse, hmem⟩
      · exact .inl (asked_cons_iff.mpr (.inr hafter))
      · have hpending : k ∈ pending := (List.mem_cons.mp hmem).resolve_left hk
        exact .inr ⟨(hmarked k hk).trans hfalse, List.mem_append_right _ hpending⟩

theorem Kept.skip {i : Nat} (h : Kept txs (i :: pending) s) (hi : s.passed[i]? = some true) :
    Kept txs pending s := by
  intro after j before hcalls k hasked hspends hnot
  rcases h after j before hcalls k hasked hspends hnot with hafter | ⟨hfalse, hmem⟩
  · exact .inl hafter
  · have hne : k ≠ i := by
      intro heq
      rw [heq, hi] at hfalse
      cases hfalse
    exact .inr ⟨hfalse, (List.mem_cons.mp hmem).resolve_left hne⟩

theorem Ordered.step (hmet : met ≤ txs.length) (hstep : Step ask txs met pending s pending' s')
    (hin : InRange txs met pending s) (h : Ordered ask txs m met pending s) :
    Ordered ask txs m met pending' s' := by
  have hnot {i : Nat} (hi : s.passed[i]? = some false) : (i, true) ∉ s.calls := by
    rw [← h.marks, hi]
    exact fun heq => Bool.false_ne_true (Option.some.inj heq)
  have hlog (c : Nat × Bool) (passed : Array Bool) (m' : σ) :
      (⟨m', passed, c :: s.calls⟩ : Scan σ).log = s.log ++ [c] := List.reverse_cons
  cases hstep with
  | skip hi =>
    exact ⟨h.history, h.marks, h.proper, h.phase.skip ((h.marks _).mp hi), h.kept.skip hi⟩
  | @refuse i _ _ tx m' hi htx hask =>
    have hlt : i < met := hin.pending i List.mem_cons_self
    refine ⟨?_, ?_, ⟨h.phase.proper hlt (hnot hi) false, h.proper⟩, ?_, ?_⟩
    · rw [hlog]
      exact h.history.call htx hask
    · intro k
      rw [h.marks, List.mem_cons]
      exact ⟨.inr, fun hk => hk.resolve_left (by simp)⟩
    · have hnone : ∀ k ∈ ([] : List Nat), false = true ∧ Spends txs k i :=
        fun k hk => absurd hk List.not_mem_nil
      exact h.phase.call hlt false hnone
    · exact h.kept.call [] m' (fun _ _ => rfl) (fun ha => absurd ha Bool.false_ne_true)
  | @pass i _ _ tx m' hi htx hask =>
    have hlt : i < met := hin.pending i List.mem_cons_self
    refine ⟨?_, ?_, ⟨h.phase.proper hlt (hnot hi) true, h.proper⟩, ?_, ?_⟩
    · rw [hlog]
      exact h.history.call htx hask
    · intro k
      rw [setIfInBounds_eq_some_true_iff hi, h.marks, List.mem_cons, Prod.mk.injEq]
      simp only [and_true]
    · refine h.phase.call hlt true ?_
      intro k hk
      exact ⟨rfl, tx, htx, (mem_spenders_iff.mp hk).2⟩
    · refine h.kept.call _ m' (fun k hk => setIfInBounds_of_ne hk) ?_
      intro _ k hasked hspends hnotPassed hne
      -- what has been asked about has been met, so its inputs have been recorded
      have hk : k < met := by
        cases h.phase with
        | @opening l hmet hpending hall =>
          have hkl := (hall k).mp hasked
          omega
        | following hall _ => exact (hall k).mp hasked
      have hfalse := (hin.getElem? txs hmet hk).resolve_left
        fun htrue => hnotPassed ((h.marks k).mp htrue)
      obtain ⟨tx', htx', hfrom⟩ := hspends
      rw [htx] at htx'
      cases htx'
      exact ⟨hfalse, mem_spenders_iff.mpr ⟨hk, hfrom⟩⟩

theorem Ordered.start : Ordered ask txs m 0 [] (start m txs.length) where
  history := .start
  marks i := by
    refine ⟨?_, fun h => absurd h List.not_mem_nil⟩
    intro h
    obtain ⟨_, hval⟩ := Array.getElem?_eq_some_iff.mp h
    cases (Array.getElem_replicate _).symm.trans hval
  proper := trivial
  phase := by
    refine .following ?_ (fun i hi => absurd hi List.not_mem_nil)
    intro i
    exact ⟨fun h => absurd h (not_asked_nil i), fun h => absurd h (Nat.not_lt_zero i)⟩
  kept after j before hcalls := by cases after <;> cases hcalls

theorem Ordered.move {k : Nat} (h : Ordered ask txs m k [] s) :
    Ordered ask txs m (k + 1) [k] s where
  history := h.history
  marks := h.marks
  proper := h.proper
  phase := .opening rfl rfl h.phase.asked_iff
  kept after j before hcalls i hasked hspends hnot := by
    rcases h.kept after j before hcalls i hasked hspends hnot with hafter | ⟨_, hmem⟩
    · exact .inl hafter
    · cases hmem

end

variable (m : σ)

theorem ordered_upTo {k : Nat} (hk : k ≤ txs.length) :
    InRange txs k [] (upTo ask txs m k) ∧ Ordered ask txs m k [] (upTo ask txs m k) :=
  upTo_invariant ask txs m Ordered.start (fun _ _ h => h.move)
    (fun hmet hstep hin h => h.step hmet hstep hin) hk

/-! ## the calls made while the scan stands at one transaction -/

variable {txs}

theorem Step.calls_cases {ask : Matcher σ} {met : Nat} {pending pending' : List Nat} {s s' : Scan σ}
    (h : Step ask txs met pending s pending' s') :
    ∃ i rest, pending = i :: rest ∧
      ((pending' = rest ∧ s' = s ∧ s.passed[i]? = some true) ∨
        ∃ a, s'.calls = (i, a) :: s.calls) := by
  cases h with
  | skip hi => exact ⟨_, _, rfl, .inl ⟨rfl, rfl, hi⟩⟩
  | refuse hi htx hask => exact ⟨_, _, rfl, .inr ⟨false, rfl⟩⟩
  | pass hi htx hask => exact ⟨_, _, rfl, .inr ⟨true, rfl⟩⟩

theorem calls_upTo_succ {k : Nat} (hk : k < txs.length) :
    ∃ rest a, (upTo ask txs m (k + 1)).calls = rest ++ (k, a) :: (upTo ask txs m k).calls ∧
      ∀ c ∈ rest, c.1 ≤ k := by
  obtain ⟨hin, hord⟩ := ordered_upTo ask txs m (Nat.le_of_lt hk)
  have hfirst : (k, true) ∉ (upTo ask txs m k).calls := fun h =>
    absurd ((hord.phase.asked_iff k).mp ⟨true, h⟩) (Nat.lt_irrefl k)
  have hmoved := hin.move
  rw [upTo_succ]
  generalize upTo ask txs m k = s at hmoved hord hfirst ⊢
  have hsettle := settle_invariant ask txs hk (P := fun pending s' =>
    (pending = [k] ∧ s' = s) ∨ ∃ rest a, s'.calls = rest ++ (k, a) :: s.calls ∧ ∀ c ∈ rest, c.1 ≤ k)
    ?_ hmoved (.inl ⟨rfl, rfl⟩)
  · obtain ⟨-, ⟨hpending, -⟩ | hrest⟩ := hsettle
    · cases hpending
    · exact hrest
  · intro pending s₁ pending' s₂ hstep hin' h
    obtain ⟨i, tail, rfl, hcases⟩ := hstep.calls_cases
    have hi : i ≤ k := Nat.lt_succ_iff.mp (hin'.pending i List.mem_cons_self)
    rcases hcases with ⟨rfl, rfl, hpassed⟩ | ⟨a, hcalls⟩
    · rcases h with ⟨hpending, rfl⟩ | hrest
      · obtain ⟨rfl, -⟩ := List.cons.inj hpending
        exact absurd ((hord.marks i).mp hpassed) hfirst
      · exact .inr hrest
    · rcases h with ⟨hpending, rfl⟩ | ⟨rest, b, hrest, hle⟩
      · obtain ⟨rfl, -⟩ := List.cons.inj hpending
        exact .inr ⟨[], a, hcalls, fun c hc => absurd hc List.not_mem_nil⟩
      · refine .inr ⟨(i, a) :: rest, b, ?_, List.forall_mem_cons.mpr ⟨hi, hle⟩⟩
        rw [hcalls, hrest, List.cons_append]

theorem log_eq_append_cons_iff {s : Scan σ} {before after : List (Nat × Bool)} {c : Nat × Bool} :
    s.log = before ++ c :: after ↔ s.calls = after.reverse ++ c :: before.reverse := by
  rw [log, List.reverse_eq_iff, List.reverse_append, List.reverse_cons, List.append_assoc]
  rfl

theorem log_upTo_prefix {k l : Nat} (hkl : k ≤ l) (hl : l ≤ txs.length) :
    (upTo ask txs m k).log <+: (upTo ask txs m l).log := by
  induction l with
  | zero =>
    obtain rfl := Nat.le_zero.mp hkl
    exact List.prefix_rfl
  | succ l ih =>
    rcases Nat.eq_or_lt_of_le hkl with rfl | hlt
    · exact List.prefix_rfl
    · obtain ⟨rest, a, hcalls, -⟩ := calls_upTo_succ ask m hl
      refine (ih (Nat.lt_succ_iff.mp hlt) (Nat.le_of_succ_le hl)).trans ⟨(l, a) :: rest.reverse, ?_⟩
      rw [log, log, hcalls, List.reverse_append, List.reverse_cons, List.append_assoc]
      rfl

theorem asked_after_pass {k : Nat} (hk : k < txs.length) {before after : List (Nat × Bool)}
    {j : Nat}
    (hcalls : (upTo ask txs m (k + 1)).calls = after ++ (j, true) :: before)
    (hlen : (upTo ask txs m k).calls.length ≤ before.length) {i : Nat} (hi : i ≤ k)
    (hspends : Spends txs i j) (hnot : (i, true) ∉ (j, true) :: before) : Asked after i := by
  obtain ⟨rest, a, hfirst, -⟩ := calls_upTo_succ ask m hk
  have hsuffix : (k, a) :: (upTo ask txs m k).calls <:+ (j, true) :: before := by
    refine List.suffix_of_suffix_length_le ⟨rest, hfirst.symm⟩ ⟨after, hcalls.symm⟩ ?_
    exact Nat.succ_le_succ hlen
  obtain ⟨between, hbetween⟩ := hsuffix
  have hasked : Asked ((j, true) :: before) i := by
    rw [← hbetween]
    refine Asked.append (asked_cons_iff.mpr ?_) between
    rcases Nat.eq_or_lt_of_le hi with heq | hlt
    · exact .inl heq
    · exact .inr (((ordered_upTo ask txs m (Nat.le_of_lt hk)).2.phase.asked_iff i).mpr hlt)
  rcases (ordered_upTo ask txs m hk).2.kept after j before hcalls i hasked hspends hnot with
    hafter | ⟨-, hmem⟩
  · exact hafter
  · cases hmem

/-! ## the same, read from the oldest call on -/

theorem asked_log_upTo_iff {k : Nat} (hk : k ≤ txs.length) (i : Nat) :
    Asked (upTo ask txs m k).log i ↔ i < k := by
  rw [log, asked_reverse_iff]
  exact (ordered_upTo ask txs m hk).2.phase.asked_iff i

theorem log_upTo_succ {k : Nat} (hk : k < txs.length) :
    ∃ a rest, (upTo ask txs m (k + 1)).log = (upTo ask txs m k).log ++ (k, a) :: rest ∧
      ∀ c ∈ rest, c.1 ≤ k := by
  obtain ⟨rest, a, hcalls, hle⟩ := calls_upTo_succ ask m hk
  refine ⟨a, rest.reverse, ?_, fun c hc => hle c (List.mem_reverse.mp hc)⟩
  rw [log_eq_append_cons_iff, List.reverse_reverse, log, List.reverse_reverse]
  exact hcalls

theorem proper_of_log {before after : List (Nat × Bool)} {c : Nat × Bool}
    (h : (scan ask txs m).log = before ++ c :: after) : Proper txs before.reverse c := by
  have hproper := (ordered_upTo ask txs m (Nat.le_refl _)).2.proper
  rw [← scan_eq_upTo, log_eq_append_cons_iff.mp h] at hproper
  exact hproper.of_append

theorem not_asked_after_pass {before after : List (Nat × Bool)} {i : Nat}
    (h : (scan ask txs m).log = before ++ (i, true) :: after) : ¬ Asked after i := by
  intro hagain
  obtain ⟨a, ha⟩ := hagain
  obtain ⟨mid, rest, rfl⟩ := List.append_of_mem ha
  have hlog : (scan ask txs m).log = (before ++ (i, true) :: mid) ++ (i, a) :: rest := by
    rw [h, List.append_assoc]
    rfl
  apply (proper_of_log ask m hlog).not_passed
  show (i, true) ∈ (before ++ (i, true) :: mid).reverse
  rw [List.mem_reverse]
  exact List.mem_append_right _ List.mem_cons_self

theorem asked_later {k i : Nat} (hki : k ≤ i) (hi : i < txs.length) :
    ∃ later, (scan ask txs m).log = (upTo ask txs m k).log ++ later ∧ Asked later i := by
  have hk : k ≤ txs.length := Nat.le_trans hki (Nat.le_of_lt hi)
  obtain ⟨later, hlater⟩ := log_upTo_prefix ask m hk (Nat.le_refl _)
  obtain ⟨a, ha⟩ := (asked_log_upTo_iff ask m (Nat.le_refl _) i).mpr hi
  rw [← hlater] at ha
  refine ⟨later, hlater.symm, a, (List.mem_append.mp ha).resolve_left ?_⟩
  intro hearly
  exact Nat.not_lt.mpr hki ((asked_log_upTo_iff ask m hk i).mp ⟨a, hearly⟩)

/-! ## matchers with nothing to learn -/

theorem History.unchanged {ask : Matcher σ} {m m' : σ} {log : List (Nat × Bool)}
    (h : History ask txs m log m') (hsame : ∀ tx ∈ txs, (ask m tx).2 = m) :
    m' = m ∧ ∀ c ∈ log, ∃ tx, txs[c.1]? = some tx ∧ c.2 = (ask m tx).1 := by
  induction h with
  | start => exact ⟨rfl, fun c hc => absurd hc List.not_mem_nil⟩
  | @call log m₁ m₂ i tx a _ htx hask ih =>
    obtain ⟨rfl, hold⟩ := ih
    have hm := hsame tx (List.mem_of_getElem? htx)
    rw [hask] at hm
    refine ⟨hm, ?_⟩
    intro c hc
    rcases List.mem_append.mp hc with hc | hc
    · exact hold c hc
    · rw [List.mem_singleton.mp hc]
      exact ⟨tx, htx, by rw [hask]⟩

theorem eq_map_of_getElem? {marked : Array Bool} {answer : Transaction → Bool}
    (hsize : marked.size = txs.length)
    (hmarks : ∀ (i : Nat) (tx : Transaction), txs[i]? = some tx → marked[i]? = some (answer tx)) :
    marked = (txs.map answer).toArray := by
  refine Array.ext_getElem? ?_
  intro i
  have hanswer : (txs.map answer).toArray[i]? = txs[i]?.map answer := by
    rw [List.getElem?_toArray, List.getElem?_map]
  refine Eq.trans ?_ hanswer.symm
  cases htx : txs[i]? with
  | none => exact Array.getElem?_eq_none (hsize ▸ List.getElem?_eq_none_iff.mp htx)
  | some tx => exact hmarks i tx htx

/-- a matcher that learns from no transaction of the block answers for each on its own -/
theorem scan_of_unchanged (hsame : ∀ tx ∈ txs, (ask m tx).2 = m) : (scan ask txs m).matcher = m ∧
    ∀ (i : Nat) (tx : Transaction), txs[i]? = some tx →
      (scan ask txs m).passed[i]? = some (ask m tx).1 := by
  obtain ⟨hin, hord⟩ := ordered_upTo ask txs m (Nat.le_refl _)
  rw [← scan_eq_upTo] at hin hord
  obtain ⟨hm, hcalls⟩ := hord.history.unchanged hsame
  refine ⟨hm, ?_⟩
  intro i tx htx
  obtain ⟨hlt, -⟩ := List.getElem?_eq_some_iff.mp htx
  have hanswer {a : Bool} (ha : (i, a) ∈ (scan ask txs m).calls) : a = (ask m tx).1 := by
    obtain ⟨tx', htx', heq⟩ := hcalls (i, a) (List.mem_reverse.mpr ha)
    cases htx.symm.trans htx'
    exact heq
  obtain ⟨a, ha⟩ := (hord.phase.asked_iff i).mpr hlt
  rw [← hanswer ha]
  cases a with
  | true => exact (hord.marks i).mpr ha
  | false =>
    refine (hin.getElem? txs (Nat.le_refl _) hlt).resolve_left ?_
    intro htrue
    exact Bool.false_ne_true ((hanswer ha).trans (hanswer ((hord.marks i).mp htrue)).symm)

end Scan

/-! ## the rule -/

/-- the calls of the scan of a block, oldest first, obey the rule on spends within the block -/
structure ObeysDependencies {σ : Type} (ask : Matcher σ) (b : Block) (m : σ) : Prop where
  /-- the log lists the calls that were made -/
  history : Scan.History ask b.transactions m (scan ask b.transactions m).log
    (matchBitmap ask b m).2
  every_asked : ∀ i < b.transactions.length, Asked (scan ask b.transactions m).log i
  first_in_order : ∀ before i a after,
    (scan ask b.transactions m).log = before ++ (i, a) :: after → ¬ Asked before i →
      ∀ k < i, Asked before k
  never_after_pass : ∀ before i after,
    (scan ask b.transactions m).log = before ++ (i, true) :: after → ¬ Asked after i
  size_bitmap : (matchBitmap ask b m).1.size = b.transactions.length
  bitmap_iff : ∀ i, (matchBitmap ask b m).1[i]? = some true ↔
    (i, true) ∈ (scan ask b.transactions m).log
  /-- the scan stands at one transaction after another, and its first call there is about that
  transaction -/
  stands_at : ∀ s < b.transactions.length, ∃ a rest,
    (Scan.upTo ask b.transactions m (s + 1)).log =
        (Scan.upTo ask b.transactions m s).log ++ (s, a) :: rest ∧
      (∀ c ∈ rest, c.1 ≤ s) ∧ ¬ Asked (Scan.upTo ask b.transactions m s).log s
  ends : Scan.upTo ask b.transactions m b.transactions.length = scan ask b.transactions m
  spenders_asked : ∀ s < b.transactions.length, ∀ before j after,
    (Scan.upTo ask b.transactions m (s + 1)).log = before ++ (j, true) :: after →
      (Scan.upTo ask b.transactions m s).log.length ≤ before.length →
        ∀ i ≤ s, Spends b.transactions i j → (i, true) ∉ before ++ [(j, true)] → Asked after i
  asked_later : ∀ s i, s < i → i < b.transactions.length → ∃ later,
    (scan ask b.transactions m).log = (Scan.upTo ask b.transactions m (s + 1)).log ++ later ∧
      Asked later i
  prompted : ∀ before i a after,
    (scan ask b.transactions m).log = before ++ (i, a) :: after → Asked before i →
      ∃ j, (j, true) ∈ before ∧ Spends b.transactions i j

/-- **Every scan obeys the rule on spends within a block**, whatever the matcher answers and however
the transactions of the block spend from one another. -/
theorem matchBitmap_obeys_dependencies {σ : Type} (ask : Matcher σ) (b : Block) (m : σ) :
    ObeysDependencies ask b m := by
  obtain ⟨hin, hord⟩ := Scan.ordered_upTo ask b.transactions m (Nat.le_refl _)
  exact
    { history := hord.history
      every_asked := fun i hi => (Scan.asked_log_upTo_iff ask m (Nat.le_refl _) i).mpr hi
      first_in_order := by
        intro before i a after h hfirst k hk
        rw [← asked_reverse_iff] at hfirst ⊢
        exact (Scan.proper_of_log ask m h).in_order hfirst k hk
      never_after_pass := fun before i after h => Scan.not_asked_after_pass ask m h
      size_bitmap := hin.size
      bitmap_iff := by
        intro i
        rw [Scan.log, List.mem_reverse]
        exact hord.marks i
      stands_at := by
        intro s hs
        obtain ⟨a, rest, hlog, hle⟩ := Scan.log_upTo_succ ask m hs
        refine ⟨a, rest, hlog, hle, ?_⟩
        rw [Scan.asked_log_upTo_iff ask m (Nat.le_of_lt hs)]
        exact Nat.lt_irrefl s
      ends := rfl
      spenders_asked := by
        intro s hs before j after h hlen i hi hspends hnot
        rw [← asked_reverse_iff]
        refine Scan.asked_after_pass ask m hs (Scan.log_eq_append_cons_iff.mp h) ?_ hi hspends ?_
        · rw [List.length_reverse]
          rw [Scan.log, List.length_reverse] at hlen
          exact hlen
        · intro hmem
          apply hnot
          rw [← List.mem_reverse, List.reverse_append]
          exact hmem
      asked_later := fun s i hsi hi => Scan.asked_later ask m hsi hi
      prompted := by
        intro before i a after h hasked
        rw [← asked_reverse_iff] at hasked
        obtain ⟨j, hj, hspends⟩ := (Scan.proper_of_log ask m h).prompted hasked
        exact ⟨j, List.mem_reverse.mp hj, hspends⟩ }

end BlockProof
