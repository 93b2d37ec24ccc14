import BlockProof.Prover
import BlockProof.Proofs.Scan.Steps

/-!
# The scan told as a recursion

The rule on spends within a block is a recursion: when a transaction passes, check each transaction
recorded as spending from it, and so on. The scan keeps a list of pending questions instead, as
spends may chain through the whole block. It takes the questions up in the order of that recursion:
both make the same calls, one by one, and whatever the matcher learns, it learns in both.

Spends may run in a circle, so the recursion does not end because chains do. It ends because a
transaction has passed before the next one down is checked, and none is asked about after it passed.

* `recordOf`, `recordedFor`   the record of the inputs met: which id is named at which position;
* `Scan.check`, `Scan.checkEach`   the recursion;
* `scanRecursively`           the scan of a block by recursion, with a record that grows;
* `Scan.settle_append`        pending questions are settled one after another;
* `Scan.check_eq_settle`      one check is one run of the loop;
* `matchBitmap_eq_recursive`  the main result.
-/

namespace BlockProof

/-! ## the record of the inputs met -/

/-- what the inputs of transaction number `i` add to the record: the id that each of them names -/
def recordOf (tx : Transaction) (i : Nat) : List (Hash × Nat) :=
  tx.inputs.map fun o => (o.txid, i)

def recordedFor (record : List (Hash × Nat)) (txid : Hash) : List Nat :=
  (record.filter fun entry => entry.1 = txid).map Prod.snd

def recordUpTo (txs : List Transaction) (met : Nat) : List (Hash × Nat) :=
  (txs.take met).zipIdx.flatMap fun (tx, i) => recordOf tx i

theorem recordedFor_append (record record' : List (Hash × Nat)) (txid : Hash) :
    recordedFor (record ++ record') txid =
      recordedFor record txid ++ recordedFor record' txid := by
  rw [recordedFor, List.filter_append, List.map_append]
  rfl

theorem recordedFor_recordOf (tx : Transaction) (i : Nat) (txid : Hash) :
    recordedFor (recordOf tx i) txid =
      (tx.inputs.filter fun o => o.txid = txid).map fun _ => i := by
  rw [recordedFor, recordOf, List.filter_map, List.map_map]
  rfl

/-- what is recorded for an id are the transactions met that spend from it -/
theorem recordedFor_recordUpTo (txs : List Transaction) (met : Nat) (txid : Hash) :
    recordedFor (recordUpTo txs met) txid = spenders txs met txid := by
  rw [recordUpTo, spenders]
  induction (txs.take met).zipIdx with
  | nil => rfl
  | cons entry entries ih =>
    rw [List.flatMap_cons, List.flatMap_cons, recordedFor_append, ih, recordedFor_recordOf]

theorem recordUpTo_succ {txs : List Transaction} {k : Nat} {tx : Transaction}
    (htx : txs[k]? = some tx) : recordUpTo txs (k + 1) = recordUpTo txs k ++ recordOf tx k := by
  obtain ⟨hk, -⟩ := List.getElem?_eq_some_iff.mp htx
  rw [recordUpTo, List.take_add_one, htx, Option.toList_some, List.zipIdx_append,
    List.length_take_of_le (Nat.le_of_lt hk), List.flatMap_append, Nat.zero_add]
  exact congrArg _ (List.append_nil _)

/-! ## the recursion -/

namespace Scan

variable {σ : Type}

def waiting (s : Scan σ) : Nat := s.passed.count false

/-- scans in which no more transactions are waiting than in `s` -/
abbrev After (s : Scan σ) : Type := { s' : Scan σ // s'.waiting ≤ s.waiting }

section
variable (ask : Matcher σ) (txs : List Transaction) (record : List (Hash × Nat))

mutual

/-- asks about transaction `i` unless it has passed; if it passes now, checks the transactions that
are recorded for its id -/
def check (i : Nat) (s : Scan σ) : After s :=
  if hi : s.passed[i]? = some false then
    match txs[i]? with
    | none => ⟨s, Nat.le_refl _⟩
    | some tx =>
      let (answer, m) := ask s.matcher tx
      if answer then
        let done := checkEach (recordedFor record tx.txid)
          ⟨m, s.passed.setIfInBounds i true, (i, true) :: s.calls⟩
        ⟨done.1, Nat.le_trans done.2 (Nat.le_of_lt (count_setIfInBounds_lt hi))⟩
      else ⟨⟨m, s.passed, (i, false) :: s.calls⟩, Nat.le_refl _⟩
  else ⟨s, Nat.le_refl _⟩
termination_by (s.waiting, 0)
decreasing_by exact Prod.Lex.left _ _ (count_setIfInBounds_lt hi)

def checkEach : List Nat → (s : Scan σ) → After s
  | [], s => ⟨s, Nat.le_refl _⟩
  | i :: rest, s =>
    let first := check i s
    let done := checkEach rest first.1
    ⟨done.1, Nat.le_trans done.2 first.2⟩
termination_by positions s => (s.waiting, positions.length + 1)
decreasing_by
  · exact Prod.Lex.right _ (Nat.succ_pos _)
  · rcases Nat.lt_or_eq_of_le first.2 with hfewer | hsame
    · exact Prod.Lex.left _ _ hfewer
    · rw [hsame]
      exact Prod.Lex.right _ (Nat.lt_succ_self _)

end

def meet (state : List (Hash × Nat) × Scan σ) (entry : Transaction × Nat) :
    List (Hash × Nat) × Scan σ :=
  let record := state.1 ++ recordOf entry.1 entry.2
  (record, (check ask txs record entry.2 state.2).1)

end

end Scan

/-- the scan of `txs`, by recursion -/
def scanRecursively {σ : Type} (ask : Matcher σ) (txs : List Transaction) (m : σ) : Scan σ :=
  (txs.zipIdx.foldl (Scan.meet ask txs) ([], Scan.start m txs.length)).2

namespace Scan

variable {σ : Type} {ask : Matcher σ} {txs : List Transaction}

/-! ## the loop, one question at a time -/

section
variable {met i : Nat} {pending : List Nat} {s : Scan σ} {tx : Transaction} {m : σ}

theorem settle_nil : settle ask txs met [] s = s := by
  rw [settle]

theorem settle_skip (hi : ¬ s.passed[i]? = some false) :
    settle ask txs met (i :: pending) s = settle ask txs met pending s := by
  rw [settle, dif_neg hi]

theorem settle_missing (hi : s.passed[i]? = some false) (htx : txs[i]? = none) :
    settle ask txs met (i :: pending) s = settle ask txs met pending s := by
  rw [settle, dif_pos hi, htx]

theorem settle_refuse (hi : s.passed[i]? = some false) (htx : txs[i]? = some tx)
    (hask : ask s.matcher tx = (false, m)) : settle ask txs met (i :: pending) s =
      settle ask txs met pending ⟨m, s.passed, (i, false) :: s.calls⟩ := by
  rw [settle, dif_pos hi, htx]
  simp only [hask, Bool.false_eq_true, if_false]

theorem settle_pass (hi : s.passed[i]? = some false) (htx : txs[i]? = some tx)
    (hask : ask s.matcher tx = (true, m)) : settle ask txs met (i :: pending) s =
      settle ask txs met (spenders txs met tx.txid ++ pending)
        ⟨m, s.passed.setIfInBounds i true, (i, true) :: s.calls⟩ := by
  rw [settle, dif_pos hi, htx]
  simp only [hask, if_true]

/-- the questions on top are settled, with all that they prompt, before those below are taken up -/
theorem settle_append (first rest : List Nat) (s : Scan σ) :
    settle ask txs met (first ++ rest) s =
      settle ask txs met rest (settle ask txs met first s) := by
  fun_induction settle ask txs met first s with
  | case1 s => rfl
  | case2 i pending s hi htx ih => rw [List.cons_append, settle_missing hi htx, ih]
  | case3 i pending s hi tx htx m hask ih =>
    rw [List.cons_append, settle_pass hi htx hask, ← List.append_assoc, ih]
  | case4 i pending s hi tx htx answer m hask hno ih =>
    obtain rfl : answer = false := Bool.not_eq_true _ ▸ hno
    rw [List.cons_append, settle_refuse hi htx hask, ih]
  | case5 i pending s hi ih => rw [List.cons_append, settle_skip hi, ih]

end

/-! ## one check is one run of the loop -/

section
variable {record : List (Hash × Nat)} {i : Nat} {s : Scan σ} {tx : Transaction} {m : σ}

theorem check_skip (hi : ¬ s.passed[i]? = some false) : (check ask txs record i s).1 = s := by
  rw [check, dif_neg hi]

theorem check_missing (hi : s.passed[i]? = some false) (htx : txs[i]? = none) :
    (check ask txs record i s).1 = s := by
  rw [check, dif_pos hi, htx]

theorem check_refuse (hi : s.passed[i]? = some false) (htx : txs[i]? = some tx)
    (hask : ask s.matcher tx = (false, m)) :
    (check ask txs record i s).1 = ⟨m, s.passed, (i, false) :: s.calls⟩ := by
  rw [check, dif_pos hi, htx]
  simp only [hask, Bool.false_eq_true, if_false]

theorem check_pass (hi : s.passed[i]? = some false) (htx : txs[i]? = some tx)
    (hask : ask s.matcher tx = (true, m)) : (check ask txs record i s).1 =
      (checkEach ask txs record (recordedFor record tx.txid)
        ⟨m, s.passed.setIfInBounds i true, (i, true) :: s.calls⟩).1 := by
  rw [check, dif_pos hi, htx]
  simp only [hask, if_true]
  rw [hask]

end

variable (ask) in
theorem check_eq_settle {met : Nat} {record : List (Hash × Nat)}
    (hrecord : ∀ txid, recordedFor record txid = spenders txs met txid) :
    (∀ i s, (check ask txs record i s).1 = settle ask txs met [i] s) ∧
      ∀ positions s, (checkEach ask txs record positions s).1 = settle ask txs met positions s := by
  refine check.mutual_induct ask txs record
    (fun i s => (check ask txs record i s).1 = settle ask txs met [i] s)
    (fun positions s => (checkEach ask txs record positions s).1 = settle ask txs met positions s)
    ?missing ?pass ?refuse ?skip ?none ?each
  case missing =>
    intro i s hi htx
    rw [check_missing hi htx, settle_missing hi htx, settle_nil]
  case pass =>
    intro i s hi tx htx m hask ih
    rw [check_pass hi htx hask, ih, hrecord, settle_pass hi htx hask, List.append_nil]
  case refuse =>
    intro i s hi tx htx answer m hask hno
    obtain rfl : answer = false := Bool.not_eq_true _ ▸ hno
    rw [check_refuse hi htx hask, settle_refuse hi htx hask, settle_nil]
  case skip =>
    intro i s hi
    rw [check_skip hi, settle_skip hi, settle_nil]
  case none =>
    intro s
    rw [checkEach, settle_nil]
  case each =>
    intro i rest s first hfirst hrest _
    rw [checkEach, ← List.singleton_append, settle_append, ← hfirst]
    exact hrest

/-! ## the whole scan -/

variable (ask) in
/-- while transactions are met one by one, the record and the scan are those of the ones met -/
theorem foldl_meet_take (m : σ) {k : Nat} (hk : k ≤ txs.length) :
    (txs.zipIdx.take k).foldl (meet ask txs) ([], start m txs.length) =
      (recordUpTo txs k, upTo ask txs m k) := by
  induction k with
  | zero => rfl
  | succ k ih =>
    have htx : txs[k]? = some txs[k] := List.getElem?_eq_getElem hk
    have hentry : txs.zipIdx[k]? = some (txs[k], k) := by
      rw [List.getElem?_zipIdx, htx, Nat.zero_add]
      rfl
    have hcheck := (check_eq_settle ask (recordedFor_recordUpTo txs (k + 1))).1 k (upTo ask txs m k)
    rw [List.take_add_one, hentry, List.foldl_append, ih (Nat.le_of_succ_le hk), upTo_succ,
      ← hcheck, recordUpTo_succ htx]
    rfl

end Scan

theorem scanRecursively_eq {σ : Type} (ask : Matcher σ) (txs : List Transaction) (m : σ) :
    scanRecursively ask txs m = scan ask txs m := by
  have hall : txs.zipIdx.take txs.length = txs.zipIdx :=
    List.take_of_length_le (Nat.le_of_eq List.length_zipIdx)
  have hfold := Scan.foldl_meet_take ask m (Nat.le_refl txs.length)
  rw [hall] at hfold
  rw [scanRecursively, hfold, Scan.scan_eq_upTo]

/-- **The scan makes the calls of the recursion**, in its order and with its answers, and leaves the
matcher and the marks as the recursion does, whatever the matcher learns on the way and however the
transactions of the block spend from one another. -/
theorem matchBitmap_eq_recursive {σ : Type} (ask : Matcher σ) (b : Block) (m : σ) :
    (scan ask b.transactions m).log = (scanRecursively ask b.transactions m).log ∧
      matchBitmap ask b m = ((scanRecursively ask b.transactions m).passed,
        (scanRecursively ask b.transactions m).matcher) := by
  rw [scanRecursively_eq]
  exact ⟨rfl, rfl⟩

end BlockProof
