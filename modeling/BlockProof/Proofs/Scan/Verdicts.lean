import BlockProof.Proofs.Scan.Closure
import BlockProof.Proofs.Scan.Spenders
import BlockProof.Proofs.Tree.Building
import Mathlib.Logic.Equiv.Defs

/-!
# What a scan adds to the verdicts of its matcher

A scan asks again about transactions that spend from what passes. To a matcher that learns nothing
this makes no difference: it answers about each transaction as it would about that transaction
alone, so the order of the block does not show in the answers, and an exact set of ids is proven
as it would be without any scan. A filter that learns only ever gains bits, so each question finds
at least the bits that it began with, and what it lets pass without learning it lets pass still.

* `matchBitmap_of_unchanged`   the scan with a matcher that learns nothing;
* `ProvesSet`                  the scan for an exact set of ids;
* `JudgesAlone`                the scan with a filter that does not learn;
* `LearningAdds`               the scans with one filter in its two modes;
* `rechecks_show_only_by_learning`   the main result.
-/

namespace BlockProof

theorem matchBitmap_of_unchanged {σ : Type} {ask : Matcher σ} {b : Block} {m : σ}
    (hsame : ∀ tx ∈ b.transactions, (ask m tx).2 = m) :
    matchBitmap ask b m = ((b.transactions.map fun tx => (ask m tx).1).toArray, m) := by
  obtain ⟨hmatcher, hpassed⟩ := Scan.scan_of_unchanged ask m hsame
  have hsize := Scan.size_passed_scan ask b.transactions m
  exact Prod.ext (Scan.eq_map_of_getElem? hsize hpassed) hmatcher

/-! ## exact sets -/

theorem TxidSet.matchTransaction_ofList (S : List Hash) (tx : Transaction) :
    (ofList S).matchTransaction tx = (decide (tx.txid ∈ S), ofList S) := by
  have hfollows : ¬ ((ofList S).followsSpends = true ∧ (ofList S).spentBy tx = true) :=
    fun h => Bool.false_ne_true h.1
  by_cases hid : tx.txid ∈ S
  · rw [matchTransaction_of_mem (mem_ofList.mpr hid), decide_eq_true hid]
  · rw [matchTransaction, if_neg (mt mem_ofList.mp hid), if_neg hfollows, decide_eq_false hid]

/-- a scan of `b` for the ids `S` marks the transactions that have one of them, and what becomes of
the block then is what becomes of a proof for the set itself -/
structure ProvesSet (S : List Hash) (b : Block) : Prop where
  marks : matchBitmap TxidSet.matchTransaction b (TxidSet.ofList S) =
    ((b.txids.map fun x => decide (x ∈ S)).toArray, TxidSet.ofList S)
  outcome (p : Prover) (hne : b.transactions ≠ []) :
    p.filterBlock TxidSet.matchTransaction b (TxidSet.ofList S) =
      ((p.proveSet b.header b.txids.toArray S).mapError .misused).map
        fun r => ⟨r.1, r.2, TxidSet.ofList S⟩
  /-- both are made, for as many transactions as a proof can count -/
  made (p : Prover) (hne : b.transactions ≠ []) (hcount : b.transactions.length < UInt32.size) :
    ∃ r, p.filterBlock TxidSet.matchTransaction b (TxidSet.ofList S) = .ok r ∧
      p.proveSet b.header b.txids.toArray S = .ok (r.merkleBlock, r.indices)

theorem proveSet_eq_ok (p : Prover) {b : Block} (S : List Hash) (hne : b.transactions ≠ [])
    (hcount : b.transactions.length < UInt32.size) :
    ∃ mb indices, p.proveSet b.header b.txids.toArray S = .ok (mb, indices) := by
  have hlen : b.txids.toArray.size = b.transactions.length := List.length_map _
  have hpos : 0 < b.txids.toArray.size := hlen ▸ List.length_pos_iff.mpr hne
  exact ⟨_, _, p.prove_eq_ok b.header hpos Array.size_map (hlen.trans_lt hcount)⟩

theorem provesSet (S : List Hash) (b : Block) : ProvesSet S b := by
  have hmarks : matchBitmap TxidSet.matchTransaction b (TxidSet.ofList S) =
      ((b.txids.map fun x => decide (x ∈ S)).toArray, TxidSet.ofList S) := by
    rw [matchBitmap_of_unchanged fun tx _ => by rw [TxidSet.matchTransaction_ofList]]
    simp only [TxidSet.matchTransaction_ofList, Block.txids, List.map_map, Function.comp_def]
  have houtcome (p : Prover) (hne : b.transactions ≠ []) :
      p.filterBlock TxidSet.matchTransaction b (TxidSet.ofList S) =
        ((p.proveSet b.header b.txids.toArray S).mapError .misused).map
          fun r => ⟨r.1, r.2, TxidSet.ofList S⟩ := by
    rw [p.filterBlock_of_ne_nil _ _ hne, hmarks, Prover.proveSet, List.map_toArray]
  refine ⟨hmarks, houtcome, ?_⟩
  intro p hne hcount
  obtain ⟨mb, indices, hset⟩ := proveSet_eq_ok p S hne hcount
  refine ⟨⟨mb, indices, TxidSet.ofList S⟩, ?_, hset⟩
  rw [houtcome p hne, hset]
  rfl

/-! ## filters -/

section
variable {f : BloomFilter} {b : Block}

theorem passes_of_wants {i : Nat} {tx : Transaction} (htx : b.transactions[i]? = some tx)
    (hwants : f.Wants tx) : (matchFilter f b).1[i]? = some true := by
  obtain ⟨before, after, hlog⟩ := Scan.exists_call BloomFilter.matchTransaction f htx
  have hthen := (BloomFilter.grows_matcherAfter b.transactions f before).wants hwants
  rw [BloomFilter.matchTransaction_fst_iff.mpr hthen] at hlog
  refine Scan.passed_scan_iff.mpr ?_
  rw [hlog]
  exact List.mem_append_right _ List.mem_cons_self

theorem grows_matchFilter (f : BloomFilter) (b : Block) : f.Grows (matchFilter f b).2 := by
  have hlast := (Scan.history_scan BloomFilter.matchTransaction b.transactions f).matcherAfter_eq
  have hgrows := BloomFilter.grows_matcherAfter b.transactions f
    (scan BloomFilter.matchTransaction b.transactions f).log
  rw [hlast] at hgrows
  exact hgrows

theorem matchFilter_of_none (hnone : f.update = .none) (b : Block) : matchFilter f b =
    ((b.transactions.map fun tx => (f.matchTransaction tx).1).toArray, f) :=
  matchBitmap_of_unchanged fun _ _ => BloomFilter.matchTransaction_snd_of_none hnone

end

/-- a scan of `b` with `f` is the verdicts of `f` on one transaction after another, so a block with
the same transactions in another order has the same marks in that order -/
structure JudgesAlone (f : BloomFilter) (b : Block) : Prop where
  marks : matchFilter f b = ((b.transactions.map fun tx => (f.matchTransaction tx).1).toArray, f)
  permuted (b' : Block) (order : Fin b'.transactions.length ≃ Fin b.transactions.length)
    (hsame : ∀ i, b'.transactions.get i = b.transactions.get (order i)) :
    ∀ i, (matchFilter f b').1[i.val]? = (matchFilter f b).1[(order i).val]?

theorem judgesAlone {f : BloomFilter} (hnone : f.update = .none) (b : Block) : JudgesAlone f b := by
  refine ⟨matchFilter_of_none hnone b, ?_⟩
  intro b' order hsame i
  have hi : b'.transactions[i.val]? = some (b'.transactions.get i) :=
    List.getElem?_eq_getElem i.isLt
  have hk : b.transactions[(order i).val]? = some (b.transactions.get (order i)) :=
    List.getElem?_eq_getElem (order i).isLt
  rw [matchFilter_of_none hnone, matchFilter_of_none hnone, List.getElem?_toArray,
    List.getElem?_toArray, List.getElem?_map, List.getElem?_map, hi, hk, hsame]

/-- what passes `f` when it does not learn passes when it does, and it keeps all its bits -/
structure LearningAdds (f : BloomFilter) (b : Block) : Prop where
  passes : ∀ i : Nat, (matchFilter (f.withUpdate .none) b).1[i]? = some true →
    (matchFilter (f.withUpdate .all) b).1[i]? = some true
  grows : (f.withUpdate .all).Grows (matchFilter (f.withUpdate .all) b).2

theorem learningAdds (f : BloomFilter) (b : Block) : LearningAdds f b := by
  refine ⟨?_, ?_⟩
  · intro i hi
    rw [matchFilter_of_none rfl, List.getElem?_toArray, List.getElem?_map,
      Option.map_eq_some_iff] at hi
    obtain ⟨tx, htx, hpasses⟩ := hi
    have hwants : f.Wants tx :=
      BloomFilter.wants_withUpdate.mp (BloomFilter.matchTransaction_fst_iff.mp hpasses)
    exact passes_of_wants htx (BloomFilter.wants_withUpdate.mpr hwants)
  · exact grows_matchFilter (f.withUpdate .all) b

/-- **That a scan asks again shows only in what a matcher learns.** Exact sets and filters that do
not learn get the marks that they give one transaction at a time, and a filter that learns marks
no fewer. -/
theorem rechecks_show_only_by_learning (b : Block) : (∀ S, ProvesSet S b) ∧
    (∀ f : BloomFilter, JudgesAlone (f.withUpdate .none) b) ∧ ∀ f, LearningAdds f b :=
  ⟨fun S => provesSet S b, fun _ => judgesAlone rfl b, fun f => learningAdds f b⟩

/-- learning adds a transaction that spends what passes after it -/
example : ∃ (f : BloomFilter) (b : Block),
    (matchFilter (f.withUpdate .none) b).1 = #[false, true] ∧
      (matchFilter (f.withUpdate .all) b).1 = #[true, true] := by
  let f : BloomFilter := (BloomFilter.ofBytes (List.replicate 8 0) 3 0 .none).insert [7, 7]
  let b : Block := ⟨default, [⟨.fill 2, [⟨.fill 1, 0⟩], []⟩, ⟨.fill 1, [], [⟨6, [2, 7, 7]⟩]⟩]⟩
  exact ⟨f, b, by decide +kernel, by decide +kernel⟩

end BlockProof
