import BlockProof.Filter
import BlockProof.Proofs.Scan.Dependency

/-!
# What a set of ids that follows spends lets pass

A set that follows spends takes up the id of each transaction that spends from it. Scanning a block
with it lets pass just the transactions that lead back to the set along spends within the block, in
whatever order the block lists them, and leaves the set with their ids in addition.

* `Linked S txs tx`   `tx` leads back to `S` along spends within `txs`;
* `TxidSet.Wants`     a set lets a transaction pass;
* `Scan.Following`    what a scan with such a set keeps;
* `FindsLinked`       what the scan finds, with the consequences for the order of the block and for
                      a second scan;
* `matchBitmap_finds_linked`   the main result.
-/

namespace BlockProof

/-- the transactions of `txs` whose id is in `S`, or that spend from an id in `S` or from such a
transaction -/
inductive Linked (S : List Hash) (txs : List Transaction) : Transaction → Prop where
  | listed {tx : Transaction} (hmem : tx ∈ txs) (hid : tx.txid ∈ S) : Linked S txs tx
  | spendsListed {tx : Transaction} {o : OutPoint} (hmem : tx ∈ txs) (ho : o ∈ tx.inputs)
      (hid : o.txid ∈ S) : Linked S txs tx
  | spendsLinked {tx parent : Transaction} {o : OutPoint} (hmem : tx ∈ txs) (ho : o ∈ tx.inputs)
      (hparent : Linked S txs parent) (hid : o.txid = parent.txid) : Linked S txs tx

theorem Linked.mem {S : List Hash} {txs : List Transaction} {tx : Transaction}
    (h : Linked S txs tx) : tx ∈ txs := by
  cases h <;> assumption

theorem Linked.perm {S : List Hash} {txs txs' : List Transaction} (hperm : txs.Perm txs')
    {tx : Transaction} (h : Linked S txs tx) : Linked S txs' tx := by
  induction h with
  | listed hmem hid => exact .listed (hperm.mem_iff.mp hmem) hid
  | spendsListed hmem ho hid => exact .spendsListed (hperm.mem_iff.mp hmem) ho hid
  | spendsLinked hmem ho _ hid ih => exact .spendsLinked (hperm.mem_iff.mp hmem) ho ih hid

theorem linked_perm_iff {S : List Hash} {txs txs' : List Transaction} (hperm : txs.Perm txs')
    {tx : Transaction} : Linked S txs tx ↔ Linked S txs' tx :=
  ⟨fun h => h.perm hperm, fun h => h.perm hperm.symm⟩

/-! ## one question to a set -/

namespace TxidSet

/-- the id of `tx`, or one that it spends from, is in the set -/
def Wants (s : TxidSet) (tx : Transaction) : Prop :=
  tx.txid ∈ s.txids ∨ ∃ o ∈ tx.inputs, o.txid ∈ s.txids

theorem mem_ofList {S : List Hash} {x : Hash} : x ∈ (ofList S).txids ↔ x ∈ S := by
  have hfold (T : List Hash) : x ∈ S.foldl (fun s y => s.insert y) T ↔ x ∈ T ∨ x ∈ S := by
    induction S generalizing T with
    | nil => simp
    | cons y S ih =>
      rw [List.foldl_cons, ih, List.mem_insert_iff, List.mem_cons, or_assoc, or_left_comm]
  show x ∈ S.foldl (fun s y => s.insert y) [] ↔ x ∈ S
  rw [hfold]
  exact ⟨fun h => h.resolve_left List.not_mem_nil, .inr⟩

theorem matchTransaction_of_mem {s : TxidSet} {tx : Transaction} (h : tx.txid ∈ s.txids) :
    s.matchTransaction tx = (true, s) := by
  rw [matchTransaction, if_pos h]

theorem spentBy_iff {s : TxidSet} {tx : Transaction} :
    s.spentBy tx = true ↔ ∃ o ∈ tx.inputs, o.txid ∈ s.txids := by
  simp only [spentBy, List.any_eq_true, decide_eq_true_eq]

section
variable {s s' : TxidSet} {tx : Transaction} (hfollows : s.followsSpends = true)
include hfollows

theorem not_wants_of_refuse (h : s.matchTransaction tx = (false, s')) : s' = s ∧ ¬ s.Wants tx := by
  rw [matchTransaction] at h
  split at h
  · cases h
  · next hid =>
    split at h
    · cases h
    · next hspent =>
      cases h
      refine ⟨rfl, ?_⟩
      rintro (hmem | hmem)
      · exact hid hmem
      · exact hspent ⟨hfollows, spentBy_iff.mpr hmem⟩

theorem wants_of_pass (h : s.matchTransaction tx = (true, s')) :
    s.Wants tx ∧ s'.followsSpends = true ∧ ∀ x, x ∈ s'.txids ↔ x ∈ s.txids ∨ x = tx.txid := by
  rw [matchTransaction] at h
  split at h
  · next hid =>
    cases h
    refine ⟨.inl hid, hfollows, ?_⟩
    intro x
    refine ⟨.inl, ?_⟩
    rintro (hx | rfl)
    · exact hx
    · exact hid
  · split at h
    · next hspent =>
      cases h
      refine ⟨.inr (spentBy_iff.mp hspent.2), hfollows, ?_⟩
      intro x
      show x ∈ s.txids.insert tx.txid ↔ _
      rw [List.mem_insert_iff]
      exact or_comm
    · cases h

theorem matchTransaction_of_not_wants (h : ¬ s.Wants tx) : s.matchTransaction tx = (false, s) := by
  cases hmatch : s.matchTransaction tx with
  | mk answer s' =>
    cases answer with
    | true => exact absurd (wants_of_pass hfollows hmatch).1 h
    | false => rw [(not_wants_of_refuse hfollows hmatch).1]

end

end TxidSet

/-! ## a scan with such a set -/

/-- `tx` stands in the list where a mark is set -/
def Passed (txs : List Transaction) (marked : Array Bool) (tx : Transaction) : Prop :=
  ∃ i : Nat, txs[i]? = some tx ∧ marked[i]? = some true

theorem passed_setIfInBounds_iff {txs : List Transaction} {marked : Array Bool} {i : Nat}
    {tx t : Transaction} (hi : marked[i]? = some false) (htx : txs[i]? = some tx) :
    Passed txs (marked.setIfInBounds i true) t ↔ t = tx ∨ Passed txs marked t := by
  refine ⟨?_, ?_⟩
  · intro h
    obtain ⟨k, ht, hk⟩ := h
    rcases (Scan.setIfInBounds_eq_some_true_iff hi).mp hk with rfl | hk
    · exact .inl (Option.some.inj (ht.symm.trans htx))
    · exact .inr ⟨k, ht, hk⟩
  · rintro (rfl | ⟨k, ht, hk⟩)
    · exact ⟨i, htx, (Scan.setIfInBounds_eq_some_true_iff hi).mpr (.inl rfl)⟩
    · exact ⟨k, ht, (Scan.setIfInBounds_eq_some_true_iff hi).mpr (.inr hk)⟩

theorem getElem?_inj_of_nodup_txid {txs : List Transaction} (hnodup : (txs.map (·.txid)).Nodup)
    {i k : Nat} {tx tx' : Transaction} (hi : txs[i]? = some tx) (hk : txs[k]? = some tx')
    (hid : tx.txid = tx'.txid) : i = k := by
  obtain ⟨hlt, -⟩ := List.getElem?_eq_some_iff.mp hi
  have hlen : i < (txs.map (·.txid)).length := by
    rw [List.length_map]
    exact hlt
  refine (List.getElem?_inj hlen hnodup).mp ?_
  rw [List.getElem?_map, List.getElem?_map, hi, hk, Option.map_some, Option.map_some, hid]

namespace Scan

/-- what a scan keeps when the set began with the ids `S` and follows spends -/
structure Following (S : List Hash) (txs : List Transaction) (met : Nat) (pending : List Nat)
    (s : Scan TxidSet) : Prop where
  follows : s.matcher.followsSpends = true
  ids_iff : ∀ x, x ∈ s.matcher.txids ↔ x ∈ S ∨ ∃ tx, Passed txs s.passed tx ∧ tx.txid = x
  linked : ∀ tx, Passed txs s.passed tx → Linked S txs tx
  settled : ∀ i tx, i < met → txs[i]? = some tx → s.passed[i]? = some false →
    i ∈ pending ∨ ¬ s.matcher.Wants tx

section
variable {S : List Hash} {txs : List Transaction} {met : Nat} {pending pending' : List Nat}
  {s s' : Scan TxidSet}

/-- what the set wants leads back to `S`, either on its own account or through what has passed -/
theorem Following.linked_of_wants (hnodup : (txs.map (·.txid)).Nodup)
    (h : Following S txs met pending s) {i : Nat} {tx : Transaction}
    (hi : s.passed[i]? = some false) (htx : txs[i]? = some tx) (hwants : s.matcher.Wants tx) :
    Linked S txs tx := by
  have hmem : tx ∈ txs := List.mem_of_getElem? htx
  rcases hwants with hid | ⟨o, ho, hid⟩
  · rcases (h.ids_iff _).mp hid with hid | ⟨t, ⟨k, ht, hk⟩, heq⟩
    · exact .listed hmem hid
    · rw [getElem?_inj_of_nodup_txid hnodup ht htx heq, hi] at hk
      cases hk
  · rcases (h.ids_iff _).mp hid with hid | ⟨t, hpassed, heq⟩
    · exact .spendsListed hmem ho hid
    · exact .spendsLinked hmem ho (h.linked t hpassed) heq.symm

theorem Following.step (hnodup : (txs.map (·.txid)).Nodup)
    (hstep : Step TxidSet.matchTransaction txs met pending s pending' s')
    (h : Following S txs met pending s) : Following S txs met pending' s' := by
  cases hstep with
  | skip hi =>
    refine ⟨h.follows, h.ids_iff, h.linked, ?_⟩
    intro k t hk ht hfalse
    rcases h.settled k t hk ht hfalse with hmem | hnot
    · rcases List.mem_cons.mp hmem with rfl | hmem
      · cases hi.symm.trans hfalse
      · exact .inl hmem
    · exact .inr hnot
  | @refuse i _ _ tx m hi htx hask =>
    obtain ⟨rfl, hrefused⟩ := TxidSet.not_wants_of_refuse h.follows hask
    refine ⟨h.follows, h.ids_iff, h.linked, ?_⟩
    intro k t hk ht hfalse
    rcases h.settled k t hk ht hfalse with hmem | hnot
    · rcases List.mem_cons.mp hmem with rfl | hmem
      · cases htx.symm.trans ht
        exact .inr hrefused
      · exact .inl hmem
    · exact .inr hnot
  | @pass i rest _ tx m hi htx hask =>
    obtain ⟨hwants, hfollows, hids⟩ := TxidSet.wants_of_pass h.follows hask
    refine ⟨hfollows, ?_, ?_, ?_⟩
    · intro x
      show x ∈ m.txids ↔ x ∈ S ∨ ∃ t, Passed txs (s.passed.setIfInBounds i true) t ∧ t.txid = x
      rw [hids, h.ids_iff, or_assoc]
      refine or_congr_right ?_
      simp only [passed_setIfInBounds_iff hi htx, or_and_right, exists_or, exists_eq_left]
      rw [or_comm, eq_comm]
    · intro t ht
      rcases (passed_setIfInBounds_iff hi htx).mp ht with rfl | ht
      · exact h.linked_of_wants hnodup hi htx hwants
      · exact h.linked t ht
    · intro k t hk ht hfalse
      have hne : k ≠ i := by
        rintro rfl
        have htrue := (setIfInBounds_eq_some_true_iff hi).mpr (.inl rfl)
        cases htrue.symm.trans hfalse
      rw [setIfInBounds_of_ne hne] at hfalse
      rcases h.settled k t hk ht hfalse with hmem | hnot
      · exact .inl (List.mem_append_right _ (List.mem_of_ne_of_mem hne hmem))
      · by_cases hspends : SpendsFrom txs k tx.txid
        · exact .inl (List.mem_append_left _ (mem_spenders_iff.mpr ⟨hk, hspends⟩))
        · refine .inr ?_
          rintro (hid | ⟨o, ho, hid⟩)
          · rcases (hids _).mp hid with hid | heq
            · exact hnot (.inl hid)
            · exact hne (getElem?_inj_of_nodup_txid hnodup ht htx heq)
          · rcases (hids _).mp hid with hid | heq
            · exact hnot (.inr ⟨o, ho, hid⟩)
            · exact hspends ⟨t, ht, o, ho, heq⟩

theorem Following.start (S : List Hash) (txs : List Transaction) :
    Following S txs 0 [] (start (TxidSet.ofList S).followingSpends txs.length) := by
  have hnone (tx : Transaction) : ¬ Passed txs (Array.replicate txs.length false) tx := by
    rintro ⟨i, -, hi⟩
    obtain ⟨_, hval⟩ := Array.getElem?_eq_some_iff.mp hi
    cases (Array.getElem_replicate _).symm.trans hval
  refine ⟨rfl, ?_, fun tx h => absurd h (hnone tx), fun i tx hi => absurd hi (Nat.not_lt_zero i)⟩
  intro x
  refine TxidSet.mem_ofList.trans ⟨.inl, ?_⟩
  rintro (hx | ⟨tx, hpassed, -⟩)
  · exact hx
  · exact absurd hpassed (hnone tx)

theorem Following.move {k : Nat} (h : Following S txs k [] s) : Following S txs (k + 1) [k] s := by
  refine ⟨h.follows, h.ids_iff, h.linked, ?_⟩
  intro i tx hi htx hfalse
  rcases Nat.lt_succ_iff_lt_or_eq.mp hi with hlt | rfl
  · rcases h.settled i tx hlt htx hfalse with hmem | hnot
    · cases hmem
    · exact .inr hnot
  · exact .inl List.mem_cons_self

theorem Following.passed_of_wants (h : Following S txs txs.length [] s)
    (hin : InRange txs txs.length [] s) {i : Nat} {tx : Transaction} (htx : txs[i]? = some tx)
    (hwants : s.matcher.Wants tx) : s.passed[i]? = some true := by
  obtain ⟨hi, -⟩ := List.getElem?_eq_some_iff.mp htx
  refine (hin.getElem? txs (Nat.le_refl _) hi).resolve_right ?_
  intro hfalse
  rcases h.settled i tx hi htx hfalse with hmem | hnot
  · cases hmem
  · exact hnot hwants

theorem Following.passed_of_linked (h : Following S txs txs.length [] s)
    (hin : InRange txs txs.length [] s) {tx : Transaction} (hlinked : Linked S txs tx) {i : Nat}
    (htx : txs[i]? = some tx) : s.passed[i]? = some true := by
  -- along the spends: the id of a parent that has passed is in the set, so its spender is wanted
  induction hlinked generalizing i with
  | listed hmem hid => exact h.passed_of_wants hin htx (.inl ((h.ids_iff _).mpr (.inl hid)))
  | @spendsListed _ o hmem ho hid =>
    exact h.passed_of_wants hin htx (.inr ⟨o, ho, (h.ids_iff _).mpr (.inl hid)⟩)
  | @spendsLinked _ parent o hmem ho hparent hid ih =>
    obtain ⟨k, hk⟩ := List.getElem?_of_mem hparent.mem
    have hids : o.txid ∈ s.matcher.txids :=
      (h.ids_iff _).mpr (.inr ⟨parent, ⟨k, hk, ih hk⟩, hid.symm⟩)
    exact h.passed_of_wants hin htx (.inr ⟨o, ho, hids⟩)

theorem Following.passed_iff_linked (h : Following S txs txs.length [] s)
    (hin : InRange txs txs.length [] s) (tx : Transaction) :
    Passed txs s.passed tx ↔ Linked S txs tx := by
  refine ⟨h.linked tx, ?_⟩
  intro hlinked
  obtain ⟨i, hi⟩ := List.getElem?_of_mem hlinked.mem
  exact ⟨i, hi, h.passed_of_linked hin hlinked hi⟩

/-- the learned set answers at once what the scan found out, and learns nothing more -/
theorem Following.matchTransaction_eq (h : Following S txs txs.length [] s)
    (hin : InRange txs txs.length [] s) {i : Nat} {tx : Transaction} (htx : txs[i]? = some tx) :
    (s.passed[i]? = some true ∧ s.matcher.matchTransaction tx = (true, s.matcher)) ∨
      (s.passed[i]? = some false ∧ s.matcher.matchTransaction tx = (false, s.matcher)) := by
  obtain ⟨hi, -⟩ := List.getElem?_eq_some_iff.mp htx
  rcases hin.getElem? txs (Nat.le_refl _) hi with htrue | hfalse
  · refine .inl ⟨htrue, TxidSet.matchTransaction_of_mem ?_⟩
    exact (h.ids_iff _).mpr (.inr ⟨tx, ⟨i, htx, htrue⟩, rfl⟩)
  · refine .inr ⟨hfalse, TxidSet.matchTransaction_of_not_wants h.follows ?_⟩
    intro hwants
    cases (h.passed_of_wants hin htx hwants).symm.trans hfalse

theorem following_scan (S : List Hash) (hnodup : (txs.map (·.txid)).Nodup) :
    InRange txs txs.length []
        (scan TxidSet.matchTransaction txs (TxidSet.ofList S).followingSpends) ∧
      Following S txs txs.length []
        (scan TxidSet.matchTransaction txs (TxidSet.ofList S).followingSpends) :=
  upTo_invariant TxidSet.matchTransaction txs _ (.start S txs) (fun _ _ h => h.move)
    (fun _ hstep _ h => h.step hnodup hstep) (Nat.le_refl _)

theorem Following.scan_again (h : Following S txs txs.length [] s)
    (hin : InRange txs txs.length [] s) :
    (scan TxidSet.matchTransaction txs s.matcher).passed = s.passed ∧
      (scan TxidSet.matchTransaction txs s.matcher).matcher = s.matcher := by
  have hsame : ∀ tx ∈ txs, (s.matcher.matchTransaction tx).2 = s.matcher := by
    intro tx htx
    obtain ⟨i, hi⟩ := List.getElem?_of_mem htx
    rcases h.matchTransaction_eq hin hi with ⟨-, heq⟩ | ⟨-, heq⟩ <;> rw [heq]
  obtain ⟨hmatcher, hpassed⟩ := scan_of_unchanged TxidSet.matchTransaction s.matcher hsame
  have hsize := size_passed_scan TxidSet.matchTransaction txs s.matcher
  have hmarks (i : Nat) (tx : Transaction) (htx : txs[i]? = some tx) :
      s.passed[i]? = some (s.matcher.matchTransaction tx).1 := by
    rcases h.matchTransaction_eq hin htx with ⟨hi, heq⟩ | ⟨hi, heq⟩ <;> rw [heq, hi]
  exact ⟨(eq_map_of_getElem? hsize hpassed).trans (eq_map_of_getElem? hin.size hmarks).symm,
    hmatcher⟩

end

end Scan

/-- which transactions of `b` pass for the ids `S`, following spends, and the set learned -/
def matchLinked (S : List Hash) (b : Block) : Array Bool × TxidSet :=
  matchBitmap TxidSet.matchTransaction b (TxidSet.ofList S).followingSpends

/-- the scan of `b` for `S`, following spends, finds just what leads back to `S` -/
structure FindsLinked (S : List Hash) (b : Block) : Prop where
  size_bitmap : (matchLinked S b).1.size = b.transactions.length
  passes_iff : ∀ (i : Nat) (tx : Transaction), b.transactions[i]? = some tx →
    ((matchLinked S b).1[i]? = some true ↔ Linked S b.transactions tx)
  learns_iff : ∀ x, x ∈ (matchLinked S b).2.txids ↔
    x ∈ S ∨ ∃ tx, Linked S b.transactions tx ∧ tx.txid = x
  any_order : ∀ b' : Block, b'.transactions.Perm b.transactions →
    (∀ tx, Passed b'.transactions (matchLinked S b').1 tx ↔
        Passed b.transactions (matchLinked S b).1 tx) ∧
      ∀ x, x ∈ (matchLinked S b').2.txids ↔ x ∈ (matchLinked S b).2.txids
  again : matchBitmap TxidSet.matchTransaction b (matchLinked S b).2 = matchLinked S b

/-- **A set that follows spends finds what leads back to it**, if the block lists each id once. -/
theorem matchBitmap_finds_linked (S : List Hash) (b : Block) (hnodup : b.txids.Nodup) :
    FindsLinked S b := by
  have hpassed (c : Block) (hc : c.txids.Nodup) (tx : Transaction) :
      Passed c.transactions (matchLinked S c).1 tx ↔ Linked S c.transactions tx := by
    obtain ⟨hin, hfollowing⟩ := Scan.following_scan S hc
    exact hfollowing.passed_iff_linked hin tx
  have hlearned (c : Block) (hc : c.txids.Nodup) (x : Hash) : x ∈ (matchLinked S c).2.txids ↔
      x ∈ S ∨ ∃ tx, Linked S c.transactions tx ∧ tx.txid = x := by
    simp only [← hpassed c hc]
    exact (Scan.following_scan S hc).2.ids_iff x
  obtain ⟨hin, hfollowing⟩ := Scan.following_scan S hnodup
  exact
    { size_bitmap := hin.size
      passes_iff := by
        intro i tx htx
        refine ⟨fun h => (hpassed b hnodup tx).mp ⟨i, htx, h⟩, ?_⟩
        exact fun h => hfollowing.passed_of_linked hin h htx
      learns_iff := hlearned b hnodup
      any_order := by
        intro b' hperm
        have hnodup' : b'.txids.Nodup := (hperm.map Transaction.txid).nodup_iff.mpr hnodup
        refine ⟨?_, ?_⟩
        · intro tx
          rw [hpassed b' hnodup', hpassed b hnodup, linked_perm_iff hperm]
        · intro x
          simp only [hlearned b' hnodup', hlearned b hnodup, linked_perm_iff hperm]
      again := by
        obtain ⟨hmarks, hmatcher⟩ := hfollowing.scan_again hin
        exact Prod.ext hmarks hmatcher }

/-- a chain of spends that the block lists backwards, and a stranger -/
theorem matchBitmap_finds_linked_backwards :
    ∃ (x : Hash) (b : Block), b.txids.Nodup ∧ FindsLinked [x] b ∧
      (matchLinked [x] b).1 = #[true, true, false, true] ∧
      ∀ tx ∈ b.transactions.take 2, Linked [x] b.transactions tx := by
  let b : Block := ⟨default, [⟨.fill 3, [⟨.fill 2, 0⟩], []⟩, ⟨.fill 2, [⟨.fill 1, 0⟩], []⟩,
    ⟨.fill 4, [⟨.fill 5, 0⟩], []⟩, ⟨.fill 1, [⟨.fill 0, 7⟩], []⟩]⟩
  have hnodup : b.txids.Nodup := by decide +kernel
  have hmarks : (matchLinked [.fill 0] b).1 = #[true, true, false, true] := by decide +kernel
  have hfinds := matchBitmap_finds_linked [.fill 0] b hnodup
  refine ⟨.fill 0, b, hnodup, hfinds, hmarks, ?_⟩
  refine List.forall_mem_cons.mpr ⟨?_, List.forall_mem_singleton.mpr ?_⟩
  · refine (hfinds.passes_iff 0 _ rfl).mp ?_
    rw [hmarks]
    rfl
  · refine (hfinds.passes_iff 1 _ rfl).mp ?_
    rw [hmarks]
    rfl

end BlockProof
