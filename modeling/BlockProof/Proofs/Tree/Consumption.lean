import BlockProof.Proofs.Tree.Agreement
import BlockProof.Proofs.Tree.FirstFailure

/-!
# An accepted proof is used up exactly

Flags and hashes of an accepted proof say where the walk goes and where it ends, so that nothing can
be cut off or added unnoticed: each way of doing so has one outcome, whatever combines the hashes.
Up to where a list is cut the walk is the one over the whole lists, so no other failure comes first;
what is added at the end the walk never sees, and only counts tell. The one thing that is free is
what fills the last byte of the flags.

* `Cursor.walk_pruned`          the walk over the lists of a pruned tree without twins;
* `Cursor.walk_take_hashes`, `Cursor.walk_take_flags`   the walk where one of them is cut;
* `PartialTree.replay_append`   reading where both go on after the tree's;
* `accepted_proof_used_up_exactly`   the main result.
-/

namespace BlockProof

/-! ## walks over the lists of a pruned tree, whole and cut -/

namespace Cursor

variable (combine : Combiner) {n : Nat}

/-- as the walk that goes on does not fail there, neither does the one that stops -/
theorem walk_pruned {h p : Nat} (P : Pruned n h p) (htwins : P.twins combine = []) (fs : List Bool)
    (xs : List Hash) (found : List MatchedLeaf) :
    walk combine n h p ⟨P.flags ++ fs, P.hashes ++ xs, found⟩ =
      .ok (P.root combine, ⟨fs, xs, P.matched.reverse ++ found⟩) := by
  have hends := Walk.endsAs_runWith (fun _ _ => Hash.zero) combine n h p
    ⟨P.flags ++ fs, P.hashes ++ xs, found⟩
  rw [Walk.runWith_zero, resume, Walk.run_pruned, htwins] at hends
  cases hw : walk combine n h p ⟨P.flags ++ fs, P.hashes ++ xs, found⟩ with
  | error e =>
    rw [hw] at hends
    cases hends
  | ok v =>
    rw [hw] at hends
    obtain ⟨x, gs, ys, found'⟩ := v
    obtain ⟨rfl, hc⟩ := Prod.mk.inj hends
    obtain ⟨rfl, rfl, rfl, -⟩ := Walk.mk.inj hc
    rfl

theorem walk_take_hashes {h p : Nat} (P : Pruned n h p) (htwins : P.twins combine = []) {k : Nat}
    (hk : k < P.hashes.length) (fs : List Bool) (found : List MatchedLeaf) :
    walk combine n h p ⟨P.flags ++ fs, P.hashes.take k, found⟩ = .error .hashesExhausted := by
  induction P generalizing k fs found with
  | hidden x =>
    obtain rfl := Nat.lt_one_iff.mp hk
    rfl
  | leaf flag x =>
    obtain rfl := Nat.lt_one_iff.mp hk
    rfl
  | single only left ih => exact walk_left_error combine n (ih htwins hk fs found)
  | pair both left right ihl ihr =>
    obtain ⟨hl, hr, -⟩ := Pruned.twins_pair_eq_nil_iff.mp htwins
    rw [Pruned.hashes, List.length_append] at hk
    rw [Pruned.flags, Pruned.hashes, List.cons_append, List.append_assoc]
    by_cases hcut : k < left.hashes.length
    · rw [List.take_append_of_le_length hcut.le]
      exact walk_left_error combine n (ihl hl hcut _ found)
    · obtain ⟨j, rfl⟩ := Nat.exists_eq_add_of_le (Nat.not_lt.mp hcut)
      rw [List.take_length_add_append]
      exact walk_right_error combine n (walk_pruned combine left hl _ _ found) both
        (ihr hr (Nat.lt_of_add_lt_add_left hk) fs _)

theorem walk_take_flags {h p : Nat} (P : Pruned n h p) (htwins : P.twins combine = []) {k : Nat}
    (hk : k < P.flags.length) (xs : List Hash) (found : List MatchedLeaf) :
    walk combine n h p ⟨P.flags.take k, P.hashes ++ xs, found⟩ = .error .flagsExhausted := by
  induction P generalizing k xs found with
  | hidden x =>
    obtain rfl := Nat.lt_one_iff.mp hk
    rfl
  | leaf flag x =>
    obtain rfl := Nat.lt_one_iff.mp hk
    rfl
  | single only left ih =>
    cases k with
    | zero => rfl
    | succ k => exact walk_left_error combine n (ih htwins (Nat.lt_of_succ_lt_succ hk) xs found)
  | pair both left right ihl ihr =>
    obtain ⟨hl, hr, -⟩ := Pruned.twins_pair_eq_nil_iff.mp htwins
    cases k with
    | zero => rfl
    | succ k =>
      rw [Pruned.flags, List.length_cons, List.length_append, Nat.succ_lt_succ_iff] at hk
      rw [Pruned.flags, Pruned.hashes, List.take_succ_cons, List.append_assoc]
      by_cases hcut : k < left.flags.length
      · rw [List.take_append_of_le_length hcut.le]
        exact walk_left_error combine n (ihl hl hcut _ found)
      · obtain ⟨j, rfl⟩ := Nat.exists_eq_add_of_le (Nat.not_lt.mp hcut)
        rw [List.take_length_add_append]
        exact walk_right_error combine n (walk_pruned combine left hl _ _ found) both
          (ihr hr (Nat.lt_of_add_lt_add_left hk) xs _)

end Cursor

/-! ## proofs that are cut or go on -/

namespace PartialTree

variable (combine : Combiner) {t : PartialTree}

theorem replay_eq_replayAtOnce : t.replay combine = t.replayAtOnce combine :=
  (replayWith_zero combine t).symm.trans (replayWith_eq _ combine t)

section
variable {max : UInt32} {count : UInt32} {flags : List Bool} {hashes : List Hash}
  (hl : checkLeafCount count max = .ok ())
include hl

theorem extract_of_leafCount : (⟨count, flags, hashes⟩ : PartialTree).extract combine max = (do
    checkHashCount hashes.length count
    checkFlagCount flags.length hashes.length
    (⟨count, flags, hashes⟩ : PartialTree).replay combine) := by
  unfold extract
  simp only [hl]
  rfl

theorem extract_of_walk_error {e : ProofError}
    (hh : checkHashCount hashes.length count = .ok ())
    (hf : checkFlagCount flags.length hashes.length = .ok ())
    (hwalk : Cursor.walk combine count.toNat (treeHeight count.toNat) 0 ⟨flags, hashes, []⟩ =
      .error e) : (⟨count, flags, hashes⟩ : PartialTree).extract combine max = .error e := by
  rw [extract_of_leafCount combine hl, hh, hf, replay_eq_replayAtOnce, replayAtOnce, hwalk]
  rfl

end

/-- reading a proof whose lists go on after those of a pruned tree without twins -/
theorem replay_append {n : Nat} (P : Pruned n (treeHeight n) 0) (htwins : P.twins combine = [])
    (hcount : t.leafCount.toNat = n) {fs : List Bool} {xs : List Hash} (hf : t.flags = P.flags ++ fs)
    (hx : t.hashes = P.hashes ++ xs) : t.replay combine = (do
      checkHashesUsed P.hashes.length t.hashes.length
      checkFlagsUsed P.flags.length t.flags.length
      return ⟨P.root combine, P.matched⟩) := by
  subst hcount
  have husedHashes : t.hashes.length - xs.length = P.hashes.length := by
    rw [hx, List.length_append, Nat.add_sub_cancel]
  have husedFlags : t.flags.length - fs.length = P.flags.length := by
    rw [hf, List.length_append, Nat.add_sub_cancel]
  have hwalk := Cursor.walk_pruned combine P htwins fs xs []
  rw [← hf, ← hx, List.append_nil] at hwalk
  rw [replay_eq_replayAtOnce, replayAtOnce, hwalk]
  show (do
    checkHashesUsed (t.hashes.length - xs.length) t.hashes.length
    checkFlagsUsed (t.flags.length - fs.length) t.flags.length
    return (⟨P.root combine, P.matched.reverse.reverse⟩ : MatchResult)) = _
  rw [husedHashes, husedFlags, List.reverse_reverse]

section
variable {max : UInt32} {n : Nat} {P : Pruned n (treeHeight n) 0} (hP : t.Carries P)
  (htwins : P.twins combine = []) (hl : checkLeafCount t.leafCount max = .ok ())
include hP htwins hl

theorem extract_take_hashes {k : Nat} (hk : k < t.hashes.length) :
    ({ t with hashes := t.hashes.take k } : PartialTree).extract combine max =
      .error .hashesExhausted := by
  obtain rfl := hP.count
  obtain ⟨fs, hf⟩ := hP.flags
  have hcount := checkHashCount_eq_ok.mp
    (checkHashCount_of_carries hP (checkLeafCount_eq_ok.mp hl).1)
  have hbits := checkFlagCount_eq_ok.mp (checkFlagCount_of_carries hP)
  have hlen : (t.hashes.take k).length ≤ t.hashes.length := List.length_take_le' k t.hashes
  refine extract_of_walk_error combine hl (checkHashCount_eq_ok.mpr (hlen.trans hcount))
    (checkFlagCount_eq_ok.mpr (hlen.trans hbits)) ?_
  rw [← hf, ← hP.hashes]
  exact Cursor.walk_take_hashes combine P htwins (hP.hashes ▸ hk) fs []

theorem extract_append_hashes {more : List Hash} (hmore : more ≠ []) :
    ({ t with hashes := t.hashes ++ more } : PartialTree).extract combine max =
      .error (if t.leafCount.toNat < t.hashes.length + more.length then
          .tooManyHashes (t.hashes.length + more.length) t.leafCount
        else if t.flags.length < t.hashes.length + more.length then
          .notEnoughBits t.flags.length (t.hashes.length + more.length)
        else .hashesLeftOver t.hashes.length (t.hashes.length + more.length)) := by
  obtain ⟨fs, hf⟩ := hP.flags
  have hpos : 0 < more.length := List.length_pos_iff.mpr hmore
  have hreplay := replay_append combine (t := { t with hashes := t.hashes ++ more }) P htwins
    hP.count hf.symm (congrArg (· ++ more) hP.hashes.symm)
  have hmany : t.hashes.length ≠ t.hashes.length + more.length := by omega
  rw [hP.hashes] at hreplay
  rw [extract_of_leafCount combine hl, hreplay, List.length_append, checkHashCount, checkFlagCount,
    checkHashesUsed, if_pos hmany]
  split
  · rfl
  · split
    · rfl
    · rfl

theorem extract_take_flags {k : Nat} (hk : k < P.flags.length) :
    ({ t with flags := t.flags.take k } : PartialTree).extract combine max =
      .error (if k < t.hashes.length then .notEnoughBits k t.hashes.length
        else .flagsExhausted) := by
  obtain rfl := hP.count
  obtain ⟨fs, hf⟩ := hP.flags
  have hh := checkHashCount_of_carries hP (checkLeafCount_eq_ok.mp hl).1
  have htake : t.flags.take k = P.flags.take k := by
    rw [← hf, List.take_append_of_le_length hk.le]
  have hlen : (t.flags.take k).length = k := by
    rw [htake, List.length_take_of_le hk.le]
  split
  · next hfew =>
    rw [extract_of_leafCount combine hl, hh, hlen, checkFlagCount, if_pos hfew]
    rfl
  · next henough =>
    refine extract_of_walk_error combine hl hh ?_ ?_
    · rw [checkFlagCount_eq_ok, hlen]
      exact Nat.not_lt.mp henough
    · have hwalk := Cursor.walk_take_flags combine P htwins hk [] []
      rw [List.append_nil, hP.hashes, ← htake] at hwalk
      exact hwalk

theorem extract_replace_rest (rest : List Bool) :
    ({ t with flags := P.flags ++ rest } : PartialTree).extract combine max =
      if (P.flags.length + 7) / 8 = (P.flags.length + rest.length + 7) / 8 then
        .ok ⟨P.root combine, P.matched⟩
      else .error (.flagsLeftOver P.flags.length (P.flags.length + rest.length)) := by
  have hh := checkHashCount_of_carries hP (checkLeafCount_eq_ok.mp hl).1
  have hf : checkFlagCount (P.flags ++ rest).length t.hashes.length = .ok () := by
    rw [checkFlagCount_eq_ok, ← hP.hashes, List.length_append]
    exact P.length_hashes_le_flags.trans (Nat.le_add_right _ _)
  have hreplay := replay_append combine (t := { t with flags := P.flags ++ rest }) P htwins
    hP.count rfl (hP.hashes.symm.trans (List.append_nil _).symm)
  rw [extract_of_leafCount combine hl, hh, hf, hreplay, List.length_append, hP.hashes,
    checkHashesUsed, checkFlagsUsed, if_neg (not_not.mpr rfl)]
  by_cases hbyte : (P.flags.length + 7) / 8 = (P.flags.length + rest.length + 7) / 8
  · rw [if_neg (not_not.mpr hbyte), if_pos hbyte]
    rfl
  · rw [if_pos hbyte, if_neg hbyte]
    rfl

end

end PartialTree

/-- **An accepted proof is used up exactly.** Cut its hashes anywhere and they run out. Add some and
they are too many for the leaves, or else for the flags, or else left over. Cut the flags it uses
and there are too few for the hashes, or else they run out. What follows those flags does not
matter, as long as it ends in the same byte, and is left over otherwise. -/
theorem accepted_proof_used_up_exactly (combine : Combiner) (max : UInt32) (t : PartialTree)
    (r : MatchResult) (hr : t.extract combine max = .ok r) :
    (∀ k < t.hashes.length,
      ({ t with hashes := t.hashes.take k } : PartialTree).extract combine max =
        .error .hashesExhausted) ∧
    (∀ more : List Hash, more ≠ [] →
      ({ t with hashes := t.hashes ++ more } : PartialTree).extract combine max =
        .error (if t.leafCount.toNat < t.hashes.length + more.length then
            .tooManyHashes (t.hashes.length + more.length) t.leafCount
          else if t.flags.length < t.hashes.length + more.length then
            .notEnoughBits t.flags.length (t.hashes.length + more.length)
          else .hashesLeftOver t.hashes.length (t.hashes.length + more.length))) ∧
    (∀ k < (t.flagsUsed combine).length,
      ({ t with flags := t.flags.take k } : PartialTree).extract combine max =
        .error (if k < t.hashes.length then .notEnoughBits k t.hashes.length
          else .flagsExhausted)) ∧
    ∀ rest : List Bool,
      ({ t with flags := t.flagsUsed combine ++ rest } : PartialTree).extract combine max =
        if ((t.flagsUsed combine).length + 7) / 8 =
            ((t.flagsUsed combine).length + rest.length + 7) / 8 then .ok r
        else .error (.flagsLeftOver (t.flagsUsed combine).length
          ((t.flagsUsed combine).length + rest.length)) := by
  obtain ⟨hcount, hmax, P, hP, htwins, rfl⟩ :=
    (PartialTree.extract_ok_iff_pruned combine max t r).mp hr
  have hl : checkLeafCount t.leafCount max = .ok () := checkLeafCount_eq_ok.mpr ⟨hcount, hmax⟩
  rw [PartialTree.flagsUsed_of_carries hP]
  refine ⟨?_, ?_, ?_, ?_⟩
  · intro k hk
    exact PartialTree.extract_take_hashes combine hP htwins hl hk
  · intro more hmore
    exact PartialTree.extract_append_hashes combine hP htwins hl hmore
  · intro k hk
    exact PartialTree.extract_take_flags combine hP htwins hl hk
  · intro rest
    exact PartialTree.extract_replace_rest combine hP htwins hl rest

/-- a proof over four leaves with three hashes and five flags, cut and extended -/
theorem accepted_proof_used_up_exactly_four :
    ∃ (t : PartialTree) (r : MatchResult) (x : Hash), t.extract (fun x _ => x) 4 = .ok r ∧
      t.hashes.length = 3 ∧ (t.flagsUsed fun x _ => x).length = 5 ∧
        ({ t with hashes := t.hashes.take 2 } : PartialTree).extract (fun x _ => x) 4 =
          .error .hashesExhausted ∧
        ({ t with hashes := t.hashes ++ [x] } : PartialTree).extract (fun x _ => x) 4 =
          .error (.hashesLeftOver 3 4) ∧
        ({ t with flags := t.flags.take 4 } : PartialTree).extract (fun x _ => x) 4 =
          .error .flagsExhausted ∧
        ({ t with flags := (t.flagsUsed fun x _ => x) ++ [true, true, true] } :
          PartialTree).extract (fun x _ => x) 4 = .ok r ∧
        ({ t with flags := (t.flagsUsed fun x _ => x) ++ [true, true, true, true] } :
          PartialTree).extract (fun x _ => x) 4 = .error (.flagsLeftOver 5 9) := by
  let t : PartialTree := ⟨4, [true, true, false, true, false], [.fill 1, .fill 2, .fill 3]⟩
  have hr : t.extract (fun x _ => x) 4 = .ok ⟨.fill 1, [⟨1, .fill 2⟩]⟩ := by decide +kernel
  have hused : (t.flagsUsed fun x _ => x).length = 5 := by decide +kernel
  obtain ⟨hcut, hadd, htake, hfill⟩ := accepted_proof_used_up_exactly (fun x _ => x) 4 t _ hr
  rw [hused] at htake hfill
  exact ⟨t, _, .fill 4, hr, rfl, hused, hcut 2 (by decide), hadd [.fill 4] (List.cons_ne_nil _ _),
    htake 4 (by decide), hfill [true, true, true], hfill [true, true, true, true]⟩

end BlockProof
