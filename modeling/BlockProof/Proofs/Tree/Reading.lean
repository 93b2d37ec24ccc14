import BlockProof.Proofs.Tree.Pruned
import BlockProof.Tree

/-!
# Reading a proof back: the walk over the lists of a pruned tree

A walk that finds all it needs has the lists of a pruned tree in front of it, and on such lists it
does what the tree says: it ends at the tree's root, shows the tree's leaves and fails at the tree's
first twins.

* `Walk.run_pruned`             what the walk does on the lists of a pruned tree;
* `Walk.exists_pruned`          where it does not fail, there is a pruned tree;
* `Walk.joins`, `Walk.joins_pruned`   the pairs of child hashes that the walk combines;
* `PartialTree.Carries`         a proof carries a pruned tree, up to the padding of its flags;
* `PartialTree.replay_of_carries`, `PartialTree.exists_carries`   reading such a proof, and the
                                converse;
* `PartialTree.extract_accepts_exactly_pruned`   which proofs are accepted, and that the rules on
                                the number of hashes and of flags refuse nothing else.
-/

namespace BlockProof

/-- the failure that twins are reported as: the first of them counts -/
def twinFailure (vs : List (Nat × Nat)) : Option ProofError :=
  vs.head?.map fun v => .identicalSiblings v.1 v.2

theorem twinFailure_append (vs ws : List (Nat × Nat)) :
    twinFailure (vs ++ ws) = (twinFailure vs <|> twinFailure ws) := by
  cases vs <;> rfl

namespace Walk

variable (combine : Combiner) (n : Nat)

/-! ## one step of the walk -/

section
variable {h p : Nat} {flag : Bool} {fs : List Bool} {x : Hash} {xs : List Hash}
  {found : List MatchedLeaf} {failure : Option ProofError}

theorem run_leaf : run combine n 0 p ⟨flag :: fs, x :: xs, found, failure⟩ =
    (x, ⟨fs, xs, if flag then ⟨UInt32.ofNat p, x⟩ :: found else found, failure⟩) := rfl

theorem run_hidden : run combine n (h + 1) p ⟨false :: fs, x :: xs, found, failure⟩ =
    (x, ⟨fs, xs, found, failure⟩) := rfl

theorem run_single (only : hasRightChild n (h + 1) p = false) {l : Hash × Walk}
    (hl : run combine n h (2 * p) ⟨fs, xs, found, failure⟩ = l) :
    run combine n (h + 1) p ⟨true :: fs, xs, found, failure⟩ = (combine l.1 l.1, l.2) := by
  subst hl
  rw [run]
  simp only [only]
  rfl

theorem run_pair (both : hasRightChild n (h + 1) p = true) {l r : Hash × Walk}
    (hl : run combine n h (2 * p) ⟨fs, xs, found, failure⟩ = l)
    (hr : run combine n h (2 * p + 1) l.2 = r) :
    run combine n (h + 1) p ⟨true :: fs, xs, found, failure⟩ =
      (combine l.1 r.1,
        if r.1 = l.1 then r.2.fail (.identicalSiblings (h + 1) p) else r.2) := by
  subst hl hr
  rw [run]
  simp only [both]
  rfl

end

/-! ## the walk on a pruned tree -/

theorem run_pruned {h p : Nat} (P : Pruned n h p) (fs : List Bool) (xs : List Hash)
    (found : List MatchedLeaf) (failure : Option ProofError) :
    run combine n h p ⟨P.flags ++ fs, P.hashes ++ xs, found, failure⟩ =
      (P.root combine,
        ⟨fs, xs, P.matched.reverse ++ found, failure <|> twinFailure (P.twins combine)⟩) := by
  induction P generalizing fs xs found failure with
  | hidden x =>
    show run combine n (_ + 1) _ ⟨false :: fs, x :: xs, found, failure⟩ = _
    rw [run_hidden]
    cases failure <;> rfl
  | leaf flag x =>
    show run combine n 0 _ ⟨flag :: fs, x :: xs, found, failure⟩ = _
    rw [run_leaf]
    cases flag <;> cases failure <;> rfl
  | single only left ih =>
    show run combine n (_ + 1) _ ⟨true :: (left.flags ++ fs), left.hashes ++ xs, found, failure⟩ = _
    rw [run_single combine n only (ih fs xs found failure)]
    rfl
  | @pair h p both left right ihl ihr =>
    have hf : (Pruned.pair both left right).flags ++ fs =
        true :: (left.flags ++ (right.flags ++ fs)) := by
      rw [Pruned.flags, List.cons_append, List.append_assoc]
    have hx : (Pruned.pair both left right).hashes ++ xs =
        left.hashes ++ (right.hashes ++ xs) := by
      rw [Pruned.hashes, List.append_assoc]
    rw [hf, hx, run_pair combine n both (ihl _ _ _ _) (ihr _ _ _ _), Pruned.twins,
      twinFailure_append, twinFailure_append, Pruned.matched, List.reverse_append,
      List.append_assoc]
    by_cases htwin : right.root combine = left.root combine
    · simp only [if_pos htwin]
      cases failure <;> cases twinFailure (left.twins combine) <;>
        cases twinFailure (right.twins combine) <;> rfl
    · simp only [if_neg htwin]
      cases failure <;> cases twinFailure (left.twins combine) <;>
        cases twinFailure (right.twins combine) <;> rfl

/-! ## a walk that does not fail -/

theorem failure_fail {s : Walk} {e : ProofError} (hs : (s.fail e).failure = none) : False := by
  cases hf : s.failure <;> simp [fail, hf] at hs

/-- a walk that does not fail has not failed before, and has the lists of a pruned tree in front of
it -/
theorem exists_pruned {h p : Nat} {s : Walk} (hrun : (run combine n h p s).2.failure = none) :
    s.failure = none ∧ ∃ (P : Pruned n h p) (fs : List Bool) (xs : List Hash),
      s.flags = P.flags ++ fs ∧ s.hashes = P.hashes ++ xs := by
  induction h generalizing p s with
  | zero =>
    obtain ⟨fs, xs, found, failure⟩ := s
    cases fs with
    | nil => exact (failure_fail hrun).elim
    | cons flag fs =>
      cases xs with
      | nil => exact (failure_fail hrun).elim
      | cons x xs => exact ⟨hrun, .leaf flag x, fs, xs, rfl, rfl⟩
  | succ h ih =>
    obtain ⟨fs, xs, found, failure⟩ := s
    cases fs with
    | nil => exact (failure_fail hrun).elim
    | cons flag fs =>
      cases flag with
      | false =>
        cases xs with
        | nil => exact (failure_fail hrun).elim
        | cons x xs => exact ⟨hrun, .hidden x, fs, xs, rfl, rfl⟩
      | true =>
        cases hb : hasRightChild n (h + 1) p with
        | false =>
          rw [run_single combine n hb rfl] at hrun
          obtain ⟨hs, P, gs, ys, hf, hx⟩ := ih hrun
          exact ⟨hs, .single hb P, gs, ys, congrArg (true :: ·) hf, hx⟩
        | true =>
          rw [run_pair combine n hb rfl rfl] at hrun
          simp only at hrun
          split at hrun
          · exact (failure_fail hrun).elim
          · obtain ⟨hl, -⟩ := ih hrun
            obtain ⟨hs, P, gs, ys, hf, hx⟩ := ih hl
            simp only at hf hx
            rw [hf, hx, run_pruned] at hrun
            obtain ⟨-, Q, gs', ys', hf', hx'⟩ := ih hrun
            simp only at hf' hx'
            refine ⟨hs, .pair hb P Q, gs', ys', ?_, ?_⟩
            · simp only [Pruned.flags, hf, hf', List.cons_append, List.append_assoc]
            · simp only [Pruned.hashes, hx, hx', List.append_assoc]

/-! ## what the walk combines -/

/-- the pairs of child hashes that the walk from node `(h, p)` combines, in the order in which it
does so -/
def joins : Nat → Nat → Walk → List Join
  | 0, _, _ => []
  | h + 1, p, s =>
    match s.flags with
    | true :: rest =>
      let s := { s with flags := rest }
      let left := run combine n h (2 * p) s
      if hasRightChild n (h + 1) p then
        let right := run combine n h (2 * p + 1) left.2
        joins h (2 * p) s ++ joins h (2 * p + 1) left.2 ++ [⟨h + 1, p, left.1, right.1⟩]
      else joins h (2 * p) s ++ [⟨h + 1, p, left.1, left.1⟩]
    | _ => []

theorem joins_pruned {h p : Nat} (P : Pruned n h p) (fs : List Bool) (xs : List Hash)
    (found : List MatchedLeaf) (failure : Option ProofError) :
    joins combine n h p ⟨P.flags ++ fs, P.hashes ++ xs, found, failure⟩ = P.joins combine := by
  induction P generalizing fs xs found failure with
  | hidden x => rfl
  | leaf flag x => rfl
  | single only left ih =>
    simp only [Pruned.flags, Pruned.hashes, List.cons_append, joins, only, run_pruned, ih,
      Pruned.joins, Bool.false_eq_true, if_false]
  | pair both left right ihl ihr =>
    simp only [Pruned.flags, Pruned.hashes, List.cons_append, List.append_assoc, joins, both,
      run_pruned, ihl, ihr, Pruned.joins, if_true]

end Walk

/-! ## rules on counts -/

theorem checkLeafCount_eq_ok {count max : UInt32} :
    checkLeafCount count max = .ok () ↔ 1 ≤ count ∧ count ≤ max := by
  unfold checkLeafCount
  by_cases h0 : count = 0
  · subst h0
    simp
  · have hne : count.toNat ≠ 0 := fun h => h0 (UInt32.toNat_inj.mp h)
    have hpos : 1 ≤ count := UInt32.le_iff_toNat_le.mpr (Nat.one_le_iff_ne_zero.mpr hne)
    by_cases hmax : max < count
    · simp [h0, hmax]
    · simp [h0, hmax, hpos, UInt32.not_lt.mp hmax]

theorem checkHashCount_eq_ok {hashes : Nat} {count : UInt32} :
    checkHashCount hashes count = .ok () ↔ hashes ≤ count.toNat := by
  unfold checkHashCount
  split <;> simp <;> omega

theorem checkFlagCount_eq_ok {bits hashes : Nat} :
    checkFlagCount bits hashes = .ok () ↔ hashes ≤ bits := by
  unfold checkFlagCount
  split <;> simp <;> omega

theorem checkHashesUsed_eq_ok {used total : Nat} :
    checkHashesUsed used total = .ok () ↔ used = total := by
  unfold checkHashesUsed
  split <;> simp_all

theorem checkFlagsUsed_eq_ok {used total : Nat} :
    checkFlagsUsed used total = .ok () ↔ (used + 7) / 8 = (total + 7) / 8 := by
  unfold checkFlagsUsed
  split <;> simp_all

namespace PartialTree

variable (combine : Combiner)

def joins (t : PartialTree) : List Join :=
  Walk.joins combine t.leafCount.toNat (treeHeight t.leafCount.toNat) 0 ⟨t.flags, t.hashes, [], none⟩

/-- the hashes of a proof are those of a pruned tree, and its flags are the tree's and some padding
of the last byte -/
structure Carries (t : PartialTree) {n : Nat} (P : Pruned n (treeHeight n) 0) : Prop where
  count : t.leafCount.toNat = n
  flags : P.flags <+: t.flags
  lastByte : (P.flags.length + 7) / 8 = (t.flags.length + 7) / 8
  hashes : P.hashes = t.hashes

variable {t : PartialTree} {n : Nat} {P Q : Pruned n (treeHeight n) 0}

theorem eq_of_carries (hP : t.Carries P) (hQ : t.Carries Q) : P = Q := by
  obtain ⟨fs, hf⟩ := hP.flags
  obtain ⟨gs, hg⟩ := hQ.flags
  have hx : P.hashes ++ [] = Q.hashes ++ [] := by rw [hP.hashes, hQ.hashes]
  exact (Pruned.eq_of_append P Q (hf.trans hg.symm) hx).1

theorem Carries.lists (hP : t.Carries P) :
    ∃ fs, t.flags = P.flags ++ fs ∧ t.hashes = P.hashes ++ [] := by
  obtain ⟨fs, hf⟩ := hP.flags
  exact ⟨fs, hf.symm, by rw [hP.hashes, List.append_nil]⟩

theorem walk_of_carries (hP : t.Carries P) :
    ∃ fs, t.flags = P.flags ++ fs ∧ t.walk combine = (P.root combine,
      ⟨fs, [], P.matched.reverse, twinFailure (P.twins combine)⟩) := by
  obtain ⟨fs, hf, hx⟩ := hP.lists
  refine ⟨fs, hf, ?_⟩
  rw [walk, hP.count, hf, hx, Walk.run_pruned, List.append_nil]
  rfl

theorem joins_of_carries (hP : t.Carries P) : t.joins combine = P.joins combine := by
  obtain ⟨fs, hf, hx⟩ := hP.lists
  rw [joins, hP.count, hf, hx, Walk.joins_pruned]

/-- reading a proof that carries a pruned tree -/
theorem replay_of_carries (hP : t.Carries P) :
    t.replay combine = match (P.twins combine).head? with
      | some v => .error (.identicalSiblings v.1 v.2)
      | none => .ok ⟨P.root combine, P.matched⟩ := by
  obtain ⟨fs, hf, hwalk⟩ := walk_of_carries combine hP
  have hused : t.flags.length - fs.length = P.flags.length := by
    rw [hf, List.length_append, Nat.add_sub_cancel]
  rw [replay, hwalk, twinFailure]
  cases (P.twins combine).head? with
  | some v => rfl
  | none =>
    have hh : checkHashesUsed t.hashes.length t.hashes.length = .ok () :=
      checkHashesUsed_eq_ok.mpr rfl
    have hg := checkFlagsUsed_eq_ok.mpr hP.lastByte
    simp only [Option.map_none, hused, List.length_nil, Nat.sub_zero, hh, hg,
      List.reverse_reverse]
    rfl

/-- a proof that is read without failure carries a pruned tree -/
theorem exists_carries {r : MatchResult} (hr : t.replay combine = .ok r) :
    ∃ P : Pruned t.leafCount.toNat (treeHeight t.leafCount.toNat) 0,
      t.Carries P ∧ P.twins combine = [] ∧ r = ⟨P.root combine, P.matched⟩ := by
  have hnone : (t.walk combine).2.failure = none := by
    cases hf : (t.walk combine).2.failure with
    | none => rfl
    | some e => simp [replay, hf] at hr
  obtain ⟨-, P, fs, xs, hf, hx⟩ := Walk.exists_pruned combine _ hnone
  simp only at hf hx
  have hwalk : t.walk combine = (P.root combine,
      ⟨fs, xs, P.matched.reverse ++ [], none <|> twinFailure (P.twins combine)⟩) := by
    rw [walk, hf, hx, Walk.run_pruned]
  rw [hwalk] at hnone
  have htwins : P.twins combine = [] := by
    cases ht : P.twins combine with
    | nil => rfl
    | cons v vs => simp [ht, twinFailure] at hnone
  simp only [replay, hwalk, htwins, List.append_nil, List.reverse_reverse] at hr
  obtain ⟨_, hh, hr⟩ := bind_eq_ok_iff.mp hr
  obtain ⟨_, hg, hr⟩ := bind_eq_ok_iff.mp hr
  have hxs : xs = [] := by
    have hlen := checkHashesUsed_eq_ok.mp hh
    rw [hx, List.length_append] at hlen
    exact List.eq_nil_of_length_eq_zero (by omega)
  have hlast := checkFlagsUsed_eq_ok.mp hg
  rw [hf, List.length_append, Nat.add_sub_cancel, ← List.length_append, ← hf] at hlast
  refine ⟨P, ⟨rfl, ⟨fs, hf.symm⟩, hlast, ?_⟩, htwins, (Except.ok.inj hr).symm⟩
  rw [hx, hxs, List.append_nil]

/-! ## the rules on counts say nothing more -/

theorem extract_eq_ok_iff {max : UInt32} {r : MatchResult} : t.extract combine max = .ok r ↔
    checkLeafCount t.leafCount max = .ok () ∧ checkHashCount t.hashes.length t.leafCount = .ok () ∧
      checkFlagCount t.flags.length t.hashes.length = .ok () ∧ t.replay combine = .ok r := by
  simp only [extract, bind_eq_ok_iff]
  constructor
  · intro h
    obtain ⟨_, hl, _, hh, _, hf, hr⟩ := h
    exact ⟨hl, hh, hf, hr⟩
  · intro h
    obtain ⟨hl, hh, hf, hr⟩ := h
    exact ⟨(), hl, (), hh, (), hf, hr⟩

theorem Carries.leaves_pos (hP : t.Carries P) (hcount : 1 ≤ t.leafCount) : 0 < n :=
  hP.count ▸ UInt32.le_iff_toNat_le.mp hcount

theorem checkHashCount_of_carries (hP : t.Carries P) (hcount : 1 ≤ t.leafCount) :
    checkHashCount t.hashes.length t.leafCount = .ok () := by
  have hle := P.length_hashes_le_leaves (hP.leaves_pos hcount)
  rw [hP.hashes, ← hP.count] at hle
  exact checkHashCount_eq_ok.mpr hle

theorem checkFlagCount_of_carries (hP : t.Carries P) :
    checkFlagCount t.flags.length t.hashes.length = .ok () := by
  rw [checkFlagCount_eq_ok, ← hP.hashes]
  exact P.length_hashes_le_flags.trans hP.flags.length_le

theorem extract_of_carries {max : UInt32} (hP : t.Carries P) (hcount : 1 ≤ t.leafCount)
    (hmax : t.leafCount ≤ max) : t.extract combine max = t.replay combine := by
  rw [extract, checkLeafCount_eq_ok.mpr ⟨hcount, hmax⟩, checkHashCount_of_carries hP hcount,
    checkFlagCount_of_carries hP]
  rfl

theorem extract_ok_iff_pruned (combine : Combiner) (max : UInt32) (t : PartialTree)
    (r : MatchResult) : t.extract combine max = .ok r ↔
      1 ≤ t.leafCount ∧ t.leafCount ≤ max ∧
        ∃ P : Pruned t.leafCount.toNat (treeHeight t.leafCount.toNat) 0,
          t.Carries P ∧ P.twins combine = [] ∧ r = ⟨P.root combine, P.matched⟩ := by
  constructor
  · intro h
    obtain ⟨hl, -, -, hr⟩ := (extract_eq_ok_iff combine).mp h
    obtain ⟨hcount, hmax⟩ := checkLeafCount_eq_ok.mp hl
    exact ⟨hcount, hmax, exists_carries combine hr⟩
  · intro h
    obtain ⟨hcount, hmax, P, hP, htwins, rfl⟩ := h
    rw [extract_of_carries combine hP hcount hmax, replay_of_carries combine hP, htwins]
    rfl

/-- what the walk and the rules on leftovers accept also obeys the two rules on counts -/
theorem extract_of_replay (combine : Combiner) {max : UInt32} {t : PartialTree} {r : MatchResult}
    (hl : checkLeafCount t.leafCount max = .ok ()) (hr : t.replay combine = .ok r) :
    t.extract combine max = .ok r := by
  obtain ⟨hcount, hmax⟩ := checkLeafCount_eq_ok.mp hl
  obtain ⟨P, hP, -, -⟩ := exists_carries combine hr
  rw [extract_of_carries combine hP hcount hmax, hr]

/-- **Reading accepts exactly the proofs that carry a pruned tree without twins.** The result is
the tree's root and leaves, no proof carries two trees, and the rules on the number of hashes and of
flags refuse nothing that the rest of the reading accepts. -/
theorem extract_accepts_exactly_pruned (combine : Combiner) (max : UInt32) (t : PartialTree) :
    (∀ r, t.extract combine max = .ok r ↔
      1 ≤ t.leafCount ∧ t.leafCount ≤ max ∧
        ∃ P : Pruned t.leafCount.toNat (treeHeight t.leafCount.toNat) 0,
          t.Carries P ∧ P.twins combine = [] ∧ r = ⟨P.root combine, P.matched⟩) ∧
    (∀ P Q : Pruned t.leafCount.toNat (treeHeight t.leafCount.toNat) 0,
      t.Carries P → t.Carries Q → P = Q) ∧
    (∀ r, checkLeafCount t.leafCount max = .ok () → t.replay combine = .ok r →
      t.extract combine max = .ok r) := by
  refine ⟨?_, ?_, ?_⟩
  · intro r
    exact extract_ok_iff_pruned combine max t r
  · intro P Q hP hQ
    exact eq_of_carries hP hQ
  · intro r hl hr
    exact extract_of_replay combine hl hr

end PartialTree

end BlockProof
