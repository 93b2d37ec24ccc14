import BlockProof.Tree

/-!
# Reading a proof ends as if it had stopped at its first failure

A walk that runs short goes on with a zero hash in place of the missing one and keeps its first
failure. Here is the reading that returns its first failure at once, so that it never has any hash
but those of the proof and their combinations. The two have one outcome for every proof, and the
walk that goes on has it whatever stands in for the hashes that are missing: after the first failure
nothing shows, neither stand-ins that become equal siblings nor leaves that are found.

* `Cursor`, `Cursor.walk`         the walk that stops at its first failure;
* `PartialTree.extractAtOnce`     reading with that walk, all rules on counts in the same order;
* `Walk.runWith standIn`          the walk that goes on, with `standIn h p` for a hash that is
                                  missing at node `(h, p)`;
* `EndsAs`                        what the one walk has in common with the other;
* `Walk.endsAs_runWith`           the induction over the height;
* `extract_eq_at_first_failure`   the main result.
-/

namespace BlockProof

/-! ## the reading that stops -/

/-- where a walk stands that has not failed: flags and hashes not yet used, and the leaves found so
far with the newest first -/
structure Cursor where
  flags : List Bool
  hashes : List Hash
  found : List MatchedLeaf

namespace Cursor

def takeFlag (c : Cursor) : Except ProofError (Bool × Cursor) :=
  match c.flags with
  | [] => .error .flagsExhausted
  | flag :: rest => .ok (flag, { c with flags := rest })

def takeHash (c : Cursor) : Except ProofError (Hash × Cursor) :=
  match c.hashes with
  | [] => .error .hashesExhausted
  | x :: rest => .ok (x, { c with hashes := rest })

def find (c : Cursor) (flag : Bool) (p : Nat) (x : Hash) : Cursor :=
  if flag then { c with found := ⟨UInt32.ofNat p, x⟩ :: c.found } else c

/-- the walk from node `(h, p)` of a tree over `n` leaves and the hash of that node, or the first
failure -/
def walk (combine : Combiner) (n : Nat) : Nat → Nat → Cursor → Except ProofError (Hash × Cursor)
  | 0, p, c => do
    let (flag, c) ← c.takeFlag
    let (x, c) ← c.takeHash
    return (x, c.find flag p x)
  | h + 1, p, c => do
    let (flag, c) ← c.takeFlag
    if flag then
      let (left, c) ← walk combine n h (2 * p) c
      if hasRightChild n (h + 1) p then
        let (right, c) ← walk combine n h (2 * p + 1) c
        if right = left then throw (.identicalSiblings (h + 1) p)
        else return (combine left right, c)
      else return (combine left left, c)
    else c.takeHash

/-- the same place, for a walk that would go on after a failure -/
def resume (c : Cursor) : Walk := ⟨c.flags, c.hashes, c.found, none⟩

end Cursor

namespace PartialTree

/-- the walk from the root, then what must be used up, hashes before flags -/
def replayAtOnce (combine : Combiner) (t : PartialTree) : Except ProofError MatchResult := do
  let (root, c) ← Cursor.walk combine t.leafCount.toNat (treeHeight t.leafCount.toNat) 0
    ⟨t.flags, t.hashes, []⟩
  checkHashesUsed (t.hashes.length - c.hashes.length) t.hashes.length
  checkFlagsUsed (t.flags.length - c.flags.length) t.flags.length
  return ⟨root, c.found.reverse⟩

/-- reading that returns the first failure at once -/
def extractAtOnce (combine : Combiner) (max : UInt32) (t : PartialTree) :
    Except ProofError MatchResult := do
  checkLeafCount t.leafCount max
  checkHashCount t.hashes.length t.leafCount
  checkFlagCount t.flags.length t.hashes.length
  t.replayAtOnce combine

end PartialTree

/-! ## the reading that goes on, whatever stands in for missing hashes -/

/-- the walk from node `(h, p)` that keeps its first failure and goes on, with `standIn` for each
hash that is missing -/
def Walk.runWith (standIn : Nat → Nat → Hash) (combine : Combiner) (n : Nat) :
    Nat → Nat → Walk → Hash × Walk
  | 0, p, s =>
    match s.flags, s.hashes with
    | [], _ => (standIn 0 p, s.fail .flagsExhausted)
    | _ :: fs, [] => (standIn 0 p, { s with flags := fs }.fail .hashesExhausted)
    | flag :: fs, x :: xs =>
      (x, { s with
        flags := fs
        hashes := xs
        found := if flag then ⟨UInt32.ofNat p, x⟩ :: s.found else s.found })
  | h + 1, p, s =>
    match s.flags, s.hashes with
    | [], _ => (standIn (h + 1) p, s.fail .flagsExhausted)
    | false :: fs, [] => (standIn (h + 1) p, { s with flags := fs }.fail .hashesExhausted)
    | false :: fs, x :: xs => (x, { s with flags := fs, hashes := xs })
    | true :: fs, _ =>
      let (left, s) := runWith standIn combine n h (2 * p) { s with flags := fs }
      if hasRightChild n (h + 1) p then
        let (right, s) := runWith standIn combine n h (2 * p + 1) s
        (combine left right, if right = left then s.fail (.identicalSiblings (h + 1) p) else s)
      else (combine left left, s)

namespace PartialTree

def replayWith (standIn : Nat → Nat → Hash) (combine : Combiner) (t : PartialTree) :
    Except ProofError MatchResult :=
  let (root, s) := Walk.runWith standIn combine t.leafCount.toNat (treeHeight t.leafCount.toNat) 0
    ⟨t.flags, t.hashes, [], none⟩
  match s.failure with
  | some e => .error e
  | none => do
    checkHashesUsed (t.hashes.length - s.hashes.length) t.hashes.length
    checkFlagsUsed (t.flags.length - s.flags.length) t.flags.length
    return ⟨root, s.found.reverse⟩

/-- reading that goes on after a failure, with `standIn` for each hash that is missing -/
def extractWith (standIn : Nat → Nat → Hash) (combine : Combiner) (max : UInt32)
    (t : PartialTree) : Except ProofError MatchResult := do
  checkLeafCount t.leafCount max
  checkHashCount t.hashes.length t.leafCount
  checkFlagCount t.flags.length t.hashes.length
  t.replayWith standIn combine

end PartialTree

namespace Walk

variable (standIn : Nat → Nat → Hash) (combine : Combiner) (n : Nat)

theorem runWith_zero (h p : Nat) (s : Walk) :
    runWith (fun _ _ => Hash.zero) combine n h p s = run combine n h p s := by
  induction h generalizing p s with
  | zero =>
    obtain ⟨fs, xs, found, failure⟩ := s
    cases fs <;> cases xs <;> rfl
  | succ h ih =>
    obtain ⟨fs, xs, found, failure⟩ := s
    rcases fs with - | ⟨_ | _, fs⟩
    · rfl
    · cases xs <;> rfl
    · unfold runWith run
      simp only [ih]

/-! ## one step -/

section
variable {h p : Nat} {fs : List Bool} {xs : List Hash} {found : List MatchedLeaf}
  {failure : Option ProofError}

theorem runWith_single (only : hasRightChild n (h + 1) p = false) {l : Hash × Walk}
    (hl : runWith standIn combine n h (2 * p) ⟨fs, xs, found, failure⟩ = l) :
    runWith standIn combine n (h + 1) p ⟨true :: fs, xs, found, failure⟩ =
      (combine l.1 l.1, l.2) := by
  subst hl
  rw [runWith]
  simp only [only]
  rfl

theorem runWith_pair (both : hasRightChild n (h + 1) p = true) {l r : Hash × Walk}
    (hl : runWith standIn combine n h (2 * p) ⟨fs, xs, found, failure⟩ = l)
    (hr : runWith standIn combine n h (2 * p + 1) l.2 = r) :
    runWith standIn combine n (h + 1) p ⟨true :: fs, xs, found, failure⟩ =
      (combine l.1 r.1,
        if r.1 = l.1 then r.2.fail (.identicalSiblings (h + 1) p) else r.2) := by
  subst hl hr
  rw [runWith]
  simp only [both]
  rfl

end

theorem failure_fail_of_some {s : Walk} {e : ProofError} (e' : ProofError)
    (hs : s.failure = some e) : (s.fail e').failure = some e := by
  show (s.failure <|> some e') = some e
  rw [hs]
  rfl

section
variable {h p : Nat} {fs : List Bool} {xs : List Hash} {found : List MatchedLeaf}
  {failure : Option ProofError} {e : ProofError}

theorem failure_of_right (both : hasRightChild n (h + 1) p = true) {l : Hash × Walk}
    (hl : runWith standIn combine n h (2 * p) ⟨fs, xs, found, failure⟩ = l)
    (hr : (runWith standIn combine n h (2 * p + 1) l.2).2.failure = some e) :
    (runWith standIn combine n (h + 1) p ⟨true :: fs, xs, found, failure⟩).2.failure = some e := by
  rw [runWith_pair standIn combine n both hl rfl]
  show (ite _ _ _ : Walk).failure = some e
  split
  · exact failure_fail_of_some _ hr
  · exact hr

theorem failure_of_left
    (hl : (runWith standIn combine n h (2 * p) ⟨fs, xs, found, failure⟩).2.failure = some e)
    (keep : ∀ s : Walk, s.failure = some e →
      (runWith standIn combine n h (2 * p + 1) s).2.failure = some e) :
    (runWith standIn combine n (h + 1) p ⟨true :: fs, xs, found, failure⟩).2.failure = some e := by
  cases hb : hasRightChild n (h + 1) p with
  | false =>
    rw [runWith_single standIn combine n hb rfl]
    exact hl
  | true => exact failure_of_right standIn combine n hb rfl (keep _ hl)

/-- a failure is kept by the walk from any node that goes on after it -/
theorem failure_runWith {s : Walk} (hs : s.failure = some e) :
    (runWith standIn combine n h p s).2.failure = some e := by
  induction h generalizing p s with
  | zero =>
    obtain ⟨fs, xs, found, failure⟩ := s
    rcases fs with - | ⟨flag, fs⟩
    · exact failure_fail_of_some _ hs
    · cases xs with
      | nil => exact failure_fail_of_some _ hs
      | cons x xs => exact hs
  | succ h ih =>
    obtain ⟨fs, xs, found, failure⟩ := s
    rcases fs with - | ⟨_ | _, fs⟩
    · exact failure_fail_of_some _ hs
    · cases xs with
      | nil => exact failure_fail_of_some _ hs
      | cons x xs => exact hs
    · exact failure_of_left standIn combine n (ih hs) fun _ => ih

end

end Walk

namespace Cursor

variable (combine : Combiner) (n : Nat)

section
variable {h p : Nat} {fs : List Bool} {xs : List Hash} {found : List MatchedLeaf}

theorem walk_left_error {e : ProofError}
    (hl : walk combine n h (2 * p) ⟨fs, xs, found⟩ = .error e) :
    walk combine n (h + 1) p ⟨true :: fs, xs, found⟩ = .error e := by
  show (walk combine n h (2 * p) ⟨fs, xs, found⟩ >>= _) = _
  rw [hl]
  rfl

variable {l r : Hash × Cursor} (hl : walk combine n h (2 * p) ⟨fs, xs, found⟩ = .ok l)
include hl

theorem walk_single (only : hasRightChild n (h + 1) p = false) :
    walk combine n (h + 1) p ⟨true :: fs, xs, found⟩ = .ok (combine l.1 l.1, l.2) := by
  show (walk combine n h (2 * p) ⟨fs, xs, found⟩ >>= _) = _
  rw [hl, only]
  rfl

variable (both : hasRightChild n (h + 1) p = true)
include both

theorem walk_right_error {e : ProofError}
    (hr : walk combine n h (2 * p + 1) l.2 = .error e) :
    walk combine n (h + 1) p ⟨true :: fs, xs, found⟩ = .error e := by
  show (walk combine n h (2 * p) ⟨fs, xs, found⟩ >>= _) = _
  rw [hl, both]
  show (walk combine n h (2 * p + 1) l.2 >>= _) = _
  rw [hr]
  rfl

theorem walk_pair (hr : walk combine n h (2 * p + 1) l.2 = .ok r) :
    walk combine n (h + 1) p ⟨true :: fs, xs, found⟩ =
      if r.1 = l.1 then .error (.identicalSiblings (h + 1) p) else .ok (combine l.1 r.1, r.2) := by
  show (walk combine n h (2 * p) ⟨fs, xs, found⟩ >>= _) = _
  rw [hl, both]
  show (walk combine n h (2 * p + 1) l.2 >>= _) = _
  rw [hr]
  rfl

end

end Cursor

/-! ## the two walks side by side -/

/-- a walk that goes on has ended as the one that stops: with its hash and where it stands, or with
the failure that it stops at -/
def EndsAs (r : Hash × Walk) : Except ProofError (Hash × Cursor) → Prop
  | .error e => r.2.failure = some e
  | .ok (x, c) => r = (x, c.resume)

section
variable (standIn : Nat → Nat → Hash) (combine : Combiner) (n : Nat)

theorem Walk.endsAs_runWith (h p : Nat) (c : Cursor) :
    EndsAs (runWith standIn combine n h p c.resume) (c.walk combine n h p) := by
  induction h generalizing p c with
  | zero =>
    obtain ⟨fs, xs, found⟩ := c
    rcases fs with - | ⟨_ | _, fs⟩
    · rfl
    · cases xs <;> rfl
    · cases xs <;> rfl
  | succ h ih =>
    obtain ⟨fs, xs, found⟩ := c
    rcases fs with - | ⟨_ | _, fs⟩
    · rfl
    · cases xs <;> rfl
    · show EndsAs (runWith standIn combine n (h + 1) p ⟨true :: fs, xs, found, none⟩) _
      have hleft := ih (2 * p) ⟨fs, xs, found⟩
      cases hl : Cursor.walk combine n h (2 * p) ⟨fs, xs, found⟩ with
      | error e =>
        rw [hl] at hleft
        rw [Cursor.walk_left_error combine n hl]
        exact failure_of_left standIn combine n hleft fun _ => failure_runWith standIn combine n
      | ok l =>
        rw [hl] at hleft
        cases hb : hasRightChild n (h + 1) p with
        | false =>
          rw [runWith_single standIn combine n hb hleft, Cursor.walk_single combine n hl hb]
          rfl
        | true =>
          have hright := ih (2 * p + 1) l.2
          cases hr : Cursor.walk combine n h (2 * p + 1) l.2 with
          | error e =>
            rw [hr] at hright
            rw [Cursor.walk_right_error combine n hl hb hr]
            exact failure_of_right standIn combine n hb hleft hright
          | ok r =>
            rw [hr] at hright
            rw [runWith_pair standIn combine n hb hleft hright, Cursor.walk_pair combine n hl hb hr]
            -- equal siblings are the first failure on both sides, as neither has failed below
            show EndsAs (_, if r.1 = l.1 then _ else _) _
            split
            · rfl
            · rfl

end

/-! ## whole proofs -/

namespace PartialTree

variable (standIn : Nat → Nat → Hash) (combine : Combiner) (t : PartialTree)

theorem replayWith_zero : t.replayWith (fun _ _ => Hash.zero) combine = t.replay combine := by
  unfold replayWith
  rw [Walk.runWith_zero]
  rfl

theorem replayWith_eq : t.replayWith standIn combine = t.replayAtOnce combine := by
  have hends := Walk.endsAs_runWith standIn combine t.leafCount.toNat
    (treeHeight t.leafCount.toNat) 0 ⟨t.flags, t.hashes, []⟩
  unfold Cursor.resume at hends
  unfold replayWith replayAtOnce
  revert hends
  generalize Walk.runWith standIn combine _ _ _ _ = r
  generalize Cursor.walk combine _ _ _ _ = outcome
  intro hends
  cases outcome with
  | error e =>
    have hfailure : r.2.failure = some e := hends
    simp only [hfailure]
    rfl
  | ok v =>
    obtain rfl : r = (v.1, v.2.resume) := hends
    rfl

end PartialTree

/-- **Reading a proof ends as if it had stopped at its first failure**: for every proof, combiner
and bound it yields what the reading that returns its first failure at once yields, the same result
or the same failure. So no stand-in for a missing hash has a part in a root that is accepted, in a
leaf that is found or in siblings that are reported as equal: any other in its place changes
nothing. -/
theorem extract_eq_at_first_failure (combine : Combiner) (max : UInt32) (t : PartialTree) :
    t.extract combine max = t.extractAtOnce combine max ∧
      ∀ standIn, t.extractWith standIn combine max = t.extract combine max := by
  have hall (standIn : Nat → Nat → Hash) :
      t.extractWith standIn combine max = t.extractAtOnce combine max := by
    rw [PartialTree.extractWith, PartialTree.extractAtOnce, PartialTree.replayWith_eq]
  have hzero : t.extractWith (fun _ _ => Hash.zero) combine max = t.extract combine max := by
    rw [PartialTree.extractWith, PartialTree.extract, PartialTree.replayWith_zero]
  refine ⟨hzero.symm.trans (hall _), ?_⟩
  intro standIn
  rw [← hzero, hall, hall]

end BlockProof
