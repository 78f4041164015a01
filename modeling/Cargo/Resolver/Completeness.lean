import Cargo.Resolver.ConflictTruth
import Cargo.Resolver.Failures

/-!
# Completeness of the search

Over a registry without features, the search fails only if there is no solution. The
argument follows one solution: it is always covered, by the current context or by a choice to
which the search can go back. Whatever the search prunes on the way, a candidate, a choice
that is skipped or the whole stack of choices, it prunes because of conflicts that are true of
all selections, and so of the solution.

## Main definitions

* `Solution` — a set of packages in which every dependency is fulfilled
* `InReach` — the search has not lost the solution

## Main results

* `activate_goesOn` — activation does not end the search with the activation error
* `findCandidate_covers` — the choice that covers the solution is not skipped
* `inReach_step`, `activation_error_complete` — the search ends with the activation error only
  if there is no solution
-/

set_option autoImplicit false

namespace Cargo.Resolver

open Cargo.Core Cargo.Math

variable {S R : Type}

/-! ### Errors of activation -/

/-- The computation does not end with the activation error. -/
def GoesOn {α : Type} (x : Except (Failure S R) α) : Prop :=
  ∀ p d con, x ≠ .error (.activation p d con)

/-- Activating a package does not end the search with the activation error. -/
theorem activate_goesOn [DecidableEq S] (env : Env S R) (cx : Context S R)
    (parent : Option (Summary S R × Dependency S R)) (c : Candidate S R) (method : Method) :
    GoesOn (activate env cx parent c method) := by
  intro p d con h
  rcases activate_failsAs env cx parent c method _ h with h | ⟨link, h⟩
  · exact h
  · cases h

/-! ### Solutions -/

/-- A set of packages that contains the roots and a package for every dependency of its
packages, in which no two packages exclude each other. -/
structure Solution (env : Env S R) (roots : List (Summary S R × Method))
    (X : Set (Summary S R)) : Prop where
  known : ∀ s ∈ X, Known env roots s
  root_mem : ∀ root ∈ roots, root.1 ∈ X
  fulfilled : ∀ s ∈ X, ∀ d ∈ s.dependencies, Wanted roots s d → ∃ q ∈ X, Answers env d q
  semver : ∀ s ∈ X, ∀ t ∈ X, s.packageId.name = t.packageId.name →
    s.packageId.sourceId = t.packageId.sourceId →
    compatible s.packageId.version t.packageId.version = true → s.packageId = t.packageId
  links : ∀ s ∈ X, ∀ t ∈ X, ∀ link, s.links = some link → t.links = some link →
    s.packageId = t.packageId

/-- The packages of `X` without any features. -/
def Selection.plain (X : Set (Summary S R)) : Selection S R where
  packages := X
  features _ := ∅

/-- Without features, a solution is a consistent selection. -/
theorem Solution.consistent {env : Env S R} {roots : List (Summary S R × Method)}
    {X : Set (Summary S R)} (hX : Solution env roots X) (h : Featureless env roots) :
    Consistent env roots (Selection.plain X) := by
  constructor
  case known => exact hX.known
  case root_mem => exact hX.root_mem
  case enabled =>
    rintro s hs d ⟨hd, hwanted, -⟩
    obtain ⟨q, hq, hanswers⟩ := hX.fulfilled s hs d hd hwanted
    refine ⟨q, hq, hanswers, ?_, ?_⟩
    · rw [(h.asked s (hX.known s hs) d hd).2]
      simp
    · intro _ hdefault
      rw [h.declared q (hX.known q hq)] at hdefault
      exact absurd hdefault Finmap.notMem_empty
  case semver =>
    intro s hs t ht hslot
    exact hX.semver s hs t ht (congrArg Prod.fst hslot) (congrArg Prod.snd hslot)
  case links => exact hX.links
  case closed =>
    intro s _ f hf
    cases hf

variable [DecidableEq S] [DecidableEq R]

/-! ### The solution stays in reach -/

/-- Everything that is active belongs to `X`. -/
def Context.Within (cx : Context S R) (X : Set (Summary S R)) : Prop :=
  ∀ slot, ∀ s ∈ cx.active slot, s ∈ X

/-- The choice can still be made as in `X`. -/
def BacktrackFrame.Covers (frame : BacktrackFrame S R) (X : Set (Summary S R)) : Prop :=
  frame.context.Within X ∧ ∃ c, frame.remainingCandidates.Has c ∧ c.summary ∈ X

/-- No frame is there for an error message only. -/
def Unflagged (frames : RemainingDeps S R) : Prop :=
  ∀ frame ∈ frames, frame.justForErrorMessages = false

/-- Nothing waits for an error message only, neither now nor in any choice. -/
structure Search.Unflagged (s : Search S R) : Prop where
  current : Resolver.Unflagged s.remainingDeps
  stack : ∀ frame ∈ s.backtrackStack, Resolver.Unflagged frame.remainingDeps

/-- The attempt is about a dependency of a known package. -/
structure Attempt.Owned (env : Env S R) (roots : List (Summary S R × Method)) (a : Attempt S R) :
    Prop where
  known : Known env roots a.parent
  mem : a.dep ∈ a.parent.dependencies
  wanted : Wanted roots a.parent a.dep

/-- The search has not lost the solution `X`. -/
def InReach (env : Env S R) (roots : List (Summary S R × Method)) (X : Set (Summary S R)) :
    Machine S R → Prop
  | .outer s => s.Unflagged ∧ (s.cx.Within X ∨ ∃ frame ∈ s.backtrackStack, frame.Covers X)
  | .inner s a => s.Unflagged ∧ a.justHere = false ∧ a.Owned env roots ∧
    ((s.cx.Within X ∧ ∃ c, a.remainingCandidates.Has c ∧ c.summary ∈ X) ∨
      ∃ frame ∈ s.backtrackStack, frame.Covers X)
  | .done (.error (.activation _ _ _)) => False
  | .done _ => True

section InReach

variable [VersionReq R] {env : Env S R} {roots : List (Summary S R × Method)}
  {X : Set (Summary S R)} {cx : Context S R} {pending : Pending S R} {dep : Dependency S R}
  {con con' : Conflicts S}

omit [DecidableEq R] in
/-- What belongs to the solution is not refused by it. -/
theorem refusal_of_within (hX : Solution env roots X) (hcx : Accounted env roots cx pending)
    (hwithin : cx.Within X) {c : Candidate S R}
    (hc : c.summary ∈ X) (hfulfils : Fulfils dep c.summary.packageId) :
    refusal cx dep c = none := by
  cases h : refusal cx dep c with
  | none => rfl
  | some r =>
    obtain ⟨id, reason⟩ := r
    obtain ⟨hne, ⟨a, ha, rfl, hcompat⟩ | ⟨link, hlink, hlookup⟩⟩ := refusal_eq_some h
    · have hslot : a.packageId.slot = c.summary.packageId.slot := by
        rw [hcx.slot _ a ha, hfulfils.slot_eq]
      exact absurd (hX.semver a (hwithin _ a ha) _ hc (congrArg Prod.fst hslot)
        (congrArg Prod.snd hslot) hcompat) hne
    · obtain ⟨a, ha, rfl, halink⟩ := hcx.links link id hlookup
      exact absurd (hX.links a (hwithin _ a ha) _ hc link halink hlink) hne

omit [DecidableEq R] in
/-- A choice that covers the solution has a candidate, and covers the solution afterwards:
the candidate belongs to it, or another one does and is left. -/
theorem next_covers (hreg : Registered env (Known env roots)) (hX : Solution env roots X)
    (hcx : Accounted env roots cx pending) (hwithin : cx.Within X)
    {candidates : List (Candidate S R)} (hquery : env.registry.query dep = .ok candidates)
    {rc rc' : RemainingCandidates S R} (hrc : CandidatesOk cx dep candidates rc)
    (hcover : ∃ c, rc.Has c ∧ c.summary ∈ X) {out : Option (Candidate S R × Bool)}
    (h : rc.next con cx dep = (out, rc', con')) :
    ∃ c more, out = some (c, more) ∧
      (c.summary ∈ X ∨ more = true ∧ ∃ c', rc'.Has c' ∧ c'.summary ∈ X) := by
  obtain ⟨c, hc, hmem⟩ := hcover
  have hcandidate : c ∈ candidates := by
    rcases hc with hc | hc
    · exact hrc.remaining c hc
    · exact (hrc.another c hc).1
  have hvalid := refusal_of_within hX hcx hwithin hmem (hreg.candidate hquery hcandidate).2.1
  rcases (nextLoop_accounts h).2 c hc with ⟨more, hout⟩ | hkept | ⟨id, reason, hrefusal, -⟩
  · exact ⟨c, more, hout, Or.inl hmem⟩
  · cases out with
    | none => exact absurd hkept ((nextLoop_none h).not_has c)
    | some r =>
      obtain ⟨c', more⟩ := r
      obtain ⟨-, -, -, hmore⟩ := nextLoop_some h hrc
      refine ⟨c', more, rfl, Or.inr ⟨?_, c, hkept, hmem⟩⟩
      cases more with
      | true => rfl
      | false => exact absurd hkept ((hmore rfl).not_has c)
  · rw [hvalid] at hrefusal
    cases hrefusal

omit [DecidableEq R] [VersionReq R] in
/-- The packages that are active when `con` is in conflict all belong to the solution. -/
theorem contains_of_within (hwithin : cx.Within X)
    (hactive : ∀ id ∈ con.keys, cx.isActive id = true) : (Selection.plain X).Contains con := by
  intro id hid
  obtain ⟨s, hs, rfl⟩ := Context.isActive_iff.mp (hactive id (Finmap.mem_keys.mpr hid))
  exact ⟨s, hwithin _ s hs, rfl⟩

omit [DecidableEq R] in
/-- A conflict that is true of all selections does not skip a choice that covers the
solution. -/
theorem not_conflicting_of_within (hreg : Registered env (Known env roots))
    (h : Featureless env roots) (hX : Solution env roots X) (hwithin : cx.Within X)
    {p : Summary S R} (hp : Known env roots p) (hdep : dep ∈ p.dependencies)
    (hwanted : Wanted roots p dep) (hrefuted : Refuted env roots dep con) :
    cx.isConflicting (some p.packageId) con = false := by
  refine Bool.eq_false_iff.mpr fun hconflict => ?_
  simp only [Context.isConflicting, Bool.and_eq_true, decide_eq_true_eq, Option.all_some]
    at hconflict
  have hσ := hX.consistent h
  have hmem : p ∈ X := by
    obtain ⟨t, ht, hid⟩ := Context.isActive_iff.mp hconflict.2
    exact hσ.mem_of_id hreg hp ⟨t, hwithin _ t ht, hid⟩
  refine hrefuted _ hσ (contains_of_within hwithin hconflict.1) p hmem ⟨hdep, hwanted, ?_⟩
  intro hopt
  rw [(h.asked p hp dep hdep).1] at hopt
  cases hopt

omit [DecidableEq R] in
/-- Going back finds the choice that covers the solution, or one above it. -/
theorem findCandidate_covers (hreg : Registered env (Known env roots))
    (h : Featureless env roots) (hX : Solution env roots X)
    {p : Summary S R} (hp : Known env roots p) (hdep : dep ∈ p.dependencies)
    (hwanted : Wanted roots p dep) {backtracked : Bool}
    (hrefuted : backtracked = false → Refuted env roots dep con)
    {stack : List (BacktrackFrame S R)}
    (hstack : ∀ frame ∈ stack, FrameOk (Accounted env roots) frame)
    (hcover : ∃ frame ∈ stack, frame.Covers X) :
    ∃ c more frame stack', findCandidate p backtracked con stack = some (c, more, frame, stack') ∧
      ((frame.context.Within X ∧ (c.summary ∈ X ∨
          more = true ∧ ∃ c', frame.remainingCandidates.Has c' ∧ c'.summary ∈ X)) ∨
        ∃ frame' ∈ stack', frame'.Covers X) := by
  induction stack with
  | nil =>
    obtain ⟨frame, hframe, -⟩ := hcover
    cases hframe
  | cons frame₁ stack ih =>
    obtain ⟨candidates, hcx, hrc⟩ := hstack frame₁ (by simp)
    obtain ⟨-, -, -, hquery⟩ :=
      hcx.pending (frame₁.parent, ⟨frame₁.dep, candidates, frame₁.features⟩) (by simp)
    have ih' := ih fun frame hframe => hstack frame (by simp [hframe])
    obtain ⟨frame, hframe, hcovers⟩ := hcover
    rw [findCandidate]
    cases hnext : frame₁.remainingCandidates.next frame₁.conflicting frame₁.context frame₁.dep with
    | mk out rest =>
      obtain ⟨rc, con'⟩ := rest
      -- Either this choice covers the solution, and so it is not skipped, or one below does.
      rcases List.mem_cons.mp hframe with rfl | hbelow
      · obtain ⟨c, more, rfl, hc⟩ :=
          next_covers hreg hX hcx hcovers.1 hquery hrc hcovers.2 hnext
        have hkeep : (!backtracked &&
            frame.context.isConflicting (some p.packageId) con) = false := by
          cases backtracked with
          | true => rfl
          | false =>
            simp [not_conflicting_of_within hreg h hX hcovers.1 hp hdep hwanted (hrefuted rfl)]
        simp only [hkeep, Bool.false_eq_true, if_false]
        exact ⟨c, more, _, stack, rfl, Or.inl ⟨hcovers.1, hc⟩⟩
      · cases out with
        | none => exact ih' ⟨frame, hbelow, hcovers⟩
        | some r =>
          obtain ⟨c, more⟩ := r
          simp only
          split
          · exact ih' ⟨frame, hbelow, hcovers⟩
          · exact ⟨c, more, _, stack, rfl, Or.inr ⟨frame, hbelow, hcovers⟩⟩

omit [DecidableEq R] [VersionReq R] in
/-- Activating a package of the solution. -/
theorem within_of_frame (hwithin : cx.Within X) {cx' : Context S R}
    {parent : Option (Summary S R × Dependency S R)} {c : Candidate S R} {method : Method}
    {frame : DepsFrame S R} (hactivate : activate env cx parent c method = .ok (cx', .frame frame))
    (hreplace : c.replace = none) (hc : c.summary ∈ X) : cx'.Within X := by
  rcases activate_ok hactivate hreplace with ⟨hout, -⟩ | ⟨mid, reqs, infos, hflag, hexp, -⟩ |
    ⟨_, _, _, _, _, hout⟩
  · cases hout
  · intro slot s hs
    rw [hexp.same.active] at hs
    rcases hflag with ⟨-, -, rfl⟩ | hadded
    · rw [link_active] at hs
      exact hwithin slot s hs
    · rw [hadded.active, link_active] at hs
      split at hs
      · rcases List.mem_append.mp hs with hs | hs
        · exact hwithin slot s hs
        · rw [List.mem_singleton.mp hs]
          exact hc
      · exact hwithin slot s hs
  · cases hout

variable {s : Search S R} {a : Attempt S R} {c : Candidate S R} {frame : DepsFrame S R}

omit [VersionReq R] in
/-- A package of the solution has no past conflict with other packages of it. -/
theorem knownConflict_of_mem (h : Featureless env roots) (hX : Solution env roots X)
    (hpast : PastTrue env roots s.past) (hcx : Accounted env roots s.cx pending)
    (hpending : ∀ e ∈ s.remainingDeps.pending, e ∈ pending) (hreplace : c.replace = none)
    (hactivate : activate env s.cx (some (a.parent, a.dep)) c a.method = .ok (cx, .frame frame))
    (hjust : a.justHere = false) (hwithin : s.cx.Within X) (hc : c.summary ∈ X) :
    (knownConflict s a cx c.summary.packageId frame).2 = false := by
  have hσ := hX.consistent h
  have hwithin' := within_of_frame hwithin hactivate hreplace hc
  -- No dependency of a package of the solution is refuted by active packages.
  have hfree : ∀ p ∈ X, ∀ d ∈ p.dependencies, Wanted roots p d → ∀ con, s.past.Mem d con →
      (∀ id ∈ con.keys, cx.isActive id = true) → False := by
    intro p hp d hd hwanted con hmem hactive
    refine hpast d con hmem _ hσ (contains_of_within hwithin' hactive) p hp ⟨hd, hwanted, ?_⟩
    intro hopt
    rw [(h.asked p (hX.known p hp) d hd).1] at hopt
    cases hopt
  unfold knownConflict
  rw [hjust]
  simp only [Bool.false_eq_true, if_false]
  split
  · rename_i con hown
    exfalso
    obtain ⟨info, hinfo, hconflict⟩ := ownConflict_eq_some hown
    obtain ⟨hmem, -, hactive⟩ := ConflictCache.findConflicting_eq_some hconflict
    rcases activate_ok hactivate hreplace with ⟨hout, -⟩ | ⟨mid, reqs, infos, -, hexp, hout⟩ |
      ⟨_, _, _, _, _, hout⟩
    · cases hout
    · cases hout
      obtain ⟨d, hd, hwanted, -, rfl, -⟩ := (hexp.mem_infos info).mp hinfo
      have htrans : info.dep.isTransitive = true := by
        simpa [Attempt.method, Method.devDeps] using hwanted
      exact hfree _ hc _ hd (Or.inl htrans) con hmem hactive
    · cases hout
  · split
    · rename_i p con hrelated
      exfalso
      obtain ⟨e, he, -, hmem, hactive⟩ := relatedConflict_eq_some hrelated
      obtain ⟨hparent, hd, hwanted, -⟩ := hcx.pending e (hpending e he)
      exact hfree _ (hwithin _ _ hparent) _ hd hwanted con hmem hactive
    · rfl

/-- What is known when the candidate `c` for the dependency of `a` is tried: the search is in
order, and `c` or another choice leads to the solution. -/
structure Tried (env : Env S R) (roots : List (Summary S R × Method)) (X : Set (Summary S R))
    (s : Search S R) (a : Attempt S R) (c : Candidate S R) (more : Bool)
    (candidates : List (Candidate S R)) : Prop where
  accounted : Accounted env roots s.cx
    ((a.parent, ⟨a.dep, candidates, a.features⟩) :: s.remainingDeps.pending)
  unasked : a.features = []
  mem : c ∈ candidates
  exhausted : more = false → Exhausted a.remainingCandidates
  stack : ∀ frame ∈ s.backtrackStack, FrameOk (Accounted env roots) frame
  past : PastTrue env roots s.past
  unflagged : s.Unflagged
  justHere : a.justHere = false
  fair : a.backtracked = false → GivenUpFairly env roots s a c
  accused : a.backtracked = false → ∀ q, Answers env a.dep q → c.summary = q ∨
    (∃ c', a.remainingCandidates.Has c' ∧ c'.summary = q) ∨ Blamed env roots a.dep a.conflicting q
  covers : (s.cx.Within X ∧ (c.summary ∈ X ∨
      more = true ∧ ∃ c', a.remainingCandidates.Has c' ∧ c'.summary ∈ X)) ∨
    ∃ frame ∈ s.backtrackStack, frame.Covers X

namespace Tried

variable {more : Bool} {candidates : List (Candidate S R)}

omit [VersionReq R] in
theorem owned (ht : Tried env roots X s a c more candidates) : a.Owned env roots := by
  obtain ⟨hactive, hdep, hwanted, -⟩ :=
    ht.accounted.pending (a.parent, ⟨a.dep, candidates, a.features⟩) (by simp)
  exact ⟨ht.accounted.known _ _ hactive, hdep, hwanted⟩

theorem replace_eq (hreg : Registered env (Known env roots))
    (ht : Tried env roots X s a c more candidates) :
    Known env roots c.summary ∧ c.replace = none := by
  obtain ⟨-, -, -, hquery⟩ :=
    ht.accounted.pending (a.parent, ⟨a.dep, candidates, a.features⟩) (by simp)
  obtain ⟨hs, -, hreplace⟩ := hreg.candidate hquery ht.mem
  exact ⟨hs, hreplace⟩

omit [VersionReq R] in
/-- The choices after the current one was pushed. -/
theorem unflagged_push (ht : Tried env roots X s a c more candidates) :
    ∀ frame ∈ s.pushBacktrack a more s.backtrackStack, Unflagged frame.remainingDeps := by
  intro frame hframe
  unfold Search.pushBacktrack at hframe
  split at hframe
  · rcases List.mem_cons.mp hframe with rfl | hframe
    · exact ht.unflagged.current
    · exact ht.unflagged.stack frame hframe
  · exact ht.unflagged.stack frame hframe

omit [VersionReq R] in
/-- If the candidate is activated, it leads to the solution or one of the choices does. -/
theorem covers_push (ht : Tried env roots X s a c more candidates) :
    (s.cx.Within X ∧ c.summary ∈ X) ∨
      ∃ frame ∈ s.pushBacktrack a more s.backtrackStack, frame.Covers X := by
  rcases ht.covers with ⟨hwithin, hc | ⟨rfl, hrest⟩⟩ | ⟨frame, hframe, hcovers⟩
  · exact Or.inl ⟨hwithin, hc⟩
  · exact Or.inr ⟨s.backtrackFrame a, by simp [Search.pushBacktrack], hwithin, hrest⟩
  · refine Or.inr ⟨frame, ?_, hcovers⟩
    unfold Search.pushBacktrack
    split
    · exact List.mem_cons_of_mem _ hframe
    · exact hframe

/-- A candidate with a past conflict does not lead to the solution, and another choice is
found. -/
theorem goesBack (hreg : Registered env (Known env roots)) (h : Featureless env roots)
    (hX : Solution env roots X) (ht : Tried env roots X s a c more candidates)
    (hactivate : activate env s.cx (some (a.parent, a.dep)) c a.method = .ok (cx, .frame frame))
    (hknown : knownConflict s a cx c.summary.packageId frame = (con, true)) :
    ((s.cx.Within X ∧ more = true ∧ ∃ c', a.remainingCandidates.Has c' ∧ c'.summary ∈ X) ∨
      ∃ frame ∈ s.backtrackStack, frame.Covers X) ∧
    (more = false →
      (findCandidate a.parent a.backtracked con s.backtrackStack).isNone = false) := by
  obtain ⟨-, hreplace⟩ := ht.replace_eq hreg
  have hcovers : (s.cx.Within X ∧ more = true ∧
      ∃ c', a.remainingCandidates.Has c' ∧ c'.summary ∈ X) ∨
      ∃ frame ∈ s.backtrackStack, frame.Covers X := by
    rcases ht.covers with ⟨hwithin, hc | hrest⟩ | hcovers
    · have hfree := knownConflict_of_mem h hX ht.past ht.accounted (fun e he => by simp [he])
        hreplace hactivate ht.justHere hwithin hc
      rw [hknown] at hfree
      cases hfree
    · exact Or.inl ⟨hwithin, hrest⟩
    · exact Or.inr hcovers
  refine ⟨hcovers, ?_⟩
  rintro rfl
  rcases hcovers with ⟨-, hmore, -⟩ | hcovers
  · cases hmore
  · have howned := ht.owned
    -- no candidate is left, and each is blamed on what is noted
    have hrefuted : a.backtracked = false → Refuted env roots a.dep con := by
      intro hback
      obtain ⟨hmono, hblamed⟩ := blamed_of_knownConflict hreg ht.past ht.accounted
        (fun e he => by simp [he]) hreplace hactivate (ht.fair hback) ht.justHere hknown
      refine refuted_of_blamed fun q hq => ?_
      rcases ht.accused hback q hq with rfl | ⟨c', hc', -⟩ | hq
      · exact hblamed
      · exact absurd hc' ((ht.exhausted rfl).not_has c')
      · exact hq.mono hmono
    obtain ⟨c', more', frame', stack', hfind, -⟩ := findCandidate_covers hreg h hX howned.known
      howned.mem howned.wanted hrefuted ht.stack hcovers
    rw [hfind]
    rfl

/-- Trying a candidate does not lose the solution. -/
theorem inReach (hreg : Registered env (Known env roots)) (h : Featureless env roots)
    (hX : Solution env roots X) (ht : Tried env roots X s a c more candidates) :
    InReach env roots X (tryCandidate env s a c more) := by
  obtain ⟨hs, hreplace⟩ := ht.replace_eq hreg
  unfold tryCandidate
  rw [ht.justHere]
  simp only [Bool.false_and, Bool.false_eq_true, if_false]
  split
  · rename_i e hactivate
    cases e with
    -- no candidate of a solution is refused, so that the search stays in reach of it
    | activation p d con => exact absurd hactivate (activate_goesOn env _ _ _ _ p d con)
    | _ => trivial
  · rename_i cx hactivate
    refine ⟨⟨ht.unflagged.current, ht.unflagged_push⟩, ht.covers_push.imp_left fun hwithin => ?_⟩
    rcases activate_ok hactivate hreplace with ⟨-, -, -, rfl⟩ | ⟨_, _, _, _, _, hout⟩ |
      ⟨_, _, _, _, _, hout⟩
    · intro slot t hmem
      rw [link_active] at hmem
      exact hwithin.1 slot t hmem
    · cases hout
    · cases hout
  · rename_i cx frame hactivate
    unfold pushFrame
    cases hknown : knownConflict s a cx c.summary.packageId frame with
    | mk con found =>
      cases found with
      | false =>
        simp only [Bool.false_and, Bool.not_false, Bool.true_or, if_true, Bool.false_eq_true,
          if_false]
        refine ⟨⟨?_, ht.unflagged_push⟩, ht.covers_push.imp_left fun hwithin => ?_⟩
        · intro frame' hframe'
          rcases List.mem_cons.mp ((env.heap.push_perm _ _).mem_iff.mp hframe') with rfl | hframe'
          · rfl
          · exact ht.unflagged.current frame' hframe'
        · exact within_of_frame hwithin.1 hactivate hreplace hwithin.2
      | true =>
        -- a known conflict is no part of the solution, which is still below some frame
        obtain ⟨hcovers, hfound⟩ := ht.goesBack hreg h hX hactivate hknown
        have hcontinue : (!more && (findCandidate a.parent a.backtracked con
            s.backtrackStack).isNone) = false := by
          cases more with
          | true => rfl
          | false => simp [hfound rfl]
        simp only [ht.justHere, Bool.false_or, Bool.true_and, hcontinue, Bool.not_true,
          Bool.false_eq_true, if_false]
        refine ⟨⟨ht.unflagged.current, ht.unflagged.stack⟩, rfl,
          ⟨ht.owned.known, ht.owned.mem, ht.owned.wanted⟩, hcovers.imp_left ?_⟩
        rintro ⟨hwithin, rfl, hrest⟩
        exact ⟨hwithin, hrest⟩
  · rename_i cx id reason hactivate
    -- features that are lacking are asked for by someone, and here no one asks for any
    exfalso
    rcases activate_ok hactivate hreplace with ⟨hout, -⟩ | ⟨_, _, _, _, _, hout⟩ |
      ⟨mid, _, _, -, hlacking, -⟩
    · cases hout
    · cases hout
    · obtain ⟨reqs, hreqs, n, hn, -⟩ := hlacking.lacking
      have hmethod : a.method.requested = [] := ht.unasked
      rw [h.requirements hs hmethod hreqs] at hn
      exact absurd hn Finmap.notMem_empty

end Tried

omit [VersionReq R] in
/-- Taking up the next dependency does not lose the solution. -/
theorem inReach_outerStep (hX : Solution env roots X)
    (hcx : Accounted env roots s.cx s.remainingDeps.pending)
    (hreach : InReach env roots X (.outer s)) : InReach env roots X (outerStep env s) := by
  obtain ⟨hunflagged, hcovers⟩ := hreach
  unfold outerStep
  split
  · trivial
  · rename_i just parent info rest hpop
    obtain ⟨hperm, ⟨flagged, hflagged, rfl⟩, hflags⟩ := popMostConstrained_eq_some hpop
    obtain ⟨hactive, hdep, hwanted, hquery⟩ :=
      hcx.pending (parent, info) (hperm.mem_iff.mpr (by simp))
    refine ⟨⟨?_, hunflagged.stack⟩, ?_, ⟨hcx.known _ _ hactive, hdep, hwanted⟩, ?_⟩
    · intro frame hframe
      obtain ⟨frame', hframe', heq⟩ := hflags frame hframe
      rw [← heq]
      exact hunflagged.current frame' hframe'
    · simp [hunflagged.current flagged hflagged]
    · refine hcovers.imp_left fun hwithin => ⟨hwithin, ?_⟩
      obtain ⟨q, hq, hanswers⟩ := hX.fulfilled parent (hwithin _ _ hactive) _ hdep hwanted
      obtain ⟨c, hc, rfl⟩ := RegistryQueryer.exists_candidate hquery hanswers
      exact ⟨c, Or.inl hc, hq⟩

section Inner

variable {more : Bool} {rc : RemainingCandidates S R}

/-- A choice with a candidate left is tried, which does not lose the solution. -/
theorem inReach_of_next (hreg : Registered env (Known env roots)) (h : Featureless env roots)
    (hX : Solution env roots X)
    (hok : MachineOk (fun cx pending => Accounted env roots cx pending ∧ OwnFeatures pending)
      (.inner s a))
    (hblameless : Blameless env roots (.inner s a)) (htruthful : Truthful env roots (.inner s a))
    (hreach : InReach env roots X (.inner s a))
    (hnext : a.remainingCandidates.next a.conflicting s.cx a.dep = (some (c, more), rc, con)) :
    InReach env roots X
      (tryCandidate env s { a with remainingCandidates := rc, conflicting := con } c more) := by
  obtain ⟨hunflagged, hjust, howned, hcovers⟩ := hreach
  obtain ⟨hpast, haccused⟩ := htruthful
  obtain ⟨hchoice, hstack⟩ := hok
  rcases hchoice with ⟨candidates, ⟨hcx, hfeatures⟩, hrc⟩ | hexhausted
  · obtain ⟨hc, -, -, hmore⟩ := nextLoop_some hnext hrc
    obtain ⟨-, -, -, hquery⟩ :=
      hcx.pending (a.parent, ⟨a.dep, candidates, a.features⟩) (by simp)
    refine Tried.inReach (a := { a with remainingCandidates := rc, conflicting := con })
      hreg h hX ⟨hcx, ?_, hc, hmore, ?_, hpast, hunflagged, hjust, ?_, ?_, ?_⟩
    · exact h.unasked hcx hfeatures (a.parent, ⟨a.dep, candidates, a.features⟩) (by simp)
    · exact fun frame hframe => (hstack frame hframe).imp fun _ hf => ⟨hf.1.1, hf.2⟩
    · intro hback
      obtain ⟨hmissing, hown, hrelated⟩ := hblameless hjust hback c more (by rw [hnext])
      exact ⟨hmissing, hown, hrelated⟩
    · intro hback q hq
      rcases accused_next hreg (Or.inl ⟨candidates, hcx, hrc⟩) (haccused hjust hback) hnext hq
        with ⟨c', more', hout, rfl⟩ | hrest
      · cases hout
        exact Or.inl rfl
      · exact Or.inr hrest
    · refine hcovers.imp_left ?_
      rintro ⟨hwithin, hhas⟩
      refine ⟨hwithin, ?_⟩
      obtain ⟨c', more', hout, hc'⟩ := next_covers hreg hX hcx hwithin hquery hrc hhas hnext
      cases hout
      exact hc'
  · rw [next_of_exhausted hexhausted] at hnext
    cases hnext

/-- A choice without candidates is given up for an earlier one, which does not lose the
solution. -/
theorem inReach_backtrack (hreg : Registered env (Known env roots)) (h : Featureless env roots)
    (hX : Solution env roots X)
    (hok : MachineOk (fun cx pending => Accounted env roots cx pending ∧ OwnFeatures pending)
      (.inner s a))
    (htruthful : Truthful env roots (.inner s a)) (hreach : InReach env roots X (.inner s a))
    (hnext : a.remainingCandidates.next a.conflicting s.cx a.dep = (none, rc, con)) :
    InReach env roots X
      (backtrack env s { a with remainingCandidates := rc, conflicting := con }) := by
  obtain ⟨hunflagged, hjust, howned, hcovers⟩ := hreach
  obtain ⟨hpast, haccused⟩ := htruthful
  obtain ⟨hchoice, hstack⟩ := hok
  have hstack' : ∀ frame ∈ s.backtrackStack, FrameOk (Accounted env roots) frame :=
    fun frame hframe => (hstack frame hframe).imp fun _ hf => ⟨hf.1.1, hf.2⟩
  have hchoice' : ChoiceOk (Accounted env roots) s.cx s.remainingDeps a.parent a.dep a.features
      a.remainingCandidates ∨ Exhausted a.remainingCandidates :=
    hchoice.imp_left fun hc => hc.imp fun _ hf => ⟨hf.1.1, hf.2⟩
  -- The current choice does not lead to the solution, since it has no candidate left.
  have hbelow : ∃ frame ∈ s.backtrackStack, frame.Covers X := by
    refine hcovers.resolve_left ?_
    rintro ⟨hwithin, c, hhas, hc⟩
    rcases hchoice' with ⟨candidates, hcx, hrc⟩ | hexhausted
    · obtain ⟨-, -, -, hquery⟩ :=
        hcx.pending (a.parent, ⟨a.dep, candidates, a.features⟩) (by simp)
      obtain ⟨_, _, hout, -⟩ := next_covers hreg hX hcx hwithin hquery hrc ⟨c, hhas, hc⟩ hnext
      cases hout
    · exact hexhausted.not_has c hhas
  have hrefuted : a.justHere = false → a.backtracked = false → Refuted env roots a.dep con :=
    fun hjust hback => refuted_of_next hreg hchoice' (haccused hjust hback) hnext
  obtain ⟨c, more, frame, stack, hfind, hcovers'⟩ := findCandidate_covers hreg h hX
    howned.known howned.mem howned.wanted (hrefuted hjust) hstack' hbelow
  obtain ⟨skipped, frame₀, heq, hnext', hframe⟩ := findCandidate_some hfind
  obtain ⟨candidates, ⟨hcx, hfeatures⟩, hrc⟩ := hstack frame₀ (by rw [heq]; simp)
  obtain ⟨hc, -, -, hmore⟩ := nextLoop_some hnext' hrc
  unfold backtrack
  simp only [hfind]
  rw [hframe] at hcovers' ⊢
  refine Tried.inReach hreg h hX ⟨hcx, ?_, hc, hmore, ?_,
    pastTrue_backtrack hpast hrefuted, ⟨?_, ?_⟩, hjust, by simp, by simp, hcovers'⟩
  · exact h.unasked hcx hfeatures
      (frame₀.parent, ⟨frame₀.dep, candidates, frame₀.features⟩) (by simp)
  · exact fun f hf => hstack' f (by rw [heq]; simp [hf])
  · exact hunflagged.stack frame₀ (by rw [heq]; simp)
  · exact fun f hf => hunflagged.stack f (by rw [heq]; simp [hf])

end Inner

/-- A step of the search does not lose the solution. -/
theorem inReach_step (hreg : Registered env (Known env roots)) (h : Featureless env roots)
    (hX : Solution env roots X) {m : Machine S R} (hm : Reaches env roots m)
    (hreach : InReach env roots X m) : InReach env roots X (step env m) := by
  have hblameless : ∀ m, Reaches env roots m → Blameless env roots m :=
    fun m hm => blameless_of_contained hreg h.contained hm
  have htruthful := truthful_of_reaches hreg hblameless hm
  have hok := ownFeatures_of_reaches hreg h.contained hm
  match m with
  | .done r => exact hreach
  | .outer s => exact inReach_outerStep hX hok.1.1 hreach
  | .inner s a =>
    simp only [step, innerStep]
    split
    · rename_i c more rc con hnext
      exact inReach_of_next hreg h hX hok (hblameless _ hm) htruthful hreach hnext
    · rename_i rc con hnext
      exact inReach_backtrack hreg h hX hok htruthful hreach hnext

omit [DecidableEq R] [VersionReq R] in
/-- The search begins with the solution in reach. -/
theorem inReach_start (hX : Solution env roots X) :
    InReach env roots X (start env roots) := by
  have hroot : ∀ state root, FailsAs (fun e => ∀ p d con, e ≠ .activation p d con)
      (activateRoot env state root) := by
    intro state root
    refine FailsAs.bind (fun e he p d con heq => ?_) ?_
    · rw [heq] at he
      exact activate_goesOn env _ _ _ _ p d con he
    · rintro ⟨cx', out⟩ _
      cases out with
      | already => exact failsAs_ok _
      | frame frame => exact failsAs_ok _
      | conflict id reason => exact failsAs_error fun p d con h => by cases h
  unfold start
  split
  · rename_i e hfold
    cases e with
    | activation p d con => exact failsAs_foldlM hroot roots _ _ hfold p d con rfl
    | _ => trivial
  · rename_i cx remaining hfold
    have hroots : cx.Within X ∧ Unflagged remaining := by
      refine foldlM_ok_induction (P := fun _ (state : Context S R × RemainingDeps S R) =>
        state.1.Within X ∧ Unflagged state.2) hfold ?_ ?_
      · simp [Context.Within, Context.active, Context.new, Unflagged]
      · rintro pre root post state state' hl ⟨hwithin, hunflagged⟩ hstep
        have hmem : root.1 ∈ X := hX.root_mem root (by rw [hl]; simp)
        obtain ⟨⟨cx', out⟩, hactivate, hstep⟩ := bind_eq_ok.mp hstep
        rcases activate_ok hactivate rfl with ⟨rfl, -, -, rfl⟩ | ⟨_, _, infos, -, -, rfl⟩ |
          ⟨_, _, _, _, _, rfl⟩
        · cases hstep
          exact ⟨hwithin, hunflagged⟩
        · cases hstep
          refine ⟨within_of_frame hwithin hactivate rfl hmem, ?_⟩
          intro frame hframe
          rcases List.mem_cons.mp ((env.heap.push_perm _ _).mem_iff.mp hframe) with rfl | hframe
          · rfl
          · exact hunflagged frame hframe
        · cases hstep
    exact ⟨⟨hroots.2, by simp⟩, Or.inl hroots.1⟩

/-- If the search ends with the activation error, there is no solution. -/
theorem activation_error_complete (hreg : Registered env (Known env roots))
    (h : Featureless env roots) {p : PackageId S} {d : Dependency S R} {con : Conflicts S}
    (hreturns : Returns env roots (.error (.activation p d con))) :
    ¬ ∃ X, Solution env roots X := by
  rintro ⟨X, hX⟩
  have hreach : ∀ n, InReach env roots X ((step env)^[n] (start env roots)) := by
    intro n
    induction n with
    | zero => exact inReach_start hX
    | succ n ih =>
      rw [Function.iterate_succ_apply']
      exact inReach_step hreg h hX ⟨n, rfl⟩ ih
  obtain ⟨n, hn⟩ := hreturns
  have hdone := hreach n
  rw [hn] at hdone
  exact hdone

end InReach

/-! ### An example -/

section Example

/-- Two packages that need different versions of `c`. -/
def deadPackages : List (Summary ℕ (List Version)) :=
  [plainPackage "a" (minor 0) [("c", [minor 0])], plainPackage "b" (minor 0) [("c", [minor 1])],
    plainPackage "c" (minor 0) [], plainPackage "c" (minor 1) []]

/-- A root that needs both. -/
def deadRoots : List (Summary ℕ (List Version) × Method) :=
  [(plainPackage "root" (minor 0) [("a", [minor 0]), ("b", [minor 0])],
    .required true [] false true)]

/-- The packages as a registry. -/
noncomputable def deadEnv : Env ℕ (List Version) where
  registry := .ofList deadPackages
  heap := .simple
  names _ _ := .following []
  ids _ := .following (deadPackages.map Summary.packageId)

/-- The search gives up, and there is no solution. -/
theorem activation_error_complete_dead :
    (∃ p d con, Returns deadEnv deadRoots (.error (.activation p d con))) ∧
      ¬ ∃ X, Solution deadEnv deadRoots X := by
  have hrun : ((step deadEnv)^[8] (start deadEnv deadRoots)).gaveUp = true := by decide +kernel
  obtain ⟨p, d, con, hdone⟩ := Machine.exists_of_gaveUp hrun
  have hU : Universe deadEnv (Known deadEnv deadRoots) :=
    universe_ofList rfl (by decide) (by decide)
  have hfeatureless : Featureless deadEnv deadRoots :=
    featureless_ofList rfl (by decide) (by decide)
  exact ⟨⟨p, d, con, 8, hdone⟩, activation_error_complete hU.toRegistered hfeatureless ⟨8, hdone⟩⟩

end Example

end Cargo.Resolver
