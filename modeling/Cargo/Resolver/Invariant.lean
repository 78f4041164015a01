import Cargo.Resolver.Activation

/-!
# Invariants of the search

The search keeps many contexts: the current one and one for every choice it can go back
to. A property of a context together with what is left to activate holds for all of them
as soon as it is kept by every successful activation of a valid candidate. This module
proves that once, so that a property of the search needs a proof for `activate` only.

The context of the inner loop is worth nothing in one case: the last candidate failed and
the context was not restored. Then no candidate is left either, and the next thing the
search does is to throw the context away.

## Main definitions

* `Kept` — a property of contexts is kept by activation
* `MachineOk` — the property holds for every context from which the search may go on

## Main results

* `nextLoop_some`, `nextLoop_none` — what `RemainingCandidates.next` returns
* `machineOk_start`, `machineOk_step`, `machineOk_of_reaches` — the property holds in every
  state reached
-/

set_option autoImplicit false

namespace Cargo.Resolver

open Cargo.Core Cargo.Math

variable {S R : Type} [DecidableEq S]

/-! ### Candidates -/

/-- Everything left in `rc` comes from `candidates`, and what is stashed is valid. -/
structure CandidatesOk (cx : Context S R) (dep : Dependency S R) (candidates : List (Candidate S R))
    (rc : RemainingCandidates S R) : Prop where
  remaining : ∀ c ∈ rc.remaining, c ∈ candidates
  another : ∀ c, rc.hasAnother = some c → c ∈ candidates ∧ refusal cx dep c = none

/-- No candidate is left. -/
def Exhausted (rc : RemainingCandidates S R) : Prop := rc.remaining = [] ∧ rc.hasAnother = none

/-- What `next` returns is a valid candidate, and what it leaves is as before. -/
theorem nextLoop_some {cx : Context S R} {dep : Dependency S R} {candidates : List (Candidate S R)}
    {rest : List (Candidate S R)} {another : Option (Candidate S R)} {con con' : Conflicts S}
    {c : Candidate S R} {more : Bool} {rc : RemainingCandidates S R}
    (h : RemainingCandidates.nextLoop cx dep rest another con = (some (c, more), rc, con'))
    (hok : CandidatesOk cx dep candidates ⟨rest, another⟩) :
    c ∈ candidates ∧ refusal cx dep c = none ∧ CandidatesOk cx dep candidates rc ∧
      (more = false → Exhausted rc) := by
  induction rest generalizing another con with
  | nil =>
    cases another with
    | none => cases h
    | some r =>
      cases h
      obtain ⟨hmem, hvalid⟩ := hok.another c rfl
      exact ⟨hmem, hvalid, ⟨by simp, by simp⟩, fun _ => ⟨rfl, rfl⟩⟩
  | cons b rest ih =>
    rw [RemainingCandidates.nextLoop.eq_def] at h
    simp only at h
    have hrest : ∀ c ∈ rest, c ∈ candidates := fun c hc => hok.remaining c (by simp [hc])
    split at h
    · exact ih h ⟨hrest, hok.another⟩
    · rename_i hvalid
      have hb : b ∈ candidates := hok.remaining b (by simp)
      split at h
      · cases h
        obtain ⟨hmem, hvalid'⟩ := hok.another c rfl
        refine ⟨hmem, hvalid', ⟨hrest, ?_⟩, by simp⟩
        rintro c' ⟨⟩
        exact ⟨hb, hvalid⟩
      · refine ih h ⟨hrest, ?_⟩
        rintro c' ⟨⟩
        exact ⟨hb, hvalid⟩

theorem nextLoop_none {cx : Context S R} {dep : Dependency S R}
    {rest : List (Candidate S R)} {another : Option (Candidate S R)} {con con' : Conflicts S}
    {rc : RemainingCandidates S R}
    (h : RemainingCandidates.nextLoop cx dep rest another con = (none, rc, con')) :
    Exhausted rc := by
  induction rest generalizing another con with
  | nil =>
    cases another with
    | none =>
      cases h
      exact ⟨rfl, rfl⟩
    | some r => cases h
  | cons b rest ih =>
    rw [RemainingCandidates.nextLoop.eq_def] at h
    simp only at h
    split at h
    · exact ih h
    · split at h
      · cases h
      · exact ih h

/-- Once exhausted, `next` has nothing to return. -/
theorem next_of_exhausted {rc : RemainingCandidates S R} (h : Exhausted rc) (con : Conflicts S)
    (cx : Context S R) (dep : Dependency S R) : rc.next con cx dep = (none, rc, con) := by
  obtain ⟨remaining, another⟩ := rc
  obtain ⟨rfl, rfl⟩ := h
  rfl

/-! ### Contexts -/

/-- What is still to be activated, each dependency with its parent. -/
abbrev Pending (S R : Type) := List (Summary S R × DepInfo S R)

/-- The property `P` of a context and of what is left to activate does not depend on the
order of the latter, and is kept when a valid candidate is activated. -/
structure Kept (env : Env S R) (P : Context S R → Pending S R → Prop) : Prop where
  perm : ∀ cx l l', l.Perm l' → P cx l → P cx l'
  already : ∀ cx cx' parent info rest c, P cx ((parent, info) :: rest) → c ∈ info.candidates →
    refusal cx info.dep c = none →
    activate env cx (some (parent, info.dep)) c
      (.required false info.features false info.dep.defaultFeatures) = .ok (cx', .already) →
    P cx' rest
  frame : ∀ cx cx' parent info rest c frame, P cx ((parent, info) :: rest) →
    c ∈ info.candidates → refusal cx info.dep c = none →
    activate env cx (some (parent, info.dep)) c
      (.required false info.features false info.dep.defaultFeatures) = .ok (cx', .frame frame) →
    P cx' (frame.flatten ++ rest)

/-- The property holds where a candidate for `dep` is chosen. -/
def ChoiceOk (P : Context S R → Pending S R → Prop) (cx : Context S R)
    (remainingDeps : RemainingDeps S R) (parent : Summary S R) (dep : Dependency S R)
    (features : List String) (rc : RemainingCandidates S R) : Prop :=
  ∃ candidates, P cx ((parent, ⟨dep, candidates, features⟩) :: remainingDeps.pending) ∧
    CandidatesOk cx dep candidates rc

/-- The property holds for a choice to which the search may go back. -/
def FrameOk (P : Context S R → Pending S R → Prop) (frame : BacktrackFrame S R) : Prop :=
  ChoiceOk P frame.context frame.remainingDeps frame.parent frame.dep frame.features
    frame.remainingCandidates

/-- The property holds for every context from which the search may go on. -/
def MachineOk (P : Context S R → Pending S R → Prop) : Machine S R → Prop
  | .outer s => P s.cx s.remainingDeps.pending ∧ ∀ frame ∈ s.backtrackStack, FrameOk P frame
  | .inner s a =>
    (ChoiceOk P s.cx s.remainingDeps a.parent a.dep a.features a.remainingCandidates ∨
      Exhausted a.remainingCandidates) ∧ ∀ frame ∈ s.backtrackStack, FrameOk P frame
  | .done (.ok cx) => P cx []
  | .done (.error _) => True

section Step

variable {P : Context S R → Pending S R → Prop}

/-- What `findCandidate` returns is a choice of the stack with a valid candidate. -/
theorem findCandidate_some {parent : Summary S R} {backtracked : Bool} {con : Conflicts S}
    {stack stack' : List (BacktrackFrame S R)} {c : Candidate S R} {more : Bool}
    {frame : BacktrackFrame S R}
    (h : findCandidate parent backtracked con stack = some (c, more, frame, stack')) :
    ∃ skipped frame₀, stack = skipped ++ frame₀ :: stack' ∧
      frame₀.remainingCandidates.next frame₀.conflicting frame₀.context frame₀.dep =
        (some (c, more), frame.remainingCandidates, frame.conflicting) ∧
      frame = { frame₀ with
        remainingCandidates := frame.remainingCandidates, conflicting := frame.conflicting } := by
  induction stack with
  | nil => cases h
  | cons frame₁ stack ih =>
    rw [findCandidate] at h
    split at h
    · obtain ⟨skipped, frame₀, hstack, hnext, hframe⟩ := ih h
      exact ⟨frame₁ :: skipped, frame₀, by rw [hstack]; rfl, hnext, hframe⟩
    · rename_i candidate another rc conflicting hnext
      split at h
      · obtain ⟨skipped, frame₀, hstack, hnext', hframe⟩ := ih h
        exact ⟨frame₁ :: skipped, frame₀, by rw [hstack]; rfl, hnext', hframe⟩
      · cases h
        exact ⟨[], frame₁, rfl, hnext, rfl⟩

variable [DecidableEq R]

omit [DecidableEq R] in
/-- Going on after a candidate has failed. -/
theorem machineOk_fail {s : Search S R} {a : Attempt S R} {more : Bool} {cx : Context S R}
    (hchoice : ChoiceOk P s.cx s.remainingDeps a.parent a.dep a.features a.remainingCandidates)
    (hmore : more = false → Exhausted a.remainingCandidates)
    (hstack : ∀ frame ∈ s.backtrackStack, FrameOk P frame) :
    MachineOk P (fail s a more cx) := by
  refine ⟨?_, hstack⟩
  cases more with
  | true => exact Or.inl hchoice
  | false => exact Or.inr (hmore rfl)

omit [DecidableEq R] in
/-- The stack with the current choice on top. -/
theorem frameOk_pushBacktrack {s : Search S R} {a : Attempt S R} {more : Bool}
    {stack : List (BacktrackFrame S R)}
    (hchoice : ChoiceOk P s.cx s.remainingDeps a.parent a.dep a.features a.remainingCandidates)
    (hstack : ∀ frame ∈ stack, FrameOk P frame) :
    ∀ frame ∈ s.pushBacktrack a more stack, FrameOk P frame := by
  intro frame hframe
  unfold Search.pushBacktrack at hframe
  split at hframe
  · rcases List.mem_cons.mp hframe with rfl | hframe
    · exact hchoice
    · exact hstack frame hframe
  · exact hstack frame hframe

theorem machineOk_tryCandidate {env : Env S R} (hP : Kept env P) {s : Search S R}
    {a : Attempt S R} {c : Candidate S R} {more : Bool} {candidates : List (Candidate S R)}
    (hsound : P s.cx ((a.parent, ⟨a.dep, candidates, a.features⟩) :: s.remainingDeps.pending))
    (hrc : CandidatesOk s.cx a.dep candidates a.remainingCandidates) (hc : c ∈ candidates)
    (hvalid : refusal s.cx a.dep c = none)
    (hmore : more = false → Exhausted a.remainingCandidates)
    (hstack : ∀ frame ∈ s.backtrackStack, FrameOk P frame) :
    MachineOk P (tryCandidate env s a c more) := by
  have hchoice : ChoiceOk P s.cx s.remainingDeps a.parent a.dep a.features
      a.remainingCandidates := ⟨candidates, hsound, hrc⟩
  unfold tryCandidate
  split
  · exact ⟨Or.inl hchoice, hstack⟩
  · split
    · trivial
    · rename_i cx hactivate
      exact ⟨hP.already _ _ _ _ _ c hsound hc hvalid hactivate,
        frameOk_pushBacktrack hchoice hstack⟩
    · rename_i cx frame hactivate
      have hframe := hP.frame _ _ _ _ _ c frame hsound hc hvalid hactivate
      unfold pushFrame
      simp only
      split
      · refine ⟨?_, frameOk_pushBacktrack hchoice ?_⟩
        · refine hP.perm _ _ _ (perm_pending (env.heap.push_perm _ _)).symm ?_
          exact hframe
        · split
          · simp
          · exact hstack
      · exact machineOk_fail hchoice hmore hstack
    · exact machineOk_fail hchoice hmore hstack

/-- The property is kept by every step of the search. -/
theorem machineOk_step {env : Env S R} (hP : Kept env P) {m : Machine S R} (h : MachineOk P m) :
    MachineOk P (step env m) := by
  match m with
  | .done r => exact h
  | .outer s =>
    obtain ⟨hsound, hstack⟩ := h
    simp only [step, outerStep]
    split
    · rename_i hpop
      rw [popMostConstrained_eq_none hpop] at hsound
      exact hsound
    · rename_i just parent info rest hpop
      obtain ⟨hperm, -, -⟩ := popMostConstrained_eq_some hpop
      refine ⟨Or.inl ⟨info.candidates, hP.perm _ _ _ hperm hsound, ?_⟩, hstack⟩
      exact ⟨fun c hc => hc, by simp [RemainingCandidates.new]⟩
  | .inner s a =>
    obtain ⟨hchoice, hstack⟩ := h
    simp only [step, innerStep]
    split
    · rename_i c more rc con hnext
      rcases hchoice with ⟨candidates, hsound, hrc⟩ | hexhausted
      · obtain ⟨hc, hvalid, hrc', hmore⟩ := nextLoop_some hnext hrc
        exact machineOk_tryCandidate hP hsound hrc' hc hvalid hmore hstack
      · rw [next_of_exhausted hexhausted] at hnext
        cases hnext
    · rename_i rc con hnext
      unfold backtrack
      simp only
      split
      · trivial
      · rename_i c more frame stack hfind
        obtain ⟨skipped, frame₀, heq, hnext', hframe⟩ := findCandidate_some hfind
        obtain ⟨candidates, hsound, hrc⟩ := hstack frame₀ (by rw [heq]; simp)
        obtain ⟨hc, hvalid, hrc', hmore⟩ := nextLoop_some hnext' hrc
        rw [hframe]
        exact machineOk_tryCandidate hP hsound hrc' hc hvalid hmore
          (fun f hf => hstack f (by rw [heq]; simp [hf]))

omit [DecidableEq R] in
/-- The property holds when the main loop is entered if activating a root keeps it. -/
theorem machineOk_start {env : Env S R} {roots : List (Summary S R × Method)} (hP : Kept env P)
    (hnew : P Context.new [])
    (halready : ∀ root ∈ roots, ∀ cx cx' pending, P cx pending →
      activate env cx none ⟨root.1, none⟩ root.2 = .ok (cx', .already) → P cx' pending)
    (hframe : ∀ root ∈ roots, ∀ cx cx' frame pending, P cx pending →
      activate env cx none ⟨root.1, none⟩ root.2 = .ok (cx', .frame frame) →
      P cx' (frame.flatten ++ pending)) :
    MachineOk P (start env roots) := by
  unfold start
  split
  · trivial
  · rename_i cx remaining hfold
    have hroots : P cx remaining.pending := by
      refine foldlM_ok_induction
        (P := fun _ (state : Context S R × RemainingDeps S R) => P state.1 state.2.pending)
        hfold hnew ?_
      intro pre root post state state' hl hstate hstep
      have hroot : root ∈ roots := by rw [hl]; simp
      obtain ⟨⟨cx', out⟩, hactivate, hstep⟩ := bind_eq_ok.mp hstep
      cases out with
      | already =>
        cases hstep
        exact halready root hroot _ _ _ hstate hactivate
      | frame frame =>
        cases hstep
        exact hP.perm _ _ _ (perm_pending (env.heap.push_perm _ _)).symm
          (hframe root hroot _ _ frame _ hstate hactivate)
      | conflict id reason => cases hstep
    exact ⟨hroots, by simp⟩

/-- A property of every state that the search goes through. -/
theorem reaches_induction {env : Env S R} {roots : List (Summary S R × Method)}
    {Q : Machine S R → Prop} (h0 : Q (start env roots)) (hstep : ∀ m, Q m → Q (step env m))
    {m : Machine S R} (h : Reaches env roots m) : Q m := by
  obtain ⟨n, rfl⟩ := h
  induction n with
  | zero => exact h0
  | succ n ih =>
    rw [Function.iterate_succ_apply']
    exact hstep _ ih

/-- The property holds in every state reached from a start in which it holds. -/
theorem machineOk_of_reaches {env : Env S R} {roots : List (Summary S R × Method)}
    (hP : Kept env P) (hstart : MachineOk P (start env roots)) {m : Machine S R}
    (h : Reaches env roots m) : MachineOk P m :=
  reaches_induction hstart (fun _ hm => machineOk_step hP hm) h

end Step

end Cargo.Resolver
