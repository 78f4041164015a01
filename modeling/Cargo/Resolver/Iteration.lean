import Cargo.Resolver.Candidates

/-!
# The candidates that the search returns to

While there is another candidate for a dependency, its iterator waits on the stack with a copy of
the context in which the dependency was picked. It is called again when the search comes back to
it, which may be much later.

The log of a search has the session of each dependency that was picked. In every run, each session
sees one context. So it returns the candidates that are valid in it, unless a candidate is doubled;
and that needs a replacement, which is activated next to a version that it is compatible with.

## Main definitions

* `Log`, `logStep`, `trace` — the sessions of a run
* `Logged` — the sessions of the inner loop and of the choices on the stack are where they are

## Main results

* `logged_step`, `logged_trace` — each session sees one context
* `sessions_return_valid` — what sessions return
* `undoubled_of_universe` — without replacements no candidate is doubled
-/

set_option autoImplicit false

namespace Cargo.Resolver

open Cargo.Core Cargo.Math

variable {S R : Type} [DecidableEq S]

/-! ### The log of a search -/

/-- The session of the inner loop, those of the choices on the stack, and those that are over. -/
structure Log (S R : Type) where
  live : Option (Session S R)
  stack : List (Session S R)
  ended : List (Session S R)

namespace Log

def empty : Log S R := ⟨none, [], []⟩

def sessions (g : Log S R) : List (Session S R) := g.live.toList ++ g.stack ++ g.ended

/-- The session of the inner loop has ended in the state `m`. It waits on the stack if there is
another candidate. Choices may have been dropped. -/
def settle (g : Log S R) (m : Machine S R) (more : Bool) : Log S R :=
  match m with
  | .outer s =>
    let waiting := (if more then g.live.toList else []) ++ g.stack
    { live := none
      stack := waiting.take s.backtrackStack.length
      ended := waiting.drop s.backtrackStack.length ++
        ((if more then [] else g.live.toList) ++ g.ended) }
  | _ => g

end Log

/-- The calls of `findCandidate`. -/
def findLog (parent : Summary S R) (backtracked : Bool) (con : Conflicts S) :
    List (BacktrackFrame S R) → List (Session S R) → List (Session S R) → Log S R
  | frame :: stack, session :: sessions, ended =>
    let session := session.add
      ⟨frame.context, frame.dep, frame.remainingCandidates, frame.conflicting⟩
    match frame.remainingCandidates.next frame.conflicting frame.context frame.dep with
    | (none, _, _) => findLog parent backtracked con stack sessions (session :: ended)
    | (some _, _, _) =>
      if !backtracked && frame.context.isConflicting (some parent.packageId) con then
        findLog parent backtracked con stack sessions (session :: ended)
      else ⟨some session, sessions, ended⟩
  | _, sessions, ended => ⟨none, [], sessions ++ ended⟩

variable [DecidableEq R]

/-- What a step adds to the log. Calls on a copy of the stack, which is thrown away, are left
out. -/
def logStep (env : Env S R) (m : Machine S R) (g : Log S R) : Log S R :=
  match m with
  | .outer s =>
    match popMostConstrained env.heap s.remainingDeps with
    | none => g
    | some (_, _, info, _) => { g with live := some ⟨s.cx, info.dep, info.candidates, []⟩ }
  | .inner s a =>
    let live := g.live.map fun session =>
      session.add ⟨s.cx, a.dep, a.remainingCandidates, a.conflicting⟩
    match a.remainingCandidates.next a.conflicting s.cx a.dep with
    | (some (_, more), _, _) => { g with live }.settle (step env m) more
    | (none, _, con) =>
      let found := findLog a.parent a.backtracked con s.backtrackStack g.stack
        (live.toList ++ g.ended)
      match findCandidate a.parent a.backtracked con s.backtrackStack with
      | none => found
      | some (_, more, _, _) => found.settle (step env m) more
  | .done _ => g

/-- The states of a search, with the log. -/
def trace (env : Env S R) (roots : List (Summary S R × Method)) (n : ℕ) :
    Machine S R × Log S R :=
  (fun (m, g) => (step env m, logStep env m g))^[n] (start env roots, .empty)

/-! ### The log of a run -/

section Logs

variable {P : Context S R → Prop} {env : Env S R} {s : Search S R} {a : Attempt S R}
  {session : Session S R} {g : Log S R}

/-- The session goes on when the search comes back to the choice. -/
structure Waits (P : Context S R → Prop) (frame : BacktrackFrame S R) (session : Session S R) :
    Prop where
  context : session.context = frame.context
  dep : session.dep = frame.dep
  reached : session.At P frame.remainingCandidates

/-- The session of the inner loop: it sees the context of the search as long as there is a
candidate. -/
structure Runs (P : Context S R → Prop) (s : Search S R) (a : Attempt S R)
    (session : Session S R) : Prop where
  context : session.context = s.cx ∨ Exhausted a.remainingCandidates
  dep : session.dep = a.dep
  reached : session.At P a.remainingCandidates

/-- The log has a session for the inner loop and for each choice on the stack, and every session
sees one context. -/
def Logged (P : Context S R → Prop) : Machine S R → Log S R → Prop
  | .outer s, g => g.live = none ∧ List.Forall₂ (Waits P) s.backtrackStack g.stack ∧
      ∀ session ∈ g.ended, session.Sees P
  | .inner s a, g => (∃ session, g.live = some session ∧ Runs P s a session) ∧
      List.Forall₂ (Waits P) s.backtrackStack g.stack ∧ ∀ session ∈ g.ended, session.Sees P
  | .done _, g => ∀ session ∈ g.sessions, session.Sees P

omit [DecidableEq R] in
theorem sees_of_waits {stack : List (BacktrackFrame S R)} {sessions : List (Session S R)}
    (h : List.Forall₂ (Waits P) stack sessions) : ∀ session ∈ sessions, session.Sees P := by
  induction h with
  | nil => exact fun session hsession => by cases hsession
  | cons hwaits _ ih =>
    intro session hsession
    rcases List.mem_cons.mp hsession with rfl | hsession
    · exact hwaits.reached.sees
    · exact ih session hsession

omit [DecidableEq R] in
theorem Logged.sees {m : Machine S R} (h : Logged P m g) : ∀ session ∈ g.sessions,
    session.Sees P := by
  cases m with
  | done result => exact h
  | outer s =>
    obtain ⟨hlive, hstack, hended⟩ := h
    intro session hsession
    rw [Log.sessions, hlive] at hsession
    rcases List.mem_append.mp hsession with hsession | hsession
    · exact sees_of_waits hstack session hsession
    · exact hended session hsession
  | inner s a =>
    obtain ⟨⟨live, hlive, hruns⟩, hstack, hended⟩ := h
    intro session hsession
    rw [Log.sessions, hlive, List.append_assoc] at hsession
    rcases List.mem_append.mp hsession with hsession | hsession
    · rw [Option.toList_some, List.mem_singleton] at hsession
      rw [hsession]
      exact hruns.reached.sees
    · rcases List.mem_append.mp hsession with hsession | hsession
      · exact sees_of_waits hstack session hsession
      · exact hended session hsession

omit [DecidableEq R] in
/-- A call for a choice of the stack. -/
theorem Waits.add {frame : BacktrackFrame S R} (h : Waits P frame session) :
    (session.add ⟨frame.context, frame.dep, frame.remainingCandidates, frame.conflicting⟩).At P
      (frame.remainingCandidates.next frame.conflicting frame.context frame.dep).2.1 := by
  have hadd := h.reached.add frame.conflicting
  rw [h.context, h.dep] at hadd
  exact hadd

omit [DecidableEq R] in
/-- The sessions of the choices that `findCandidate` drops are over, and that of the choice it
returns goes on. -/
theorem findLog_spec (parent : Summary S R) (backtracked : Bool) (con : Conflicts S)
    {stack : List (BacktrackFrame S R)} {sessions ended : List (Session S R)}
    (hstack : List.Forall₂ (Waits P) stack sessions) (hended : ∀ e ∈ ended, e.Sees P) :
    match findCandidate parent backtracked con stack with
    | none => ∀ session ∈ (findLog parent backtracked con stack sessions ended).sessions,
        session.Sees P
    | some (_, more, frame, stack') => ∃ session sessions' ended',
        findLog parent backtracked con stack sessions ended = ⟨some session, sessions', ended'⟩ ∧
        Waits P frame session ∧ (more = false → Exhausted frame.remainingCandidates) ∧
        List.Forall₂ (Waits P) stack' sessions' ∧ ∀ e ∈ ended', e.Sees P := by
  induction hstack generalizing ended with
  | nil => exact hended
  | @cons frame session stack sessions hwaits hstack ih =>
    have hadd := hwaits.add
    have hdropped : ∀ e ∈ session.add ⟨frame.context, frame.dep, frame.remainingCandidates,
        frame.conflicting⟩ :: ended, e.Sees P := by
      intro e he
      rcases List.mem_cons.mp he with rfl | he
      · exact hadd.sees
      · exact hended e he
    rw [findCandidate, findLog]
    obtain ⟨⟨returned, rc, conflicting⟩, hnext⟩ : ∃ result,
        frame.remainingCandidates.next frame.conflicting frame.context frame.dep = result :=
      ⟨_, rfl⟩
    rw [hnext] at hadd ⊢
    cases returned with
    | none => exact ih hdropped
    | some returned =>
      obtain ⟨c, more⟩ := returned
      dsimp only
      by_cases hskip : (!backtracked &&
          frame.context.isConflicting (some parent.packageId) con) = true
      · rw [if_pos hskip, if_pos hskip]
        -- the frame still conflicts, and its session ends here
        exact ih hdropped
      · rw [if_neg hskip, if_neg hskip]
        refine ⟨_, sessions, ended, rfl, ⟨hwaits.context, hwaits.dep, hadd⟩, ?_, hstack, hended⟩
        rintro rfl
        -- no other candidate follows this one
        exact nextLoop_last hnext

/-- What comes of trying a candidate: the search is over, or another candidate is to be tried, in
the same context if there is one, or the choice goes onto the stack, from which others may be
dropped. -/
theorem tryCandidate_cases (env : Env S R) (s : Search S R) (a : Attempt S R) (c : Candidate S R)
    (more : Bool) :
    (∃ result, tryCandidate env s a c more = .done result) ∨
    (∃ s' a', tryCandidate env s a c more = .inner s' a' ∧
      s'.backtrackStack = s.backtrackStack ∧ a'.dep = a.dep ∧
      a'.remainingCandidates = a.remainingCandidates ∧ (more = true → s'.cx = s.cx)) ∨
    ∃ s' stack, tryCandidate env s a c more = .outer s' ∧
      s'.backtrackStack = s.pushBacktrack a more stack ∧
      (stack = s.backtrackStack ∨ stack = []) := by
  have hfail : ∀ conflicting cx, ∃ s' a',
      fail s { a with conflicting } more cx = .inner s' a' ∧
        s'.backtrackStack = s.backtrackStack ∧ a'.dep = a.dep ∧
        a'.remainingCandidates = a.remainingCandidates ∧ (more = true → s'.cx = s.cx) :=
    fun conflicting cx => ⟨_, _, rfl, rfl, rfl, rfl, fun hmore => if_pos hmore⟩
  unfold tryCandidate
  split
  · exact .inr (.inl ⟨s, a, rfl, rfl, rfl, rfl, fun _ => rfl⟩)
  · split
    · exact .inl ⟨_, rfl⟩
    · exact .inr (.inr ⟨_, s.backtrackStack, rfl, rfl, .inl rfl⟩)
    · unfold pushFrame
      dsimp only
      split
      · refine .inr (.inr ⟨_, _, rfl, rfl, ?_⟩)
        split
        · exact .inr rfl
        · exact .inl rfl
      · exact .inr (.inl (hfail _ _))
    · exact .inr (.inl (hfail _ _))

/-- Trying the candidate that a session has returned. -/
theorem logged_tryCandidate {sessions ended : List (Session S R)} {c : Candidate S R} {more : Bool}
    (hcontext : session.context = s.cx) (hdep : session.dep = a.dep)
    (hreached : session.At P a.remainingCandidates)
    (hmore : more = false → Exhausted a.remainingCandidates)
    (hstack : List.Forall₂ (Waits P) s.backtrackStack sessions)
    (hended : ∀ e ∈ ended, e.Sees P) :
    Logged P (tryCandidate env s a c more)
      ((⟨some session, sessions, ended⟩ : Log S R).settle (tryCandidate env s a c more) more) := by
  rcases tryCandidate_cases env s a c more with ⟨result, htry⟩ |
    ⟨s', a', htry, hstack', hdep', hrc, hcx⟩ | ⟨s', stack, htry, hpush, hkept⟩
  · rw [htry]
    intro e he
    rcases List.mem_append.mp he with he | he
    · rcases List.mem_append.mp he with he | he
      · rw [List.mem_singleton.mp he]
        exact hreached.sees
      · exact sees_of_waits hstack e he
    · exact hended e he
  · rw [htry]
    refine ⟨⟨session, rfl, ?_, by rw [hdep, hdep'], by rw [hrc]; exact hreached⟩, ?_, hended⟩
    · cases more with
      | true => exact .inl (by rw [hcontext, hcx rfl])
      | false => exact .inr (by rw [hrc]; exact hmore rfl)
    · rw [hstack']
      exact hstack
  · rw [htry]
    -- the sessions that wait, before any choice is dropped
    have hwaits : Waits P (s.backtrackFrame a) session := ⟨hcontext, hdep, hreached⟩
    have hover : ∀ e ∈ (if more then [] else [session]) ++ ended, e.Sees P := by
      intro e he
      rcases List.mem_append.mp he with he | he
      · cases more with
        | true => cases he
        | false =>
          rw [List.mem_singleton.mp he]
          exact hreached.sees
      · exact hended e he
    have hpushed : List.Forall₂ (Waits P) (s.pushBacktrack a more s.backtrackStack)
        ((if more then [session] else []) ++ sessions) := by
      cases more with
      | true => exact .cons hwaits hstack
      | false => exact hstack
    have hall := sees_of_waits hpushed
    -- dropping choices leaves the newest one
    have hprefix : s'.backtrackStack <+: s.pushBacktrack a more s.backtrackStack := by
      rw [hpush]
      rcases hkept with rfl | rfl
      · exact List.prefix_rfl
      · cases more with
        | true => exact ⟨s.backtrackStack, rfl⟩
        | false => exact List.nil_prefix
    refine ⟨rfl, ?_, fun e he => ?_⟩
    · have htake := List.forall₂_take s'.backtrackStack.length hpushed
      rw [← List.prefix_iff_eq_take.mp hprefix] at htake
      exact htake
    · rcases List.mem_append.mp he with he | he
      · exact hall e (List.mem_of_mem_drop he)
      · exact hover e he

/-- A step keeps the log in order. -/
theorem logged_step {m : Machine S R} (hm : MachineOk (fun cx _ => P cx) m) (h : Logged P m g) :
    Logged P (step env m) (logStep env m g) := by
  cases m with
  | done result => exact h
  | outer s =>
    obtain ⟨hlive, hstack, hended⟩ := h
    cases hpop : popMostConstrained env.heap s.remainingDeps with
    | none =>
      have hstep : step env (.outer s) = .done (.ok s.cx) := by
        simp only [step, outerStep, hpop]
      have hlog : logStep env (.outer s) g = g := by simp only [logStep, hpop]
      rw [hstep, hlog]
      exact Logged.sees (m := .outer s) ⟨hlive, hstack, hended⟩
    | some popped =>
      obtain ⟨just, parent, info, remainingDeps⟩ := popped
      simp only [step, outerStep, logStep, hpop]
      refine ⟨⟨_, rfl, .inl rfl, rfl, hm.1, rfl⟩, hstack, hended⟩
  | inner s a =>
    obtain ⟨⟨session, hlive, hruns⟩, hstack, hended⟩ := h
    obtain ⟨⟨returned, rc, conflicting⟩, hnext⟩ : ∃ result,
        a.remainingCandidates.next a.conflicting s.cx a.dep = result := ⟨_, rfl⟩
    have hadd : ∀ hcontext : session.context = s.cx,
        (session.add ⟨s.cx, a.dep, a.remainingCandidates, a.conflicting⟩).At P rc := by
      intro hcontext
      have hadd := hruns.reached.add a.conflicting
      rw [hcontext, hruns.dep, hnext] at hadd
      exact hadd
    cases returned with
    | some returned =>
      obtain ⟨c, more⟩ := returned
      -- a call that returns a candidate was made in the context of the session
      have hcontext : session.context = s.cx := by
        refine hruns.context.resolve_right fun hexhausted => ?_
        rw [next_of_exhausted hexhausted] at hnext
        cases hnext
      simp only [step, innerStep, logStep, hnext, hlive, Option.map_some]
      refine logged_tryCandidate hcontext hruns.dep (hadd hcontext) ?_ hstack hended
      rintro rfl
      exact nextLoop_last hnext
    | none =>
      -- the session is over
      have hover : ∀ e ∈ session.add ⟨s.cx, a.dep, a.remainingCandidates, a.conflicting⟩ ::
          g.ended, e.Sees P := by
        intro e he
        rcases List.mem_cons.mp he with rfl | he
        · rcases hruns.context with hcontext | hexhausted
          · exact (hadd hcontext).sees
          · exact hruns.reached.add_idle hexhausted _ _ _
        · exact hended e he
      have hfound := findLog_spec a.parent a.backtracked conflicting hstack hover
      simp only [step, innerStep, logStep, hnext, hlive, Option.map_some, Option.toList_some,
        List.singleton_append, backtrack]
      cases hfind : findCandidate a.parent a.backtracked conflicting s.backtrackStack with
      | none =>
        rw [hfind] at hfound
        exact hfound
      | some found =>
        obtain ⟨c, more, frame, stack⟩ := found
        rw [hfind] at hfound
        obtain ⟨session', sessions', ended', hlog, hwaits, hmore, hstack', hended'⟩ := hfound
        dsimp only
        rw [hlog]
        exact logged_tryCandidate hwaits.context hwaits.dep hwaits.reached hmore hstack' hended'

/-- The states of the trace are those of the search. -/
theorem trace_fst (env : Env S R) (roots : List (Summary S R × Method)) (n : ℕ) :
    (trace env roots n).1 = (step env)^[n] (start env roots) := by
  induction n with
  | zero => rfl
  | succ n ih =>
    rw [trace, Function.iterate_succ_apply', Function.iterate_succ_apply', ← ih]
    rfl

/-- In every run, each session sees one context, and what holds of all contexts holds of it. -/
theorem logged_trace {roots : List (Summary S R × Method)}
    (hP : ∀ m, Reaches env roots m → MachineOk (fun cx _ => P cx) m) (n : ℕ) :
    Logged P (trace env roots n).1 (trace env roots n).2 := by
  induction n with
  | zero =>
    change Logged P (start env roots) .empty
    unfold start
    split
    · exact fun session hsession => by cases hsession
    · exact ⟨rfl, .nil, fun session hsession => by cases hsession⟩
  | succ n ih =>
    have hreaches : Reaches env roots (trace env roots n).1 := ⟨n, (trace_fst env roots n).symm⟩
    rw [trace, Function.iterate_succ_apply']
    exact logged_step (hP _ hreaches) ih

/-- What the calls of `next` for a dependency return, in every run: the candidates that are valid in
the context in which it was picked, unless one of them is doubled in it. And a candidate that is
activated is valid unless it is doubled. -/
theorem sessions_return_valid (env : Env S R) (roots : List (Summary S R × Method)) (n : ℕ) :
    (trace env roots n).1 = (step env)^[n] (start env roots) ∧
      (∀ session ∈ (trace env roots n).2.sessions,
        (session.Undoubled → session.ReturnsValid) ∧
          (session.Ended → session.ReturnsValid → session.Undoubled)) ∧
      ∀ call, (trace env roots n).1.call = some call →
        (MayActivate call.cx call.dep call.candidate ↔
          ¬Doubled call.cx call.dep call.candidate) := by
  have hnew : Traceable (Context.new : Context S R) := by
    refine ⟨fun link id hlookup => ?_, fun slot s hs => ?_⟩
    · simp [Context.new] at hlookup
    · simp [Context.active, Context.new] at hs
  refine ⟨trace_fst env roots n, fun session hsession => ?_, fun call hcall => ?_⟩
  · have hlogged : Logged Traceable (trace env roots n).1 (trace env roots n).2 :=
      logged_trace (fun m hm => traceable_stable.of_reaches hnew hm) n
    exact (hlogged.sees session hsession).returnsValid
  · have hreaches : Reaches env roots (trace env roots n).1 := ⟨n, (trace_fst env roots n).symm⟩
    exact mayActivate_iff ((linksActive_of_reaches hreaches).call hcall).2

omit [DecidableEq R] in
/-- What holds of a context and what is pending, holds of the context with something pending. -/
theorem MachineOk.context {Q : Context S R → Pending S R → Prop} {m : Machine S R}
    (h : MachineOk Q m) : MachineOk (fun cx _ => ∃ pending, Q cx pending) m := by
  have hchoice : ∀ {cx remainingDeps parent dep features rc},
      ChoiceOk Q cx remainingDeps parent dep features rc →
        ChoiceOk (fun cx _ => ∃ pending, Q cx pending) cx remainingDeps parent dep features rc :=
    fun ⟨candidates, hQ, hrc⟩ => ⟨candidates, ⟨_, hQ⟩, hrc⟩
  cases m with
  | outer s => exact ⟨⟨_, h.1⟩, fun frame hframe => hchoice (h.2 frame hframe)⟩
  | inner s a => exact ⟨h.1.imp_left hchoice, fun frame hframe => hchoice (h.2 frame hframe)⟩
  | done result =>
    cases result with
    | ok cx => exact ⟨_, h⟩
    | error e => trivial

/-- Without replacements, and with roots of different packages, no candidate is ever doubled. -/
theorem undoubled_of_universe [VersionReq R] {roots : List (Summary S R × Method)}
    (hU : Universe env (Known env roots)) (hslots : (roots.map (·.1.packageId.slot)).Nodup)
    (n : ℕ) :
    ∀ session ∈ (trace env roots n).2.sessions, session.Undoubled := by
  have hroots : ∀ root ∈ roots, Known env roots root.1 := fun root hroot => .inl ⟨root, hroot, rfl⟩
  have hlogged : Logged (fun cx => ∃ pending, Sound env (Known env roots) roots cx pending)
      (trace env roots n).1 (trace env roots n).2 :=
    logged_trace (fun m hm =>
      (machineOk_of_reaches (Sound.kept hU) (sound_start hU hroots hslots) hm).context) n
  intro session hsession c _ hdoubled
  obtain ⟨⟨pending, hsound⟩, -⟩ := hlogged.sees session hsession
  obtain ⟨-, ⟨a, hfind, hid⟩, a', ha', hrivals, hne⟩ := hdoubled
  -- both versions are active, and compatible
  apply hne
  rw [← hid]
  refine hsound.semver _ a' ha' a (List.mem_of_find?_eq_some hfind) ?_
  rw [hid]
  exact hrivals

end Logs

/-! ### A replacement that brings a second version -/

section Second

/-- The package `foo` of a source, which has no dependencies. -/
def fooPackage (patch source : ℕ) : Summary ℕ (List Version) where
  packageId := ⟨"foo", ⟨1, 0, patch, []⟩, source⟩
  dependencies := []
  features := ∅
  checksum := none
  links := none
  namespacedFeatures := false
  names_disjoint := fun _ _ _ => Finmap.notMem_empty
  optional_transitive := optional_transitive_linked

/-- A root that depends on version 1.0.1, on version 1.0.0 of another source, and on either. -/
def fooRoot : Summary ℕ (List Version) where
  packageId := ⟨"root", ⟨1, 0, 0, []⟩, 0⟩
  dependencies := [Dependency.parse "foo" [⟨1, 0, 1, []⟩] 0,
    Dependency.parse "foo" [⟨1, 0, 0, []⟩] 1,
    Dependency.parse "foo" [⟨1, 0, 0, []⟩, ⟨1, 0, 1, []⟩] 0]
  features := ∅
  checksum := none
  links := none
  namespacedFeatures := false
  names_disjoint := fun _ _ _ => Finmap.notMem_empty
  optional_transitive := by decide

/-- Version 1.0.0 of the other source is replaced by that of the first one. -/
def fooQueryer : RegistryQueryer ℕ (List Version) :=
  { RegistryQueryer.ofList [fooPackage 0 0, fooPackage 1 0, fooPackage 0 1] with
    replacements := [{
      spec := fun id => decide (id = (fooPackage 0 1).packageId)
      dep := Dependency.parse "foo" [⟨1, 0, 0, []⟩] 0 }] }

noncomputable def fooEnv : Env ℕ (List Version) where
  registry := fooQueryer
  heap := .simple
  names _ _ := .following []
  ids _ := .following []

def fooRoots : List (Summary ℕ (List Version) × Method) :=
  [(fooRoot, .required true [] false true)]

/-- The session for the last dependency returns version 1.0.1, though both versions are active. -/
theorem foo_returned : ∃ session ∈ (trace fooEnv fooRoots 6).2.sessions,
    ¬session.ReturnsValid := by
  have hmore : ((trace fooEnv fooRoots 6).2.sessions.any fun session =>
      decide ((session.candidates.filter fun c =>
        MayActivate session.context session.dep c).length < session.returned.length)) = true := by
    decide +kernel
  obtain ⟨session, hsession, hlt⟩ := List.any_eq_true.mp hmore
  refine ⟨session, hsession, fun hreturns => ?_⟩
  -- no more is returned than is valid
  have hle := hreturns.returned.length_le
  rw [length_outcomes] at hle
  exact absurd (of_decide_eq_true hlt) (by omega)

end Second

end Cargo.Resolver
