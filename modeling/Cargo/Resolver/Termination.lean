import Cargo.Math.Descent
import Cargo.Resolver.Bounds
import Mathlib.Data.Prod.Lex

/-!
# When the search ends

A package is activated again when a feature asked of it is not recorded, and its
dependencies are then to be activated again. As long as every such activation records
something new, the search ends: the weight of a choice is what its context lacks, then how
many dependencies are left, then how many candidates are left, and every step exchanges
choices for lighter ones.

An activation that records nothing new is possible. The empty name can be declared as a
feature and asked for, and is never recorded; on a cycle of dependencies that ask for it
the search does not end.

## Main definitions

* `Machine.weights` — the weights of the choices of a state
* `Machine.tried` — the candidate that a step tries
* `InScope` — all candidates and features that wait are within a finite scope

## Main results

* `weights_step` — every step that renews its candidate descends
* `terminates_of_renews` — a run all of whose steps do that ends
* `renews_of_recorded`, `terminates_of_plain` — with plain features all steps do that
* `emptyFeature_runs_forever` — a search that does not end
-/

set_option autoImplicit false

namespace Cargo.Resolver

open Cargo.Core Cargo.Math

variable {S R : Type}

/-! ### Weights -/

/-- How many candidates are left. -/
def RemainingCandidates.size (rc : RemainingCandidates S R) : ℕ :=
  rc.remaining.length + rc.hasAnother.toList.length

/-- The weight of a choice. -/
abbrev Weight := ℕ ×ₗ ℕ ×ₗ ℕ

/-- The weight of a choice by what its context lacks, by the number of dependencies and by
the number of candidates left. -/
def weigh (lack pending candidates : ℕ) : Weight := toLex (lack, toLex (pending, candidates))

theorem weigh_lt_of_lack {l l' p p' k k' : ℕ} (h : l < l') : weigh l p k < weigh l' p' k' :=
  Prod.Lex.toLex_lt_toLex.mpr (Or.inl h)

theorem weigh_lt_of_pending {l l' p p' k k' : ℕ} (hl : l ≤ l') (h : p < p') :
    weigh l p k < weigh l' p' k' := by
  rcases hl.lt_or_eq with hlt | rfl
  · exact weigh_lt_of_lack hlt
  · exact Prod.Lex.toLex_lt_toLex.mpr (Or.inr ⟨rfl, Prod.Lex.toLex_lt_toLex.mpr (Or.inl h)⟩)

theorem weigh_lt_of_candidates {l l' p k k' : ℕ} (hl : l ≤ l') (h : k < k') :
    weigh l p k < weigh l' p k' := by
  rcases hl.lt_or_eq with hlt | rfl
  · exact weigh_lt_of_lack hlt
  · exact Prod.Lex.toLex_lt_toLex.mpr
      (Or.inr ⟨rfl, Prod.Lex.toLex_lt_toLex.mpr (Or.inr ⟨rfl, h⟩)⟩)

theorem weigh_le_of_lack {l l' p k : ℕ} (hl : l ≤ l') : weigh l p k ≤ weigh l' p k := by
  rcases hl.lt_or_eq with hlt | rfl
  · exact (weigh_lt_of_lack hlt).le
  · exact le_rfl

variable [DecidableEq S]

/-- `next` uses up a candidate. -/
theorem size_lt_of_nextLoop {cx : Context S R} {dep : Dependency S R}
    {rest : List (Candidate S R)} {another : Option (Candidate S R)} {con con' : Conflicts S}
    {c : Candidate S R} {more : Bool} {rc : RemainingCandidates S R}
    (h : RemainingCandidates.nextLoop cx dep rest another con = (some (c, more), rc, con')) :
    rc.size < rest.length + another.toList.length := by
  induction rest generalizing another con with
  | nil =>
    cases another with
    | none => cases h
    | some r =>
      cases h
      simp [RemainingCandidates.size]
  | cons b rest ih =>
    rw [RemainingCandidates.nextLoop.eq_def] at h
    simp only at h
    split at h
    · have := ih h
      rw [List.length_cons]
      omega
    · split at h
      · cases h
        simp [RemainingCandidates.size]
      · have := ih h
        simp only [Option.toList_some, Option.toList_none, List.length_nil, List.length_cons]
          at this ⊢
        omega

theorem size_lt_of_next {rc rc' : RemainingCandidates S R} {cx : Context S R}
    {dep : Dependency S R} {con con' : Conflicts S} {c : Candidate S R} {more : Bool}
    (h : rc.next con cx dep = (some (c, more), rc', con')) : rc'.size < rc.size :=
  size_lt_of_nextLoop h

/-- The weight of a choice to which the search can go back. -/
def BacktrackFrame.weight (packages : List (Summary S R)) (A : Finset String)
    (frame : BacktrackFrame S R) : Weight :=
  weigh (lacks packages A frame.context) frame.remainingDeps.pending.length
    (frame.remainingCandidates.size + 1)

/-- The weights of the choices of a state, the current one first. -/
def Machine.weights (packages : List (Summary S R)) (A : Finset String) :
    Machine S R → List Weight
  | .outer s => weigh (lacks packages A s.cx) s.remainingDeps.pending.length 0 ::
      s.backtrackStack.map (·.weight packages A)
  | .inner s a => weigh (lacks packages A s.cx) s.remainingDeps.pending.length
        (a.remainingCandidates.size + 1) ::
      s.backtrackStack.map (·.weight packages A)
  | .done _ => []

/-- The candidate that the next step tries, with the context and the method. -/
def Machine.tried : Machine S R → Option (Context S R × Candidate S R × Method)
  | .inner s a =>
    match a.remainingCandidates.next a.conflicting s.cx a.dep with
    | (some (c, _), _, _) => some (s.cx, c, a.method)
    | (none, _, conflicting) =>
      (findCandidate a.parent a.backtracked conflicting s.backtrackStack).map
        fun (c, _, frame, _) =>
          (frame.context, c, .required false frame.features false frame.dep.defaultFeatures)
  | _ => none

/-! ### The scope -/

/-- The dependencies that wait have the candidates that the registry answers with, and ask
for names in `B`. -/
def InScope (env : Env S R) (B : Finset String) (pending : Pending S R) : Prop :=
  ∀ e ∈ pending, env.registry.query e.2.dep = .ok e.2.candidates ∧
    ∀ f ∈ e.2.features, f ∈ B ∧ '/' ∉ f.toList

section Scope

variable {env : Env S R} {roots : List (Summary S R × Method)} {packages : List (Summary S R)}
  {A B : Finset String}

/-- What replaces a package comes from the registry. -/
theorem Scope.override (h : Scope env roots packages A B) {s r : Summary S R}
    (hr : env.registry.override s = .ok (some r)) : r ∈ packages := by
  unfold RegistryQueryer.override at hr
  split at hr
  · cases hr
  · split at hr
    · cases hr
    · cases hr
    · rename_i hregistry
      split at hr
      · cases hr
      · split at hr
        · cases hr
        · split at hr
          · cases hr
          · split at hr
            · cases hr
            · cases hr
              exact h.registry _ _ hregistry r (by simp)

/-- All candidates come from the registry. -/
theorem Scope.candidate (h : Scope env roots packages A B) {dep : Dependency S R}
    {candidates : List (Candidate S R)} (hquery : env.registry.query dep = .ok candidates)
    {c : Candidate S R} (hc : c ∈ candidates) : c.summary ∈ packages ∧ c.chosen ∈ packages := by
  obtain ⟨summaries, hregistry, hs, hreplace⟩ := RegistryQueryer.mem_query hquery hc
  have hmem := h.registry dep summaries hregistry _ hs
  refine ⟨hmem, ?_⟩
  unfold Candidate.chosen
  cases hr : c.replace with
  | none => exact hmem
  | some r => exact h.override (hr ▸ hreplace)

/-- The dependencies of a package in scope are in scope. -/
theorem Scope.expanded (h : Scope env roots packages A B) {s : Summary S R} {method : Method}
    {reqs : Requirements} {cx cx' : Context S R} {infos : List (DepInfo S R)}
    (hs : s ∈ packages) (hexp : Context.Expanded env.registry s method reqs cx cx' infos)
    (hwithin : reqs.Within A B) : InScope env B (infos.map fun info => (s, info)) := by
  intro e he
  obtain ⟨info, hinfo, rfl⟩ := List.mem_map.mp he
  obtain ⟨d, hd, -, -, hdep, hfeatures, hquery⟩ := (hexp.mem_infos info).mp hinfo
  refine ⟨hdep ▸ hquery, ?_⟩
  intro f hf
  refine ⟨?_, hexp.no_slash info hinfo f hf⟩
  rw [hfeatures] at hf
  rcases List.mem_append.mp hf with hf | hf
  · exact hwithin.entry _ f hf
  · exact h.asked s hs (feature_mem_ownNames hd hf)

omit [DecidableEq S] in
/-- Without a slash, a requested feature asks for nothing of a dependency. -/
theorem featureValue_ne_crateFeature {s : Summary S R} {f : String} (hf : '/' ∉ f.toList)
    (n g : String) : featureValue s f ≠ .crateFeature n g := by
  unfold featureValue FeatureValue.build
  rw [if_neg hf]
  split
  · split <;> simp
  · split <;> simp

omit [DecidableEq S] in
/-- What a dependency in scope asks for is within the scope. -/
theorem Scope.within (h : Scope env roots packages A B) {s : Summary S R} (hs : s ∈ packages)
    {features : List String} {devDeps usesDefault : Bool}
    (hfeatures : ∀ f ∈ features, f ∈ B ∧ '/' ∉ f.toList) {reqs : Requirements}
    (hreqs : buildRequirements s (.required devDeps features false usesDefault) = .ok reqs) :
    reqs.Within A B := by
  refine buildRequirements_within (h.recorded s hs) (h.asked s hs) ?_ ?_ hreqs
  · exact fun f hf => h.recorded_of_asked s hs f (hfeatures f hf).1
  · exact fun f hf n g hvalue => absurd hvalue (featureValue_ne_crateFeature (hfeatures f hf).2 n g)

/-- The search stays within the scope. -/
theorem inScope_kept (h : Scope env roots packages A B) :
    Kept env (fun _ pending => InScope env B pending) where
  perm := fun _ _ _ hperm hscope e he => hscope e (hperm.mem_iff.mpr he)
  already := fun _ _ _ _ _ _ hscope _ _ _ e he => hscope e (by simp [he])
  frame := by
    intro cx cx' parent info rest c frame hscope hc _ hactivate
    obtain ⟨hquery, hfeatures⟩ := hscope (parent, info) (by simp)
    obtain ⟨-, hchosen⟩ := h.candidate hquery hc
    obtain ⟨mid, -, ⟨hout, -⟩ | ⟨⟨reqs, infos, hexp, hout⟩ | ⟨_, _, -, hout⟩, -⟩⟩ :=
      activate_cases hactivate
    · cases hout
    · cases hout
      intro e he
      rcases List.mem_append.mp he with he | he
      · exact h.expanded hchosen hexp (h.within hchosen hfeatures hexp.reqs_eq) e he
      · exact hscope e (by simp [he])
    · cases hout

/-- The search begins within the scope. -/
theorem inScope_start (h : Scope env roots packages A B) :
    MachineOk (fun _ pending => InScope env B pending) (start env roots) := by
  refine machineOk_start (inScope_kept h) (by simp [InScope]) (fun _ _ _ _ _ hscope _ => hscope) ?_
  intro root hroot cx cx' frame pending hscope hactivate
  obtain ⟨mid, -, ⟨hout, -⟩ | ⟨⟨reqs, infos, hexp, hout⟩ | ⟨_, _, -, hout⟩, -⟩⟩ :=
    activate_cases hactivate
  · cases hout
  · cases hout
    have hwithin : reqs.Within A B := by
      refine buildRequirements_within (h.recorded _ (h.root root hroot))
        (h.asked _ (h.root root hroot)) (h.root_recorded root hroot) ?_ hexp.reqs_eq
      intro f hf n g hvalue
      have hvalue' : featureValue root.1 f = .crateFeature n g := hvalue
      refine h.root_asked root hroot f hf ?_
      rw [hvalue']
      simp [valueNames]
    intro e he
    rcases List.mem_append.mp he with he | he
    · exact h.expanded (h.root root hroot) hexp hwithin e he
    · exact hscope e he
  · cases hout

end Scope

/-! ### Descent -/

section Descent

variable [DecidableEq R] {env : Env S R} {roots : List (Summary S R × Method)}
  {packages : List (Summary S R)} {A B : Finset String}

/-- The weight of the choice that an attempt is at. -/
def Search.weightAt (packages : List (Summary S R)) (A : Finset String) (s : Search S R)
    (a : Attempt S R) : Weight :=
  weigh (lacks packages A s.cx) s.remainingDeps.pending.length (a.remainingCandidates.size + 1)

omit [DecidableEq R] in
theorem map_weight_pushBacktrack (s : Search S R) (a : Attempt S R) (more : Bool)
    (stack : List (BacktrackFrame S R)) :
    (s.pushBacktrack a more stack).map (·.weight packages A) =
      (if more then [s.weightAt packages A a] else []) ++ stack.map (·.weight packages A) := by
  cases more <;> rfl

omit [DecidableEq R] in
/-- The weights after the current choice was put on the stack. -/
theorem weights_push (s : Search S R) (a : Attempt S R) (more : Bool) (s' : Search S R)
    {stack : List (BacktrackFrame S R)}
    (hstack : s'.backtrackStack = s.pushBacktrack a more stack) :
    (Machine.outer s').weights packages A =
      (weigh (lacks packages A s'.cx) s'.remainingDeps.pending.length 0 ::
        if more then [s.weightAt packages A a] else []) ++ stack.map (·.weight packages A) := by
  rw [Machine.weights, hstack, map_weight_pushBacktrack]
  rfl

omit [DecidableEq R] in
theorem le_weightAt_of_mem {s : Search S R} {a : Attempt S R} {more : Bool} {w y : Weight}
    (hw : w ≤ s.weightAt packages A a)
    (hy : y ∈ w :: if more then [s.weightAt packages A a] else []) :
    y ≤ s.weightAt packages A a := by
  rcases List.mem_cons.mp hy with rfl | hy
  · exact hw
  · split at hy
    · rw [List.mem_singleton.mp hy]
    · cases hy

/-- The weights after a candidate was tried: none is above that of the choice at which it
was tried, and choices below may be dropped. -/
theorem weights_tryCandidate (hscope : Scope env roots packages A B) {s : Search S R}
    {a : Attempt S R} {c : Candidate S R} (more : Bool) {candidates : List (Candidate S R)}
    (hpending : InScope env B
      ((a.parent, ⟨a.dep, candidates, a.features⟩) :: s.remainingDeps.pending))
    (hc : c ∈ candidates) (hrenews : Renews s.cx c a.method) :
    ∃ fresh dropped kept, (tryCandidate env s a c more).weights packages A = fresh ++ kept ∧
      s.backtrackStack.map (·.weight packages A) = dropped ++ kept ∧
      ∀ y ∈ fresh, y ≤ s.weightAt packages A a := by
  obtain ⟨hquery, hfeatures⟩ := hpending (a.parent, ⟨a.dep, candidates, a.features⟩) (by simp)
  obtain ⟨hsummary, hchosen⟩ := hscope.candidate hquery hc
  -- a candidate that failed leaves its choice, with a context that lacks no more
  have hfail : ∀ (a' : Attempt S R) cx, a'.remainingCandidates = a.remainingCandidates →
      s.cx.Le cx → ∃ fresh dropped kept,
        (fail s a' more cx).weights packages A = fresh ++ kept ∧
        s.backtrackStack.map (·.weight packages A) = dropped ++ kept ∧
        ∀ y ∈ fresh, y ≤ s.weightAt packages A a := by
    intro a' cx ha' hle
    refine ⟨[_], [], s.backtrackStack.map (·.weight packages A), rfl, rfl, ?_⟩
    simp only [List.mem_singleton, forall_eq, ha']
    refine weigh_le_of_lack ?_
    split
    · exact le_rfl
    · exact lacks_le hle
  unfold tryCandidate
  split
  · exact ⟨[_], [], s.backtrackStack.map (·.weight packages A), rfl, rfl, by
      simp [Search.weightAt]⟩
  · split
    · exact ⟨[], _, [], rfl, (List.append_nil _).symm, by simp⟩
    · -- Nothing is lacking less, but the candidates are not looked at any more.
      rename_i cx hactivate
      refine ⟨_, [], _, weights_push s a more _ rfl, rfl, fun y hy => le_weightAt_of_mem ?_ hy⟩
      exact (weigh_lt_of_candidates (lacks_le (activate_le hactivate)) (Nat.succ_pos _)).le
    · rename_i cx frame hactivate
      -- a package was added or asked for something new
      have hlt : lacks packages A cx < lacks packages A s.cx := by
        refine lacks_lt_of_frame hactivate hsummary hchosen ?_ hrenews
        exact fun reqs hreqs => (hscope.within hchosen hfeatures hreqs).used
      unfold pushFrame
      simp only
      split
      · split
        · refine ⟨_, _, [].map (BacktrackFrame.weight packages A), weights_push s a more _ rfl,
            (List.append_nil _).symm, fun y hy => le_weightAt_of_mem ?_ hy⟩
          exact (weigh_lt_of_lack hlt).le
        · refine ⟨_, [], _, weights_push s a more _ rfl, rfl,
            fun y hy => le_weightAt_of_mem ?_ hy⟩
          exact (weigh_lt_of_lack hlt).le
      · exact hfail _ cx rfl (activate_le hactivate)
    · rename_i cx id reason hactivate
      exact hfail _ cx rfl (activate_le hactivate)

/-- Every step that renews its candidate exchanges choices for lighter ones. -/
theorem weights_step (hscope : Scope env roots packages A B) {m : Machine S R}
    (hm : MachineOk (fun _ pending => InScope env B pending) m)
    (hrenews : ∀ cx c method, m.tried = some (cx, c, method) → Renews cx c method)
    (hdone : ∀ result, m ≠ .done result) :
    StackLT ((step env m).weights packages A) (m.weights packages A) := by
  match m with
  | .done result => exact absurd rfl (hdone result)
  | .outer s =>
    simp only [step, outerStep]
    split
    -- either nothing is left to do, or a dependency moves from the queue to the attempt
    · exact ⟨_, [], [], List.cons_ne_nil _ _, (List.append_nil _).symm, rfl, by simp⟩
    · rename_i just parent info rest hpop
      obtain ⟨hperm, -, -⟩ := popMostConstrained_eq_some hpop
      have hlength := hperm.length_eq
      rw [List.length_cons] at hlength
      refine ⟨[_], [_], s.backtrackStack.map (·.weight packages A), by simp, rfl, rfl, ?_⟩
      simp only [List.mem_singleton, forall_eq, exists_eq_left]
      exact weigh_lt_of_pending le_rfl (by omega)
  | .inner s a =>
    obtain ⟨hchoice, hstack⟩ := hm
    simp only [step, innerStep]
    split
    -- what is pushed is paid for by the candidate that is tried
    · rename_i c more rc con hnext
      rcases hchoice with ⟨candidates, hpending, hrc⟩ | hexhausted
      · obtain ⟨hc, -⟩ := nextLoop_some hnext hrc
        have hsize := size_lt_of_next hnext
        have hrenew : Renews s.cx c a.method := by
          refine hrenews s.cx c a.method ?_
          simp [Machine.tried, hnext]
        obtain ⟨fresh, dropped, kept, hweights, hstackWeights, hfresh⟩ :=
          weights_tryCandidate hscope (s := s)
            (a := { a with remainingCandidates := rc, conflicting := con }) more hpending hc hrenew
        refine ⟨s.weightAt packages A a :: dropped, fresh, kept, List.cons_ne_nil _ _, ?_,
          hweights, ?_⟩
        · rw [Machine.weights, hstackWeights]
          rfl
        · intro y hy
          refine ⟨_, List.mem_cons_self, lt_of_le_of_lt (hfresh y hy) ?_⟩
          exact weigh_lt_of_candidates le_rfl (by simpa using hsize)
      · rw [next_of_exhausted hexhausted] at hnext
        cases hnext
    · rename_i rc con hnext
      -- frames without a candidate are dropped; the one that has some pays for what is pushed
      unfold backtrack
      simp only
      split
      · exact ⟨_, [], [], List.cons_ne_nil _ _, (List.append_nil _).symm, rfl, by simp⟩
      · rename_i c more frame stack hfind
        obtain ⟨skipped, frame₀, heq, hnext', hframe⟩ := findCandidate_some hfind
        obtain ⟨candidates, hpending, hrc⟩ := hstack frame₀ (by rw [heq]; simp)
        obtain ⟨hc, -⟩ := nextLoop_some hnext' hrc
        have hsize := size_lt_of_next hnext'
        have hrenew := hrenews frame.context c
          (.required false frame.features false frame.dep.defaultFeatures)
          (by simp [Machine.tried, hnext, hfind])
        rw [hframe] at hrenew ⊢
        obtain ⟨fresh, dropped, kept, hweights, hstackWeights, hfresh⟩ :=
          weights_tryCandidate hscope (s := Search.mk frame₀.context stack
            frame₀.remainingDeps _) (a := Attempt.mk frame₀.parent frame₀.dep frame₀.features
              a.justHere frame.remainingCandidates frame.conflicting true) more hpending hc hrenew
        refine ⟨s.weightAt packages A a :: (skipped.map (·.weight packages A) ++
          frame₀.weight packages A :: dropped), fresh, kept, List.cons_ne_nil _ _, ?_, hweights, ?_⟩
        · rw [Machine.weights, heq, List.map_append, List.map_cons]
          simp only at hstackWeights
          rw [hstackWeights]
          simp [Search.weightAt]
        · intro y hy
          refine ⟨frame₀.weight packages A, by simp, lt_of_le_of_lt (hfresh y hy) ?_⟩
          exact weigh_lt_of_candidates le_rfl (by simpa using hsize)

/-- A search over finitely many packages ends if every package that is expanded again is
asked for something that was not recorded for it. -/
theorem terminates_of_renews {env : Env S R} {roots : List (Summary S R × Method)}
    {packages : List (Summary S R)}
    (hfinite : ∀ dep l, env.registry.registry dep = .ok l → ∀ s ∈ l, s ∈ packages)
    (hrenews : ∀ m, Reaches env roots m → ∀ cx c method, m.tried = some (cx, c, method) →
      Renews cx c method) :
    ∃ result, Returns env roots result := by
  obtain ⟨packages', A, B, hscope, -⟩ := exists_scope roots hfinite
  obtain ⟨n, result, hn⟩ := exists_iterate_of_descent wellFounded_stackLT (step env)
    (Machine.weights packages' A) (Reaches env roots) (fun m => ∃ result, m = .done result)
    (by
      intro m hm hdone
      refine ⟨?_, weights_step hscope
        (machineOk_of_reaches (inScope_kept hscope) (inScope_start hscope) hm) (hrenews m hm)
        (fun result h => hdone ⟨result, h⟩)⟩
      obtain ⟨k, rfl⟩ := hm
      exact ⟨k + 1, Function.iterate_succ_apply' _ _ _⟩)
    ⟨0, rfl⟩
  exact ⟨result, n, hn⟩

/-! ### Plain features -/

omit [DecidableEq R] in
/-- What is tried is a candidate of a dependency that waited. -/
theorem MachineOk.tried {m : Machine S R}
    (h : MachineOk (fun _ pending => InScope env B pending) m) {cx : Context S R}
    {c : Candidate S R} {method : Method} (ht : m.tried = some (cx, c, method)) :
    ∃ dep candidates features, env.registry.query dep = .ok candidates ∧ c ∈ candidates ∧
      (∀ f ∈ features, f ∈ B ∧ '/' ∉ f.toList) ∧
      method = .required false features false dep.defaultFeatures := by
  match m with
  | .outer s => cases ht
  | .done result => cases ht
  | .inner s a =>
    obtain ⟨hchoice, hstack⟩ := h
    simp only [Machine.tried] at ht
    split at ht
    · rename_i c' more rc con hnext
      cases ht
      rcases hchoice with ⟨candidates, hpending, hrc⟩ | hexhausted
      · obtain ⟨hc, -⟩ := nextLoop_some hnext hrc
        obtain ⟨hquery, hfeatures⟩ :=
          hpending (a.parent, ⟨a.dep, candidates, a.features⟩) (by simp)
        exact ⟨a.dep, candidates, a.features, hquery, hc, hfeatures, rfl⟩
      · rw [next_of_exhausted hexhausted] at hnext
        cases hnext
    · rename_i rc con hnext
      obtain ⟨⟨c', more, frame, stack⟩, hfind, heq⟩ := Option.map_eq_some_iff.mp ht
      cases heq
      obtain ⟨skipped, frame₀, hstackEq, hnext', hframe⟩ := findCandidate_some hfind
      obtain ⟨candidates, hpending, hrc⟩ := hstack frame₀ (by rw [hstackEq]; simp)
      obtain ⟨hc, -⟩ := nextLoop_some hnext' hrc
      obtain ⟨hquery, hfeatures⟩ :=
        hpending (frame₀.parent, ⟨frame₀.dep, candidates, frame₀.features⟩) (by simp)
      rw [hframe]
      exact ⟨frame₀.dep, candidates, frame₀.features, hquery, hc, hfeatures, rfl⟩

omit [DecidableEq R] in
/-- Features that are recorded under their own names renew the package that lacks them. -/
theorem renews_of_recorded {cx : Context S R} {c : Candidate S R} {features : List String}
    {devDeps usesDefault : Bool} (hreplace : c.replace = none)
    (hplain : c.summary.namespacedFeatures = false)
    (hfeatures : ∀ f ∈ features, f ≠ "" ∧ '/' ∉ f.toList) :
    Renews cx c (.required devDeps features false usesDefault) := by
  have hchosen : c.chosen = c.summary := by simp [Candidate.chosen, hreplace]
  intro hactive _ hnot reqs hreqs hsub
  rw [hchosen] at hreqs hsub
  refine hnot ?_
  rw [Candidate.Satisfied, hchosen, and_self_iff]
  refine ⟨hactive, ?_⟩
  simp only [Context.alreadyActivated, Bool.and_eq_true, List.all_eq_true, decide_eq_true_eq,
    Bool.or_eq_true, Bool.not_eq_true']
  refine ⟨?_, ?_⟩
  · intro f hf
    obtain ⟨hne, hslash⟩ := hfeatures f hf
    exact hsub (mem_used_of_requested hplain hreqs hf hslash hne)
  · cases usesDefault with
    | false => exact Or.inl (Or.inl rfl)
    | true =>
      by_cases hdefault : "default" ∈ c.summary.features
      · exact Or.inl (Or.inr (hsub (buildRequirements_default hreqs rfl hdefault)))
      · exact Or.inr hdefault

/-- Without namespaced features, empty names and `[replace]` entries every step renews its
candidate. -/
theorem renews_of_plain {packages : List (Summary S R)}
    (hfinite : ∀ dep l, env.registry.registry dep = .ok l → ∀ s ∈ l, s ∈ packages)
    (hplain : ∀ s ∈ packages, s.namespacedFeatures = false)
    (hnames : ∀ s, (s ∈ packages ∨ ∃ root ∈ roots, root.1 = s) → "" ∉ ownNames s)
    (hrequested : ∀ root ∈ roots, ∀ f ∈ root.2.requested, "" ∉ valueNames (featureValue root.1 f))
    (hreplacements : env.registry.replacements = []) {m : Machine S R} (hm : Reaches env roots m)
    {cx : Context S R} {c : Candidate S R} {method : Method}
    (ht : m.tried = some (cx, c, method)) : Renews cx c method := by
  obtain ⟨packages', A, B, hscope, hB⟩ := exists_scope roots hfinite
  have hempty : "" ∉ B := by
    intro hmem
    rcases hB "" hmem with ⟨s, hs, hown⟩ | ⟨root, hroot, r, hr, hvalue⟩
    · exact hnames s hs hown
    · exact hrequested root hroot r hr hvalue
  have hok := machineOk_of_reaches (inScope_kept hscope) (inScope_start hscope) hm
  obtain ⟨dep, candidates, features, hquery, hc, hfeatures, rfl⟩ := hok.tried ht
  obtain ⟨summaries, hregistry, hs, hreplace⟩ := RegistryQueryer.mem_query hquery hc
  rw [RegistryQueryer.override_of_nil hreplacements] at hreplace
  refine renews_of_recorded (Except.ok.inj hreplace).symm
    (hplain _ (hfinite dep summaries hregistry _ hs)) ?_
  intro f hf
  refine ⟨?_, (hfeatures f hf).2⟩
  rintro rfl
  exact hempty (hfeatures _ hf).1

end Descent

/-! ### A package that depends on itself -/

section Loop

/-- A dependency on the package `a` that asks for one feature. -/
def loopDep (feature : String) : Dependency ℕ (List Version) :=
  { Dependency.parse "a" [⟨1, 0, 0, []⟩] 0 with features := [feature] }

/-- The package `a` declares the feature and depends on itself with it. -/
def loopPackage (feature : String) (h : feature ≠ "a") : Summary ℕ (List Version) where
  packageId := ⟨"a", ⟨1, 0, 0, []⟩, 0⟩
  dependencies := [loopDep feature]
  features := Finmap.singleton feature []
  checksum := none
  links := none
  namespacedFeatures := false
  names_disjoint := by
    intro _ d hd
    obtain rfl := List.mem_singleton.mp hd
    simpa [loopDep, Dependency.parse, Dependency.nameInToml] using h.symm
  optional_transitive := by
    intro d hd
    obtain rfl := List.mem_singleton.mp hd
    simp [loopDep, Dependency.parse]

/-- The registry of this package. -/
noncomputable def loopEnv (feature : String) (h : feature ≠ "a") : Env ℕ (List Version) where
  registry := .ofList [loopPackage feature h]
  heap := .simple
  names _ _ := .following []
  ids _ := .following []

/-- The package as the root. -/
def loopRoots (feature : String) (h : feature ≠ "a") : List (Summary ℕ (List Version) × Method) :=
  [(loopPackage feature h, .required true [] false true)]

/-- With a feature that has a name the search ends. -/
theorem terminates_of_renews_loop :
    ∃ result, Returns (loopEnv "std" (by decide)) (loopRoots "std" (by decide)) result := by
  have hnames : "" ∉ ownNames (loopPackage "std" (by decide)) := by decide
  have hfinite : ∀ dep l, (loopEnv "std" (by decide)).registry.registry dep = .ok l →
      ∀ s ∈ l, s ∈ [loopPackage "std" (by decide)] := by
    intro dep l hl s hs
    cases hl
    exact (List.mem_filter.mp hs).1
  refine terminates_of_renews hfinite ?_
  intro m hm cx c method ht
  refine renews_of_plain hfinite (by simp [loopPackage]) ?_ (by simp [loopRoots, Method.requested])
    rfl hm ht
  rintro s (hs | ⟨root, hroot, rfl⟩)
  · rwa [List.mem_singleton.mp hs]
  · rwa [List.mem_singleton.mp hroot]

/-- The package whose only feature has the empty name. -/
def emptyFeature : Summary ℕ (List Version) := loopPackage "" (by decide)

/-- The context after the root was activated and a number of edges were noted. -/
def emptyContext (graph : List (GraphNode ℕ (List Version))) : Context ℕ (List Version) :=
  ⟨(∅ : Finmap _).insert ("a", 0) [emptyFeature], ∅, ∅, graph, [], []⟩

/-- The state at the top of the outer loop, with frames that are done. -/
def emptyState (graph : List (GraphNode ℕ (List Version)))
    (spent : List (DepsFrame ℕ (List Version))) : Machine ℕ (List Version) :=
  .outer
    { cx := emptyContext graph
      backtrackStack := []
      remainingDeps := ⟨emptyFeature, false, [⟨loopDep "", [⟨emptyFeature, none⟩], [""]⟩]⟩ :: spent
      past := ConflictCache.new }

set_option maxRecDepth 10000 in
theorem emptyState_start : start (loopEnv "" (by decide)) (loopRoots "" (by decide)) =
    emptyState [.add emptyFeature.packageId] [] := rfl

set_option maxRecDepth 10000 in
theorem emptyState_enter (graph : List (GraphNode ℕ (List Version))) :
    (step (loopEnv "" (by decide)))^[2] (emptyState graph []) =
      emptyState (.link emptyFeature.packageId emptyFeature.packageId (loopDep "") :: graph)
        [⟨emptyFeature, false, []⟩] := rfl

set_option maxRecDepth 10000 in
/-- Two steps later the search has noted one more edge and is where it was. -/
theorem emptyState_repeat (graph : List (GraphNode ℕ (List Version))) :
    (step (loopEnv "" (by decide)))^[2] (emptyState graph [⟨emptyFeature, false, []⟩]) =
      emptyState (.link emptyFeature.packageId emptyFeature.packageId (loopDep "") :: graph)
        [⟨emptyFeature, false, []⟩] := rfl

theorem emptyState_of_even (n : ℕ) : ∃ graph,
    (step (loopEnv "" (by decide)))^[2 * n + 2]
      (start (loopEnv "" (by decide)) (loopRoots "" (by decide))) =
        emptyState graph [⟨emptyFeature, false, []⟩] := by
  induction n with
  | zero => exact ⟨_, by rw [emptyState_start]; exact emptyState_enter _⟩
  | succ n ih =>
    obtain ⟨graph, hgraph⟩ := ih
    refine ⟨.link emptyFeature.packageId emptyFeature.packageId (loopDep "") :: graph, ?_⟩
    rw [show 2 * (n + 1) + 2 = 2 + (2 * n + 2) by omega, Function.iterate_add_apply, hgraph]
    exact emptyState_repeat graph

/-- A search that is over stays over. -/
theorem iterate_step_done [DecidableEq R] {env : Env S R} (n : ℕ)
    (result : Except (Failure S R) (Context S R)) :
    (step env)^[n] (.done result) = .done result := by
  induction n with
  | zero => rfl
  | succ n ih => exact ih

/-- `Summary::new` accepts the empty name as a feature. -/
theorem emptyFeature_accepted : Summary.new emptyFeature.packageId [loopDep ""]
    (Finmap.singleton "" []) none false = .ok emptyFeature := by
  have hmap : buildFeatureMap (Finmap.singleton "" []) [loopDep ""] false =
      .ok (Finmap.singleton "" []) := by
    have hsorted : sortedKeys (Finmap.singleton "" ([] : List String)) = [""] := by
      simp [sortedKeys]
    rw [buildFeatureMap, hsorted]
    rfl
  exact Summary.new_eq_ok.mpr ⟨rfl, hmap, rfl, rfl, rfl, rfl, rfl⟩

/-- A package with a feature of the empty name, asked of it by itself, keeps the search
going for ever. -/
theorem emptyFeature_runs_forever :
    Summary.new emptyFeature.packageId [loopDep ""] (Finmap.singleton "" []) none false =
        .ok emptyFeature ∧
      ¬ ∃ result, Returns (loopEnv "" (by decide)) (loopRoots "" (by decide)) result := by
  refine ⟨emptyFeature_accepted, ?_⟩
  rintro ⟨result, n, hn⟩
  obtain ⟨graph, hgraph⟩ := emptyState_of_even n
  rw [show 2 * n + 2 = (n + 2) + n by omega, Function.iterate_add_apply, hn,
    iterate_step_done] at hgraph
  cases hgraph

end Loop

end Cargo.Resolver
