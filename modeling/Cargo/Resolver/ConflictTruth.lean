import Cargo.Resolver.Accounted
import Cargo.Resolver.FeatureClosure

/-!
# What the cache of conflicts says

The search gives a candidate up for one of four reasons: an active package excludes it, it
lacks a feature, a dependency of its own is known to fail, or one that waits to be activated
is known to fail next to it. Each time it notes the packages to blame, and when all
candidates of a dependency are given up the cache remembers them for ever.

Packages that exclude each other do so in every selection. The other reasons depend on the
features that were asked for in the branch of the search at hand, and the packages noted do
not say who asked. `Blameless` is the condition under which this does no harm.

## Main definitions

* `Blameless` — what is given up because of features would be given up in every selection
* `Truthful` — the cache and the notes of the current attempt are true
* `Contained` — features ask nothing of dependencies, and no dependency is optional
* `Featureless` — no features are declared or asked for

## Main results

* `truthful_step`, `conflictCache_true` — if all steps are blameless, every entry is true
* `blameless_of_contained` — if features stay in their package, every step is blameless
* `conflictCache_false` — an entry that is not true
-/

set_option autoImplicit false

namespace Cargo.Resolver

open Cargo.Core Cargo.Math

variable {S R : Type} [DecidableEq S] [DecidableEq R]

/-! ### The condition -/

/-- If `c` is given up because of features, it is so for what the dependency itself asks:
a feature that is missing is one that the dependency names, a dependency of `c` that is
known to fail is not optional or one that it turns on, and a waiting dependency that is known
to fail is not optional. -/
structure GivenUpFairly (env : Env S R) (roots : List (Summary S R × Method)) (s : Search S R)
    (a : Attempt S R) (c : Candidate S R) : Prop where
  missing : ∀ cx id reason,
    activate env s.cx (some (a.parent, a.dep)) c a.method = .ok (cx, .conflict id reason) →
    ∃ n, Asks a.dep c.summary n ∧ ¬ HasDependency roots c.summary n
  own : ∀ cx frame con,
    activate env s.cx (some (a.parent, a.dep)) c a.method = .ok (cx, .frame frame) →
    ownConflict s.past cx frame = some con →
    ∃ info ∈ frame.remainingSiblings, s.past.conflicting cx info.dep = some con ∧
      (info.dep.optional = true → Asks a.dep c.summary info.dep.nameInToml)
  related : ∀ cx frame p con,
    activate env s.cx (some (a.parent, a.dep)) c a.method = .ok (cx, .frame frame) →
    ownConflict s.past cx frame = none →
    relatedConflict s.past cx c.summary.packageId s.remainingDeps = some (p, con) →
    ∃ e ∈ s.remainingDeps.pending, e.1.packageId = p ∧ s.past.Mem e.2.dep con ∧
      e.2.dep.optional = false

/-- The next candidate of an attempt whose outcome may be remembered is not given up because
of features that only the branch at hand asks for. -/
def Blameless (env : Env S R) (roots : List (Summary S R × Method)) : Machine S R → Prop
  | .inner s a => a.justHere = false → a.backtracked = false → ∀ c more,
    (a.remainingCandidates.next a.conflicting s.cx a.dep).1 = some (c, more) →
    GivenUpFairly env roots s a c
  | _ => True

/-! ### The cache -/

/-- Every entry of the cache is true. -/
def PastTrue (env : Env S R) (roots : List (Summary S R × Method)) (past : ConflictCache S R) :
    Prop :=
  ∀ dep con, past.Mem dep con → Refuted env roots dep con

omit [DecidableEq S] [DecidableEq R] in
/-- Every candidate of the attempt waits to be tried or is blamed. -/
def Accused (env : Env S R) (roots : List (Summary S R × Method)) (a : Attempt S R) : Prop :=
  ∀ q, Answers env a.dep q → (∃ c, a.remainingCandidates.Has c ∧ c.summary = q) ∨
    Blamed env roots a.dep a.conflicting q

/-- The cache is true, and so are the notes of an attempt that may be remembered. -/
def Truthful (env : Env S R) (roots : List (Summary S R × Method)) : Machine S R → Prop
  | .outer s => PastTrue env roots s.past
  | .inner s a => PastTrue env roots s.past ∧
    (a.justHere = false → a.backtracked = false → Accused env roots a)
  | .done _ => True

section Step

variable [VersionReq R] {env : Env S R} {roots : List (Summary S R × Method)} {s : Search S R}
  {a : Attempt S R} {c : Candidate S R} {cx : Context S R} {frame : DepsFrame S R}
  {con : Conflicts S}

/-- A candidate with a past conflict is blamed on what is noted. -/
theorem blamed_of_knownConflict (hreg : Registered env (Known env roots))
    (hpast : PastTrue env roots s.past) {pending : Pending S R}
    (hcx : Accounted env roots s.cx pending)
    (hpending : ∀ e ∈ s.remainingDeps.pending, e ∈ pending) (hreplace : c.replace = none)
    (hactivate : activate env s.cx (some (a.parent, a.dep)) c a.method = .ok (cx, .frame frame))
    (hfair : GivenUpFairly env roots s a c) (hjust : a.justHere = false)
    (h : knownConflict s a cx c.summary.packageId frame = (con, true)) :
    (∀ id ∈ a.conflicting, id ∈ con) ∧ Blamed env roots a.dep con c.summary := by
  obtain ⟨infos, reqs, mid, hframe, hexp⟩ : ∃ infos reqs mid, frame = ⟨c.summary, false, infos⟩ ∧
      Context.Expanded env.registry c.summary a.method reqs mid cx infos := by
    rcases activate_ok hactivate hreplace with ⟨hout, -⟩ | ⟨mid, reqs, infos, -, hexp, hout⟩ |
      ⟨_, _, _, _, _, hout⟩
    · cases hout
    · cases hout
      exact ⟨infos, reqs, mid, rfl, hexp⟩
    · cases hout
  unfold knownConflict at h
  rw [hjust] at h
  simp only [Bool.false_eq_true, if_false] at h
  split at h
  -- a dependency of the candidate is known to fail
  · rename_i con' hown
    cases h
    obtain ⟨info, hinfo, hconflict, hopt⟩ := hfair.own cx frame con' hactivate hown
    refine ⟨fun id hid => Conflicts.mem_extend_left hid, ?_⟩
    rw [hframe] at hinfo
    obtain ⟨d, hd, hwanted, -, rfl, -, -⟩ := (hexp.mem_infos info).mp hinfo
    have htrans : info.dep.isTransitive = true := by
      simpa [Attempt.method, Method.devDeps] using hwanted
    obtain ⟨hmem, -, -⟩ := ConflictCache.findConflicting_eq_some hconflict
    exact blamed_of_refuted hd (Or.inl htrans) hopt (hpast _ _ hmem)
      (fun id hid => Conflicts.mem_extend_right hid)
  · rename_i hown
    split at h
    -- a dependency that waits is known to fail next to the candidate
    · rename_i p con' hrelated
      cases h
      obtain ⟨e, he, rfl, hmem, hopt⟩ := hfair.related cx frame p con' hactivate hown hrelated
      obtain ⟨hactive, hd, hwanted, -⟩ := hcx.pending e (hpending e he)
      refine ⟨fun id hid => Finmap.mem_insert.mpr (Or.inr (Conflicts.mem_extend_left hid)), ?_⟩
      refine blamed_of_other hreg (hcx.known _ _ hactive) hd hwanted hopt (hpast _ _ hmem) ?_
        (Finmap.mem_insert.mpr (Or.inl rfl))
      intro id hid
      exact (Conflicts.mem_extend_right hid).imp_right fun h => Finmap.mem_insert.mpr (Or.inr h)
    · cases h

omit [DecidableEq R] in
/-- After a call to `next`, every candidate was returned, waits to be tried or is blamed. -/
theorem accused_next (hreg : Registered env (Known env roots))
    (hchoice : ChoiceOk (Accounted env roots) s.cx s.remainingDeps a.parent a.dep a.features
      a.remainingCandidates ∨ Exhausted a.remainingCandidates)
    (haccused : Accused env roots a) {out : Option (Candidate S R × Bool)}
    {rc : RemainingCandidates S R}
    (h : a.remainingCandidates.next a.conflicting s.cx a.dep = (out, rc, con)) {q : Summary S R}
    (hq : Answers env a.dep q) :
    (∃ c more, out = some (c, more) ∧ c.summary = q) ∨ (∃ c, rc.Has c ∧ c.summary = q) ∨
      Blamed env roots a.dep con q := by
  obtain ⟨hmono, hall⟩ := nextLoop_accounts h
  rcases haccused q hq with ⟨c, hc, rfl⟩ | hblamed
  · rcases hchoice with ⟨candidates, hcx, -⟩ | hexhausted
    · rcases hall c hc with ⟨more, hout⟩ | hkept | ⟨id, reason, hrefusal, hid⟩
      · exact Or.inl ⟨c, more, hout, rfl⟩
      · exact Or.inr (Or.inl ⟨c, hkept, rfl⟩)
      · obtain ⟨summaries, hregistry, hmem⟩ := hq
        have hfulfils := (hreg.registry a.dep summaries hregistry _ hmem).2
        exact Or.inr (Or.inr (blamed_of_refusal hreg hcx hfulfils hrefusal hid))
    · exact absurd hc (hexhausted.not_has c)
  · exact Or.inr (Or.inr (hblamed.mono hmono))

omit [DecidableEq R] in
/-- When `next` has nothing to return, the dependency is refuted. -/
theorem refuted_of_next (hreg : Registered env (Known env roots))
    (hchoice : ChoiceOk (Accounted env roots) s.cx s.remainingDeps a.parent a.dep a.features
      a.remainingCandidates ∨ Exhausted a.remainingCandidates)
    (haccused : Accused env roots a) {rc : RemainingCandidates S R}
    (h : a.remainingCandidates.next a.conflicting s.cx a.dep = (none, rc, con)) :
    Refuted env roots a.dep con := by
  refine refuted_of_blamed fun q hq => ?_
  rcases accused_next hreg hchoice haccused h hq with ⟨_, _, hout, -⟩ | ⟨c, hc, -⟩ | hblamed
  · cases hout
  · exact absurd hc ((nextLoop_none h).not_has c)
  · exact hblamed

omit [VersionReq R] in
/-- The cache is true after the notes of an attempt were added, if they may be. -/
theorem pastTrue_backtrack (hpast : PastTrue env roots s.past)
    (h : a.justHere = false → a.backtracked = false → Refuted env roots a.dep con) :
    PastTrue env roots (if !a.justHere && !a.backtracked then
      s.past.insert (env.ids s.past) a.dep con else s.past) := by
  split
  · rename_i hfresh
    simp only [Bool.and_eq_true, Bool.not_eq_true'] at hfresh
    intro dep con' hmem
    rcases ConflictCache.mem_insert.mp hmem with hmem | ⟨rfl, rfl⟩
    · exact hpast dep con' hmem
    · exact h hfresh.1 hfresh.2
  · exact hpast

/-- Trying a candidate keeps the cache and the notes true. -/
theorem truthful_tryCandidate (hreg : Registered env (Known env roots))
    (hpast : PastTrue env roots s.past) {candidates : List (Candidate S R)}
    (hcx : Accounted env roots s.cx
      ((a.parent, ⟨a.dep, candidates, a.features⟩) :: s.remainingDeps.pending))
    (hc : c ∈ candidates) (more : Bool)
    (hfair : a.justHere = false → a.backtracked = false → GivenUpFairly env roots s a c)
    (haccused : a.justHere = false → a.backtracked = false → ∀ q, Answers env a.dep q →
      c.summary = q ∨ (∃ c', a.remainingCandidates.Has c' ∧ c'.summary = q) ∨
        Blamed env roots a.dep a.conflicting q) :
    Truthful env roots (tryCandidate env s a c more) := by
  obtain ⟨-, -, -, hquery⟩ := hcx.pending (a.parent, ⟨a.dep, candidates, a.features⟩) (by simp)
  obtain ⟨-, -, hreplace⟩ := hreg.candidate hquery hc
  -- A candidate that fails is blamed on the new notes, the others on the old ones.
  have hfail : ∀ con', (a.justHere = false → a.backtracked = false →
      (∀ id ∈ a.conflicting, id ∈ con') ∧ Blamed env roots a.dep con' c.summary) → ∀ cx,
      Truthful env roots (fail s { a with conflicting := con' } more cx) := by
    intro con' hblamed cx
    refine ⟨hpast, fun hjust hback q hq => ?_⟩
    obtain ⟨hmono, hblamed⟩ := hblamed hjust hback
    rcases haccused hjust hback q hq with rfl | hkept | hq
    · exact Or.inr hblamed
    · exact Or.inl hkept
    · exact Or.inr (hq.mono hmono)
  unfold tryCandidate
  split
  · rename_i hskip
    refine ⟨hpast, fun hjust => ?_⟩
    rw [hjust] at hskip
    cases hskip
  · split
    · trivial
    · exact hpast
    · rename_i cx frame hactivate
      unfold pushFrame
      cases hknown : knownConflict s a cx c.summary.packageId frame with
      | mk con' found =>
        simp only
        split
        · exact hpast
        · rename_i hpush
          obtain rfl : found = true := by
            cases found with
            | true => rfl
            | false => exact absurd rfl hpush
          refine hfail con' (fun hjust hback => ?_) cx
          exact blamed_of_knownConflict hreg hpast hcx (fun e he => by simp [he]) hreplace
            hactivate (hfair hjust hback) hjust hknown
    · rename_i cx id reason hactivate
      refine hfail _ (fun hjust hback => ⟨fun id' hid' => ?_, ?_⟩) cx
      · exact Finmap.mem_insert.mpr (Or.inr hid')
      · obtain ⟨n, hasks, hnot⟩ := (hfair hjust hback).missing cx id reason hactivate
        exact blamed_of_asks hasks hnot

/-- A step that is blameless keeps the cache and the notes true. -/
theorem truthful_step (hreg : Registered env (Known env roots)) {m : Machine S R}
    (hok : MachineOk (Accounted env roots) m) (hblameless : Blameless env roots m)
    (h : Truthful env roots m) : Truthful env roots (step env m) := by
  match m with
  | .done r => trivial
  | .outer s =>
    simp only [step, outerStep]
    split
    · trivial
    · rename_i just parent info rest hpop
      refine ⟨h, fun _ _ q hq => Or.inl ?_⟩
      obtain ⟨hperm, -, -⟩ := popMostConstrained_eq_some hpop
      obtain ⟨-, -, -, hquery⟩ := hok.1.pending (parent, info) (hperm.mem_iff.mpr (by simp))
      -- nothing was tried yet: every package that answers is a candidate that remains
      obtain ⟨c, hc, rfl⟩ := RegistryQueryer.exists_candidate hquery hq
      exact ⟨c, Or.inl hc, rfl⟩
  | .inner s a =>
    obtain ⟨hpast, haccused⟩ := h
    obtain ⟨hchoice, hstack⟩ := hok
    simp only [step, innerStep]
    split
    · rename_i c more rc con hnext
      rcases hchoice with ⟨candidates, hcx, hrc⟩ | hexhausted
      · obtain ⟨hc, -, -, -⟩ := nextLoop_some hnext hrc
        refine truthful_tryCandidate (a := { a with remainingCandidates := rc, conflicting := con })
          hreg hpast hcx hc more ?_ ?_
        · intro hjust hback
          obtain ⟨hmissing, hown, hrelated⟩ := hblameless hjust hback c more (by rw [hnext])
          exact ⟨hmissing, hown, hrelated⟩
        · intro hjust hback q hq
          rcases accused_next hreg (Or.inl ⟨candidates, hcx, hrc⟩) (haccused hjust hback) hnext hq
            with ⟨c', more', hout, rfl⟩ | hrest
          · cases hout
            exact Or.inl rfl
          · exact Or.inr hrest
      · rw [next_of_exhausted hexhausted] at hnext
        cases hnext
    · rename_i rc con hnext
      unfold backtrack
      extract_lets past
      -- all candidates are refuted, so that what is noted about the dependency is true
      have hrefuted : a.justHere = false → a.backtracked = false → Refuted env roots a.dep con :=
        fun hjust hback => refuted_of_next hreg hchoice (haccused hjust hback) hnext
      have hpast' : PastTrue env roots past := pastTrue_backtrack hpast hrefuted
      split
      · trivial
      · rename_i c more frame stack hfind
        obtain ⟨skipped, frame₀, heq, hnext', hframe⟩ := findCandidate_some hfind
        obtain ⟨candidates, hcx, hrc⟩ := hstack frame₀ (by rw [heq]; simp)
        obtain ⟨hc, -, -, -⟩ := nextLoop_some hnext' hrc
        rw [hframe]
        -- the frame that goes on has a history of its own: nothing is said about it
        exact truthful_tryCandidate hreg hpast' hcx hc more (by simp) (by simp)

/-- The cache of a state. -/
def Machine.past? : Machine S R → Option (ConflictCache S R)
  | .outer s => some s.past
  | .inner s _ => some s.past
  | .done _ => none

/-- In a run whose steps are all blameless, the cache and the notes are true. -/
theorem truthful_of_reaches (hreg : Registered env (Known env roots))
    (hblameless : ∀ m, Reaches env roots m → Blameless env roots m) {m : Machine S R}
    (h : Reaches env roots m) : Truthful env roots m := by
  obtain ⟨n, rfl⟩ := h
  induction n with
  | zero =>
    rw [Function.iterate_zero_apply]
    unfold start
    split
    · trivial
    · intro dep con hmem
      cases hmem
  | succ n ih =>
    rw [Function.iterate_succ_apply']
    exact truthful_step hreg (accounted_of_reaches hreg ⟨n, rfl⟩) (hblameless _ ⟨n, rfl⟩) ih

/-- In a run whose steps are all blameless, every entry of the cache is true in every state. -/
theorem conflictCache_true (hreg : Registered env (Known env roots))
    (hblameless : ∀ m, Reaches env roots m → Blameless env roots m) {m : Machine S R}
    (hm : Reaches env roots m) {past : ConflictCache S R} (hpast : m.past? = some past)
    {dep : Dependency S R} {con : Conflicts S} (h : past.Mem dep con) :
    EntryTrue env roots dep con := by
  have htruthful := truthful_of_reaches hreg hblameless hm
  match m with
  | .outer s =>
    cases hpast
    exact (htruthful dep con h).entryTrue
  | .inner s a =>
    cases hpast
    exact (htruthful.1 dep con h).entryTrue
  | .done r => cases hpast

end Step

/-! ### Features that stay in their package -/

omit [DecidableEq S] [DecidableEq R] in
/-- Features turn on other features of their package, but ask nothing of its dependencies; no
dependency is optional, and one that leads back to a root asks for no features there. -/
structure Contained (env : Env S R) (roots : List (Summary S R × Method)) : Prop where
  values : ∀ s, Known env roots s → ∀ f values, s.features.lookup f = some values →
    ∀ n g, .crateFeature n g ∉ values
  asked : ∀ s, Known env roots s → ∀ d ∈ s.dependencies, d.optional = false ∧ "" ∉ d.features
  requested : ∀ root ∈ roots, ∀ f ∈ root.2.requested, '/' ∉ f.toList
  back : ∀ s, Known env roots s → ∀ d ∈ s.dependencies, ∀ root ∈ roots,
    root.1.packageId.slot = d.slot → d.features = [] ∧ root.1.features = ∅

section Contained

variable {env : Env S R} {roots : List (Summary S R × Method)}

/-- Nothing is asked of any dependency. -/
def Requirements.Unasked (reqs : Requirements) : Prop :=
  ∀ n flag fs, reqs.deps.lookup n = some (flag, fs) → fs = []

theorem Requirements.Unasked.entry {reqs : Requirements} (h : reqs.Unasked) (n : String) :
    (reqs.entry n).2 = [] := by
  unfold Requirements.entry
  cases hlookup : reqs.deps.lookup n with
  | none => rfl
  | some entry => exact h n entry.1 entry.2 hlookup

omit [DecidableEq S] [DecidableEq R] in
/-- No walk over the features of a package asks anything of its dependencies. -/
theorem Contained.walk (h : Contained env roots) {s : Summary S R} (hs : Known env roots s) :
    Requirements.Walk s (fun v => ∀ n g, v ≠ .crateFeature n g) Requirements.Unasked where
  values f values _ _ hvalues v hv n g hvalue := h.values s hs f values hvalues n g (hvalue ▸ hv)
  mark reqs f hreqs _ _ _ := hreqs
  dependency reqs n hreqs _ := by
    unfold Requirements.requireDependency
    split
    · exact hreqs
    · intro m flag fs hlookup
      by_cases hm : m = n
      · subst hm
        rw [Finmap.lookup_insert, Option.some.injEq, Prod.mk.injEq] at hlookup
        rw [← hlookup.2]
        exact hreqs.entry m
      · rw [Finmap.lookup_insert_of_ne _ hm] at hlookup
        exact hreqs m flag fs hlookup
  crateFeature reqs n g _ hallowed := absurd rfl (hallowed n g)

omit [DecidableEq S] [DecidableEq R] in
/-- Whatever is requested of a package, nothing is asked of its dependencies. -/
theorem Contained.unasked (h : Contained env roots) {s : Summary S R} (hs : Known env roots s)
    {method : Method} (hmethod : ∀ f ∈ method.requested, '/' ∉ f.toList) {reqs : Requirements}
    (hreqs : buildRequirements s method = .ok reqs) : reqs.Unasked := by
  have hvalue : ∀ f : String, '/' ∉ f.toList → ∀ n g, featureValue s f ≠ .crateFeature n g := by
    intro f hf n g
    rw [featureValue, FeatureValue.build, if_neg hf]
    split_ifs <;> simp
  have hstarts : ∀ v ∈ starts s method, ∀ n g, v ≠ .crateFeature n g := by
    intro v hv n g
    rcases List.mem_append.mp hv with hv | hv
    · unfold requestedValues at hv
      split at hv
      · simp only [List.mem_append, List.mem_map] at hv
        rcases hv with ⟨f, -, rfl⟩ | ⟨d, -, rfl⟩ <;> simp
      · simp only [List.mem_append, List.mem_map] at hv
        rcases hv with ⟨f, -, rfl⟩ | ⟨d, -, rfl⟩ <;> simp
      · obtain ⟨f, hf, rfl⟩ := List.mem_map.mp hv
        exact hvalue f (hmethod f hf) n g
    · split_ifs at hv
      · simp [List.mem_singleton.mp hv]
      · cases hv
  rw [buildRequirements_eq] at hreqs
  refine foldlM_ok_induction (P := fun _ r => r.Unasked) hreqs (fun n flag fs hlookup => by
    cases hlookup) ?_
  intro pre v post r r' hl hr hv
  exact (h.walk hs).requireValue hv (hstarts v (by rw [hl]; simp)) hr

omit [DecidableEq S] [DecidableEq R] in
/-- Nothing is required of a package without features by a dependency that asks for none. -/
theorem buildRequirements_of_nothing {s : Summary S R} (hs : s.features = ∅) {dep : Dependency S R}
    (hdep : dep.features = []) : buildRequirements s (ownMethod dep) = .ok Requirements.new := by
  have hdefault : ¬ ((ownMethod dep).usesDefault = true ∧ "default" ∈ s.features) := by
    rw [hs]
    exact fun h => Finmap.notMem_empty h.2
  rw [buildRequirements_eq, starts, if_neg hdefault, ownMethod, hdep]
  rfl

/-- What is asked of a dependency that waits is what it asks for itself. -/
def OwnFeatures (pending : Pending S R) : Prop :=
  ∀ e ∈ pending, e.2.features = e.2.dep.features ∧ ∀ f ∈ e.2.features, '/' ∉ f.toList

omit [DecidableEq R] in
theorem ownFeatures_of_frame (h : Contained env roots) {cx cx' : Context S R}
    {parent : Option (Summary S R × Dependency S R)} {c : Candidate S R} {method : Method}
    {frame : DepsFrame S R} (hactivate : activate env cx parent c method = .ok (cx', .frame frame))
    (hreplace : c.replace = none) (hs : Known env roots c.summary)
    (hmethod : ∀ f ∈ method.requested, '/' ∉ f.toList) {pending : Pending S R}
    (hpending : OwnFeatures pending) : OwnFeatures (frame.flatten ++ pending) := by
  rcases activate_ok hactivate hreplace with ⟨hout, -⟩ | ⟨mid, reqs, infos, -, hexp, hout⟩ |
    ⟨_, _, _, _, _, hout⟩
  · cases hout
  · cases hout
    intro e he
    rcases List.mem_append.mp he with he | he
    · obtain ⟨info, hinfo, rfl⟩ := List.mem_map.mp he
      obtain ⟨d, -, -, -, hdep, hfeatures, -⟩ := (hexp.mem_infos info).mp hinfo
      refine ⟨?_, hexp.no_slash info hinfo⟩
      rw [hfeatures, (h.unasked hs hmethod hexp.reqs_eq).entry, hdep, List.nil_append]
    · exact hpending e he
  · cases hout

variable [VersionReq R]

omit [DecidableEq R] in
theorem ownFeatures_kept (hreg : Registered env (Known env roots)) (h : Contained env roots) :
    Kept env (fun cx pending => Accounted env roots cx pending ∧ OwnFeatures pending) where
  perm := fun cx l l' hperm hl =>
    ⟨(Accounted.kept hreg).perm cx l l' hperm hl.1, fun e he => hl.2 e (hperm.mem_iff.mpr he)⟩
  already := fun cx cx' parent info rest c hl hc hvalid hactivate =>
    ⟨(Accounted.kept hreg).already cx cx' parent info rest c hl.1 hc hvalid hactivate,
      fun e he => hl.2 e (by simp [he])⟩
  frame := by
    intro cx cx' parent info rest c frame hl hc hvalid hactivate
    refine ⟨(Accounted.kept hreg).frame cx cx' parent info rest c frame hl.1 hc hvalid hactivate,
      ?_⟩
    obtain ⟨-, -, -, hquery⟩ := hl.1.pending (parent, info) (by simp)
    obtain ⟨hs, -, hreplace⟩ := hreg.candidate hquery hc
    exact ownFeatures_of_frame h hactivate hreplace hs (hl.2 (parent, info) (by simp)).2
      (fun e he => hl.2 e (by simp [he]))

theorem ownFeatures_of_reaches (hreg : Registered env (Known env roots)) (h : Contained env roots)
    {m : Machine S R} (hm : Reaches env roots m) :
    MachineOk (fun cx pending => Accounted env roots cx pending ∧ OwnFeatures pending) m := by
  refine machineOk_of_reaches (ownFeatures_kept hreg h) ?_ hm
  refine machineOk_start (ownFeatures_kept hreg h) ⟨accounted_new, by simp [OwnFeatures]⟩ ?_ ?_
  · exact fun _ _ _ _ _ hcx hactivate => ⟨hcx.1.root_already hactivate, hcx.2⟩
  · intro root hroot cx cx' frame pending hcx hactivate
    exact ⟨hcx.1.root_frame hreg hroot hactivate,
      ownFeatures_of_frame h hactivate rfl (Or.inl ⟨root, hroot, rfl⟩) (h.requested root hroot)
        hcx.2⟩

omit [VersionReq R] in
/-- A past conflict of one of the dependencies of the frame. -/
theorem ownConflict_eq_some {past : ConflictCache S R} {cx : Context S R} {frame : DepsFrame S R}
    {con : Conflicts S} (h : ownConflict past cx frame = some con) :
    ∃ info ∈ frame.remainingSiblings, past.conflicting cx info.dep = some con :=
  List.exists_of_findSome?_eq_some h

omit [VersionReq R] in
/-- A past conflict of one of the dependencies that wait. -/
theorem relatedConflict_eq_some {past : ConflictCache S R} {cx : Context S R}
    {pid p : PackageId S} {remainingDeps : RemainingDeps S R} {con : Conflicts S}
    (h : relatedConflict past cx pid remainingDeps = some (p, con)) :
    ∃ e ∈ remainingDeps.pending, e.1.packageId = p ∧ past.Mem e.2.dep con ∧
      ∀ id ∈ con.keys, cx.isActive id = true := by
  unfold relatedConflict at h
  split at h
  · cases h
  · obtain ⟨e, he, hfound⟩ := List.exists_of_findSome?_eq_some h
    simp only at hfound
    split at hfound
    · obtain ⟨con', hfind, hcon'⟩ := Option.map_eq_some_iff.mp hfound
      cases hcon'
      obtain ⟨hmem, -, hactive⟩ := ConflictCache.findConflicting_eq_some hfind
      exact ⟨e, he, rfl, hmem, hactive⟩
    · cases hfound

omit [DecidableEq S] [DecidableEq R] [VersionReq R] in
/-- What is asked of a candidate is what the dependency names. -/
theorem method_eq_ownMethod {a : Attempt S R} (hfeatures : a.features = a.dep.features)
    (hnamed : "" ∉ a.dep.features) : a.method = ownMethod a.dep := by
  have hfilter : a.dep.features.filter (· ≠ "") = a.dep.features := by
    refine List.filter_eq_self.mpr fun f hf => ?_
    simpa using fun hempty : f = "" => hnamed (hempty ▸ hf)
  rw [Attempt.method, ownMethod, hfilter]
  exact congrArg (Method.required false · false a.dep.defaultFeatures) hfeatures

omit [DecidableEq R] in
/-- If features stay in their package, a feature that a candidate lacks is one that the dependency
names. -/
theorem missing_of_contained (hreg : Registered env (Known env roots)) (h : Contained env roots)
    {a : Attempt S R} {c : Candidate S R} {cx cx' : Context S R} {id : PackageId S}
    {reason : ConflictReason}
    (hparent : Known env roots a.parent) (hdep : a.dep ∈ a.parent.dependencies)
    (hmethod : a.method = ownMethod a.dep) (hs : Known env roots c.summary)
    (hfulfils : Fulfils a.dep c.summary.packageId) (hreplace : c.replace = none)
    (hactivate : activate env cx (some (a.parent, a.dep)) c a.method =
      .ok (cx', .conflict id reason)) :
    ∃ n, Asks a.dep c.summary n ∧ ¬ HasDependency roots c.summary n := by
  rcases activate_ok hactivate hreplace with ⟨hout, -⟩ | ⟨_, _, _, _, _, hout⟩ |
    ⟨mid, _, _, -, hlacking, -⟩
  · cases hout
  · cases hout
  · obtain ⟨reqs, hreqs, n, hn, hnot⟩ := hlacking.lacking
    rw [hmethod] at hreqs
    refine ⟨n, ⟨reqs, hreqs, hn⟩, ?_⟩
    rintro ⟨d, hd, htransitive | ⟨root, hroot, hid, -⟩, hname⟩
    · exact hnot d hd (.inl htransitive) hname
    -- the candidate is a root, of which nothing is asked
    · have hroot' : root.1 = c.summary := hreg.coherent _ _ (.inl ⟨root, hroot, rfl⟩) hs hid
      obtain ⟨hnone, hdeclared⟩ := h.back _ hparent _ hdep root hroot (by
        rw [hid]
        exact Prod.ext hfulfils.1 hfulfils.2.1)
      rw [buildRequirements_of_nothing (hroot' ▸ hdeclared) hnone] at hreqs
      cases hreqs
      exact Finmap.notMem_empty hn

omit [VersionReq R] in
/-- A dependency of the frame that is known to fail is not optional. -/
theorem own_of_contained (h : Contained env roots) {s : Search S R} {a : Attempt S R}
    {c : Candidate S R} {cx : Context S R} {frame : DepsFrame S R} {con : Conflicts S}
    (hs : Known env roots c.summary) (hreplace : c.replace = none)
    (hactivate : activate env s.cx (some (a.parent, a.dep)) c a.method = .ok (cx, .frame frame))
    (hown : ownConflict s.past cx frame = some con) :
    ∃ info ∈ frame.remainingSiblings, s.past.conflicting cx info.dep = some con ∧
      info.dep.optional = false := by
  obtain ⟨info, hinfo, hconflict⟩ := ownConflict_eq_some hown
  refine ⟨info, hinfo, hconflict, ?_⟩
  rcases activate_ok hactivate hreplace with ⟨hout, -⟩ |
    ⟨mid, reqs, infos, -, hexp, hout⟩ | ⟨_, _, _, _, _, hout⟩
  · cases hout
  · cases hout
    obtain ⟨d, hd, -, -, rfl, -⟩ := (hexp.mem_infos info).mp hinfo
    exact (h.asked _ hs _ hd).1
  · cases hout

/-- If features stay in their package, then candidates are given up for missing features only if
the dependency itself asks for these. -/
theorem blameless_of_contained (hreg : Registered env (Known env roots))
    (h : Contained env roots) {m : Machine S R} (hm : Reaches env roots m) :
    Blameless env roots m := by
  have hok := ownFeatures_of_reaches hreg h hm
  match m with
  | .done r => trivial
  | .outer s => trivial
  | .inner s a =>
    intro _ _ c more hnext
    obtain ⟨hchoice, -⟩ := hok
    cases hnext' : a.remainingCandidates.next a.conflicting s.cx a.dep with
    | mk out rest =>
      rw [hnext'] at hnext
      obtain rfl : out = some (c, more) := hnext
      rcases hchoice with ⟨candidates, ⟨hcx, hown⟩, hrc⟩ | hexhausted
      · obtain ⟨hc, -, -, -⟩ := nextLoop_some hnext' hrc
        obtain ⟨hactive, hdep, -, hquery⟩ :=
          hcx.pending (a.parent, ⟨a.dep, candidates, a.features⟩) (by simp)
        obtain ⟨hs, hfulfils, hreplace⟩ := hreg.candidate hquery hc
        have hparent := hcx.known _ _ hactive
        obtain ⟨-, hnamed⟩ := h.asked _ hparent _ hdep
        obtain ⟨hfeatures, -⟩ := hown (a.parent, ⟨a.dep, candidates, a.features⟩) (by simp)
        have hmethod := method_eq_ownMethod hfeatures hnamed
        refine ⟨?_, ?_, ?_⟩
        · intro cx id reason hactivate
          exact missing_of_contained hreg h hparent hdep hmethod hs hfulfils hreplace hactivate
        · intro cx frame con hactivate hown
          obtain ⟨info, hinfo, hconflict, hoptional⟩ :=
            own_of_contained h hs hreplace hactivate hown
          refine ⟨info, hinfo, hconflict, fun ho => ?_⟩
          rw [hoptional] at ho
          cases ho
        · intro cx frame p con _ _ hrelated
          obtain ⟨e, he, hp, hmem, -⟩ := relatedConflict_eq_some hrelated
          obtain ⟨hactive, hd, -⟩ := hcx.pending e (by simp [he])
          exact ⟨e, he, hp, hmem, (h.asked _ (hcx.known _ _ hactive) _ hd).1⟩
      · rw [next_of_exhausted hexhausted] at hnext'
        cases hnext'

end Contained

/-! ### Registries without features -/

omit [DecidableEq S] [DecidableEq R] in
/-- No features are declared or asked for, and no dependency is optional. -/
structure Featureless (env : Env S R) (roots : List (Summary S R × Method)) : Prop where
  declared : ∀ s, Known env roots s → s.features = ∅
  asked : ∀ s, Known env roots s → ∀ d ∈ s.dependencies, d.optional = false ∧ d.features = []
  requested : ∀ root ∈ roots, root.2.requested = []

section Featureless

variable {env : Env S R} {roots : List (Summary S R × Method)}

omit [DecidableEq S] [DecidableEq R] in
/-- Without features nothing is required. -/
theorem Featureless.requirements (h : Featureless env roots) {s : Summary S R}
    (hs : Known env roots s) {method : Method} (hmethod : method.requested = [])
    {reqs : Requirements} (hreqs : buildRequirements s method = .ok reqs) :
    reqs = Requirements.new := by
  have hdeclared := h.declared s hs
  have hkeys : sortedKeys s.features = [] := by
    rw [hdeclared]
    simp [sortedKeys]
  have hoptional : s.dependencies.filter (·.optional) = [] := by
    rw [List.filter_eq_nil_iff]
    intro d hd
    simp [(h.asked s hs d hd).1]
  have hrequested : ∀ mid, requireRequested s method = .ok mid → mid = Requirements.new := by
    intro mid hmid
    unfold requireRequested at hmid
    split at hmid
    · rw [hkeys, hoptional] at hmid
      exact (Except.ok.inj hmid).symm
    · rw [hkeys, hoptional] at hmid
      exact (Except.ok.inj hmid).symm
    · obtain rfl := hmethod
      exact (Except.ok.inj hmid).symm
  obtain ⟨mid, hmid, hreqs⟩ := bind_eq_ok.mp hreqs
  rw [hdeclared, if_neg (fun hdefault => Finmap.notMem_empty hdefault.2)] at hreqs
  rw [← Except.ok.inj hreqs]
  exact hrequested mid hmid

omit [DecidableEq S] [DecidableEq R] in
theorem Featureless.contained (h : Featureless env roots) : Contained env roots where
  values s hs f values hvalues := by
    rw [h.declared s hs] at hvalues
    cases hvalues
  asked s hs d hd := by simp [h.asked s hs d hd]
  requested root hroot f hf := by
    rw [h.requested root hroot] at hf
    cases hf
  back s hs d hd root hroot _ :=
    ⟨(h.asked s hs d hd).2, h.declared _ (Or.inl ⟨root, hroot, rfl⟩)⟩

omit [DecidableEq R] in
/-- Nothing is asked of a dependency that waits. -/
theorem Featureless.unasked (h : Featureless env roots) {cx : Context S R} {pending : Pending S R}
    (hcx : Accounted env roots cx pending) (hown : OwnFeatures pending) :
    ∀ e ∈ pending, e.2.features = [] := by
  intro e he
  obtain ⟨hactive, hd, -⟩ := hcx.pending e he
  rw [(hown e he).1, (h.asked _ (hcx.known _ _ hactive) _ hd).2]

end Featureless

/-! ### Examples -/

section Examples

omit [DecidableEq R] in
/-- A registry given as a list of packages whose features stay in their package. -/
theorem contained_ofList [VersionReq R] {env : Env S R} {roots : List (Summary S R × Method)}
    {packages : List (Summary S R)} (hregistry : env.registry = .ofList packages)
    (hvalues : ∀ s ∈ roots.map Prod.fst ++ packages, ∀ f values,
      s.features.lookup f = some values → ∀ n g, .crateFeature n g ∉ values)
    (hdeps : ∀ s ∈ roots.map Prod.fst ++ packages, ∀ d ∈ s.dependencies,
      (d.optional = false ∧ "" ∉ d.features) ∧
        ∀ root ∈ roots, root.1.packageId.slot ≠ d.slot)
    (hroots : ∀ root ∈ roots, ∀ f ∈ root.2.requested, '/' ∉ f.toList) : Contained env roots :=
  ⟨fun s hs => hvalues s (mem_of_known hregistry hs),
    fun s hs d hd => (hdeps s (mem_of_known hregistry hs) d hd).1, hroots,
    fun s hs d hd root hroot hslot =>
      absurd hslot ((hdeps s (mem_of_known hregistry hs) d hd).2 root hroot)⟩

omit [DecidableEq R] in
/-- A registry given as a list of packages without features. -/
theorem featureless_ofList [VersionReq R] {env : Env S R} {roots : List (Summary S R × Method)}
    {packages : List (Summary S R)} (hregistry : env.registry = .ofList packages)
    (hpackages : ∀ s ∈ roots.map Prod.fst ++ packages, s.features = ∅ ∧
      ∀ d ∈ s.dependencies, d.optional = false ∧ d.features = [])
    (hroots : ∀ root ∈ roots, root.2.requested = []) : Featureless env roots :=
  ⟨fun s hs => (hpackages s (mem_of_known hregistry hs)).1,
    fun s hs => (hpackages s (mem_of_known hregistry hs)).2, hroots⟩

/-- Version `1.n.0`. -/
def minor (n : ℕ) : Version := ⟨1, n, 0, []⟩

/-- A package without features, with dependencies on the versions listed. -/
def plainPackage (name : String) (version : Version)
    (dependencies : List (String × List Version)) : Summary ℕ (List Version) where
  packageId := ⟨name, version, 0⟩
  dependencies := dependencies.map fun d => .parse d.1 d.2 0
  features := ∅
  checksum := none
  links := none
  namespacedFeatures := false
  names_disjoint := fun _ _ _ => Finmap.notMem_empty
  optional_transitive := by
    intro d hd _
    obtain ⟨_, -, rfl⟩ := List.mem_map.mp hd
    rfl

/-- A dependency on a version of `c` that asks for a feature. -/
def askingFor (version : Version) (feature : String) : Dependency ℕ (List Version) :=
  { Dependency.parse "c" [version] 0 with features := [feature] }

/-- A package that depends on a version of `c` with a feature. -/
def askingPackage (name : String) (version cVersion : Version) (feature : String) :
    Summary ℕ (List Version) :=
  { plainPackage name version [] with
    dependencies := [askingFor cVersion feature]
    names_disjoint := fun _ _ _ => Finmap.notMem_empty
    optional_transitive := by simp [askingFor, Dependency.parse, Dependency.isTransitive] }

/-- A version of `c` with the feature `fast`, which is on by default. -/
def fastPackage (version : Version) : Summary ℕ (List Version) :=
  { plainPackage "c" version [] with
    features := (Finmap.singleton "fast" []).insert "default" [.feature "fast"]
    names_disjoint := by simp [plainPackage]
    optional_transitive := by simp [plainPackage] }

/-- Version `1.1.0` of `a` and package `b` need different versions of `c`, and version `1.2.0` of
`a` needs a feature that `c` does not have. -/
def clashPackages : List (Summary ℕ (List Version)) :=
  [plainPackage "a" (minor 0) [], askingPackage "a" (minor 1) (minor 0) "fast",
    askingPackage "a" (minor 2) (minor 1) "slow", askingPackage "b" (minor 0) (minor 1) "fast",
    fastPackage (minor 0), fastPackage (minor 1)]

/-- A root that needs any version of `a` and package `b`. -/
def clashRoot : Summary ℕ (List Version) :=
  plainPackage "root" (minor 0) [("a", [minor 0, minor 1, minor 2]), ("b", [minor 0])]

/-- The root is resolved with its development dependencies. -/
def clashRoots : List (Summary ℕ (List Version) × Method) :=
  [(clashRoot, .required true [] false true)]

/-- The packages that clash as a registry. -/
noncomputable def clashEnv : Env ℕ (List Version) where
  registry := .ofList clashPackages
  heap := .simple
  names _ _ := .following ["default", "fast", "slow"]
  ids _ := .following ((clashRoot :: clashPackages).map Summary.packageId)

theorem contained_clash : Contained clashEnv clashRoots := by
  have hall : ∀ s ∈ clashRoots.map Prod.fst ++ clashPackages, ∀ f ∈ s.features,
      s.features.lookup f = some [] ∨ s.features.lookup f = some [.feature "fast"] := by
    have hkeys : ∀ s ∈ clashRoots.map Prod.fst ++ clashPackages, ∀ f ∈ s.features.keys,
        s.features.lookup f = some [] ∨ s.features.lookup f = some [.feature "fast"] := by decide
    exact fun s hs f hf => hkeys s hs f (Finmap.mem_keys.mpr hf)
  refine contained_ofList rfl ?_ (by decide) (by decide)
  intro s hs f values hvalues n g hmem
  rcases hall s hs f (Finmap.mem_of_lookup_eq_some hvalues) with heq | heq
  · rw [heq, Option.some.injEq] at hvalues
    subst hvalues
    cases hmem
  · rw [heq, Option.some.injEq] at hvalues
    subst hvalues
    cases List.mem_singleton.mp hmem

/-- The cache learns that `c` cannot be had as version `1.2.0` of `a` asks for it, and that version
`1.0.0` of `c` cannot be had next to version `1.1.0`. Both is true. -/
theorem conflictCache_true_clash : ∃ m past, Reaches clashEnv clashRoots m ∧
    m.past? = some past ∧
    (past.Mem (askingFor (minor 1) "slow")
        (Finmap.singleton ⟨"a", minor 2, 0⟩ (.missingFeatures "slow")) ∧
      EntryTrue clashEnv clashRoots (askingFor (minor 1) "slow")
        (Finmap.singleton ⟨"a", minor 2, 0⟩ (.missingFeatures "slow"))) ∧
    past.Mem (askingFor (minor 0) "fast") (Finmap.singleton ⟨"c", minor 1, 0⟩ .semver) ∧
      EntryTrue clashEnv clashRoots (askingFor (minor 0) "fast")
        (Finmap.singleton ⟨"c", minor 1, 0⟩ .semver) := by
  have hrun : ((step clashEnv)^[11] (start clashEnv clashRoots)).past?.any (fun past =>
      decide (Finmap.singleton ⟨"a", minor 2, 0⟩ (.missingFeatures "slow") ∈
          past.past (askingFor (minor 1) "slow") ∧
        Finmap.singleton ⟨"c", minor 1, 0⟩ .semver ∈
          past.past (askingFor (minor 0) "fast"))) = true := by
    decide +kernel
  obtain ⟨past, hpast, hmem⟩ := (Option.any_eq_true _ _).mp hrun
  obtain ⟨hslow, hfast⟩ := of_decide_eq_true hmem
  have hU : Universe clashEnv (Known clashEnv clashRoots) :=
    universe_ofList rfl (by decide) (by decide)
  have hreg := hU.toRegistered
  have htrue := fun {dep con} (hmem : past.Mem dep con) => conflictCache_true hreg
    (fun m hm => blameless_of_contained hreg contained_clash hm) ⟨11, rfl⟩ hpast hmem
  exact ⟨_, past, ⟨11, rfl⟩, hpast, ⟨hslow, htrue hslow⟩, hfast, htrue hfast⟩

/-- A package whose feature `f` asks for the feature `feat` of `d`. -/
def sharedPackage : Summary ℕ (List Version) where
  packageId := ⟨"p", minor 0, 0⟩
  dependencies := [.parse "d" [minor 0] 0]
  features := Finmap.singleton "f" [.crateFeature "d" "feat"]
  checksum := none
  links := none
  namespacedFeatures := false
  names_disjoint := by decide
  optional_transitive := by decide

/-- The packages of a branch that can be completed: `x` asks for nothing of `p`. -/
def branchChoice : List (Summary ℕ (List Version)) :=
  [plainPackage "x" (minor 0) [("p", [minor 0])], sharedPackage, plainPackage "d" (minor 0) []]

/-- Version `1.1.0` of `x` asks for the feature `f` of `p`. -/
def branchDead : Summary ℕ (List Version) :=
  { plainPackage "x" (minor 1) [] with
    dependencies := [{ Dependency.parse "p" [minor 0] 0 with features := ["f"] }]
    names_disjoint := by decide
    optional_transitive := by decide }

/-- A root that needs any version of `x`. -/
def branchRoot : Summary ℕ (List Version) :=
  plainPackage "root" (minor 0) [("x", [minor 0, minor 1])]

/-- The root is resolved with its development dependencies. -/
def branchRoots : List (Summary ℕ (List Version) × Method) :=
  [(branchRoot, .required true [] false true)]

/-- The packages of both branches as a registry. -/
noncomputable def branchEnv : Env ℕ (List Version) where
  registry := .ofList (branchDead :: branchChoice)
  heap := .simple
  names _ _ := .following ["f", "feat", "d"]
  ids _ := .following ((branchRoot :: branchDead :: branchChoice).map Summary.packageId)

/-- The root with the first choice for everything else, no features recorded. -/
def branchSelection : Selection ℕ (List Version) where
  packages := {s | s ∈ branchRoot :: branchChoice}
  features _ := ∅

/-- A dependency of the selection is fulfilled by whatever package it accepts. -/
theorem branch_uses {s q : Summary ℕ (List Version)} {d : Dependency ℕ (List Version)}
    (hs : s ∈ branchRoot :: branchChoice) (hd : d ∈ s.dependencies) (hq : q ∈ branchChoice)
    (hfulfils : q.packageId.slot = d.slot ∧ VersionReq.accepts d.req q.packageId.version = true) :
    Uses branchEnv branchRoots branchSelection s d q := by
  have hplain : ∀ s ∈ branchRoot :: branchChoice, ∀ d ∈ s.dependencies,
      d.features = [] ∧ d.optional = false ∧ d.isTransitive = true := by decide
  have hdefault : ∀ q ∈ branchChoice, "default" ∉ q.features := by decide
  obtain ⟨hfeatures, hoptional, htrans⟩ := hplain s hs d hd
  refine ⟨⟨hd, Or.inl htrans, by simp [hoptional]⟩, List.mem_cons_of_mem _ hq, ⟨_, rfl, ?_⟩, ?_, ?_⟩
  · exact List.mem_filter.mpr ⟨List.mem_cons_of_mem _ hq, by simp [hfulfils]⟩
  · simp [hfeatures]
  · exact fun _ hmem => absurd hmem (hdefault q hq)

/-- Every dependency of the selection has a package that fulfils it. -/
theorem branch_exists : ∀ s ∈ branchRoot :: branchChoice, ∀ d ∈ s.dependencies,
    ∃ q ∈ branchChoice, q.packageId.slot = d.slot ∧
      VersionReq.accepts d.req q.packageId.version = true := by decide

theorem branchSelection_consistent : Consistent branchEnv branchRoots branchSelection := by
  constructor
  case known =>
    intro s hs
    rcases List.mem_cons.mp hs with rfl | hs
    · exact Or.inl ⟨_, List.mem_singleton.mpr rfl, rfl⟩
    · refine Or.inr ⟨.parse s.packageId.name [s.packageId.version] s.packageId.sourceId, _, rfl, ?_⟩
      refine List.mem_filter.mpr ⟨List.mem_cons_of_mem _ hs, ?_⟩
      simp [PackageId.slot, Dependency.slot, Dependency.parse, VersionReq.accepts]
  case root_mem =>
    intro root hroot
    rw [List.mem_singleton.mp hroot]
    exact List.mem_cons_self
  case enabled =>
    rintro s hs d ⟨hd, -, -⟩
    obtain ⟨q, hq, hfulfils⟩ := branch_exists s hs d hd
    exact ⟨q, (branch_uses hs hd hq hfulfils).2⟩
  case semver =>
    intro s hs t ht hslot _
    have hslots : ∀ s ∈ branchRoot :: branchChoice, ∀ t ∈ branchRoot :: branchChoice,
        s.packageId.slot = t.packageId.slot → s.packageId = t.packageId := by decide
    exact hslots s hs t ht hslot
  case links =>
    intro s hs t _ link hlink
    have hnone : ∀ s ∈ branchRoot :: branchChoice, s.links = none := by decide
    rw [hnone s hs] at hlink
    cases hlink
  case closed =>
    intro s _ f hf
    cases hf

/-- The selection is a complete activation. -/
theorem branchSelection_valid : Valid branchEnv branchRoots branchSelection := by
  have hreqs : buildRequirements branchRoot (.required true [] false true) =
      .ok Requirements.new := rfl
  refine ⟨branchSelection_consistent, ?_, ?_, ?_, ?_⟩
  · rintro s _ d _ _ g _ ⟨f, hf, -⟩
    cases hf
  · intro root hroot reqs h
    obtain rfl := List.mem_singleton.mp hroot
    rw [hreqs] at h
    cases h
    exact subset_rfl
  · rintro root hroot d _ _ g _ ⟨reqs, flag, fs, h, hlookup, -⟩
    obtain rfl := List.mem_singleton.mp hroot
    rw [hreqs] at h
    cases h
    cases hlookup
  · -- The packages form a chain that begins with the root.
    have hchain : (branchRoot :: branchChoice).IsChain (fun p q =>
        ∃ d, Uses branchEnv branchRoots branchSelection p d q) := by
      have hnext : ∀ p ∈ branchRoot :: branchChoice, ∀ q ∈ branchChoice,
          (∃ d ∈ p.dependencies, q.packageId.slot = d.slot ∧
            VersionReq.accepts d.req q.packageId.version = true) →
          ∃ d, Uses branchEnv branchRoots branchSelection p d q :=
        fun p hp q hq ⟨d, hd, hfulfils⟩ => ⟨d, branch_uses hp hd hq hfulfils⟩
      simp only [branchChoice, List.isChain_cons_cons, List.isChain_singleton, and_true]
      refine ⟨hnext _ ?_ _ ?_ ?_, hnext _ ?_ _ ?_ ?_, hnext _ ?_ _ ?_ ?_⟩ <;>
        first | decide | simp [branchChoice]
    intro s hs
    refine ⟨_, List.mem_singleton.mpr rfl, ?_⟩
    exact hchain.induction (Relation.ReflTransGen _ branchRoot) _
      (fun _ _ huse hpath => hpath.tail huse)
      (fun _ => .refl) s hs

/-- The cache learns that `d` cannot be had next to `p`, since it lacks a feature that the
branch at hand asks for. Another branch needs no such feature. -/
theorem conflictCache_false : Universe branchEnv (Known branchEnv branchRoots) ∧
    ∃ m past dep con, Reaches branchEnv branchRoots m ∧ m.past? = some past ∧
      past.Mem dep con ∧ ¬ EntryTrue branchEnv branchRoots dep con := by
  have hrun : ((step branchEnv)^[8] (start branchEnv branchRoots)).past?.any (fun past =>
      decide (Finmap.singleton ⟨"p", minor 0, 0⟩ (.missingFeatures "feat") ∈
        past.past (.parse "d" [minor 0] 0))) = true := by
    decide +kernel
  obtain ⟨past, hpast, hmem⟩ := (Option.any_eq_true _ _).mp hrun
  have hmem := of_decide_eq_true hmem
  refine ⟨universe_ofList rfl (by decide) (by decide), _, past, _, _, ⟨8, rfl⟩, hpast, hmem, ?_⟩
  intro htrue
  have hshared : sharedPackage ∈ branchRoot :: branchChoice := by simp [branchChoice]
  refine htrue branchSelection branchSelection_valid ?_ sharedPackage hshared
    ⟨List.mem_singleton.mpr rfl, Or.inl rfl, by simp [Dependency.parse]⟩
  intro id hid
  rw [Finmap.mem_singleton] at hid
  exact ⟨sharedPackage, hshared, hid.symm⟩

end Examples

end Cargo.Resolver
