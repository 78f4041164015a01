import Cargo.Resolver.Cycles

/-!
# Packages that are replaced

A package that `[replace]` overrides is activated, and then what replaces it is activated and
expanded in its place. So the overridden package has no dependencies in the graph, and what
replaces it has the same name and version and is in the graph as well.

## Main definitions

* `Overridden` — something replaces the package
* `NoChains` — what replaces a package is not replaced itself

## Main results

* `resolves_replaced` — the packages that are replaced in a graph that is returned
-/

set_option autoImplicit false

namespace Cargo.Resolver

open Cargo.Core Cargo.Math

variable {S R : Type} [DecidableEq S]

/-- The registry replaces this package. -/
def Overridden (registry : RegistryQueryer S R) (id : PackageId S) : Prop :=
  ∃ s r, s.packageId = id ∧ registry.override s = .ok (some r)

/-- What replaces a package is not replaced itself. -/
def NoChains (registry : RegistryQueryer S R) : Prop :=
  ∀ s r, registry.override s = .ok (some r) → ¬ Overridden registry r.packageId

namespace RegistryQueryer

variable {registry : RegistryQueryer S R}

/-- What replaces a package depends on nothing but its id. -/
theorem override_congr {s s' : Summary S R} (h : s.packageId = s'.packageId) :
    registry.override s = registry.override s' := by
  unfold override
  rw [h]

theorem not_overridden {s : Summary S R} (h : registry.override s = .ok none) :
    ¬ Overridden registry s.packageId := by
  rintro ⟨s', r, hid, hr⟩
  rw [override_congr hid, h] at hr
  cases hr

/-- A package is replaced by one with its name and its version, from another source. -/
theorem override_eq_some {s r : Summary S R} (h : registry.override s = .ok (some r)) :
    r.packageId.name = s.packageId.name ∧ r.packageId.version = s.packageId.version ∧
      r.packageId.sourceId ≠ s.packageId.sourceId := by
  unfold override at h
  split at h
  · cases h
  · split at h
    · cases h
    · cases h
    · rename_i found more hregistry
      split_ifs at h with hmore hsame hothers hsource
      · cases h
      · obtain rfl : found = r := Option.some.inj (Except.ok.inj h)
        push Not at hsame
        exact ⟨hsame.2, hsame.1, hsource⟩

end RegistryQueryer

/-! ### What the search notes of replaced packages -/

/-- A candidate with what replaces it. -/
def Chosen (registry : RegistryQueryer S R) (c : Candidate S R) : Prop :=
  (c.replace = none ∧ ¬ Overridden registry c.summary.packageId) ∨
    ∃ r, c.replace = some r ∧ registry.override c.summary = .ok (some r)

/-- Edges come from packages that are not replaced. -/
structure Direct (registry : RegistryQueryer S R) (cx : Context S R) : Prop where
  link : ∀ p q d, GraphNode.link p q d ∈ cx.resolveGraph → ¬ Overridden registry p
  replaced : ∀ pair ∈ cx.resolveReplacements, ∃ s r, s.packageId = pair.1 ∧ r.packageId = pair.2 ∧
    registry.override s = .ok (some r) ∧ cx.isActive pair.1 = true

/-- Whatever has dependencies to activate is not replaced, and its dependencies have been asked
for. -/
def Asked (registry : RegistryQueryer S R) (pending : Pending S R) : Prop :=
  ∀ e ∈ pending, ¬ Overridden registry e.1.packageId ∧
    registry.query e.2.dep = .ok e.2.candidates

variable {registry : RegistryQueryer S R} {env : Env S R} {cx cx' : Context S R}
  {s : Summary S R} {method : Method}

theorem chosen_of_query {dep : Dependency S R} {candidates : List (Candidate S R)}
    (h : registry.query dep = .ok candidates) {c : Candidate S R} (hc : c ∈ candidates) :
    Chosen registry c := by
  obtain ⟨-, -, -, hreplace⟩ := RegistryQueryer.mem_query h hc
  cases hr : c.replace with
  | none => exact .inl ⟨hr, RegistryQueryer.not_overridden (hr ▸ hreplace)⟩
  | some r => exact .inr ⟨r, hr, hr ▸ hreplace⟩

theorem Direct.same (h : Direct registry cx) (hgraph : cx'.resolveGraph = cx.resolveGraph)
    (hreplacements : cx'.resolveReplacements = cx.resolveReplacements)
    (hactive : ∀ p, cx.isActive p = true → cx'.isActive p = true) : Direct registry cx' where
  link := hgraph ▸ h.link
  replaced pair hpair := by
    obtain ⟨s, r, hs, hr, hoverride, hp⟩ := h.replaced pair (hreplacements ▸ hpair)
    exact ⟨s, r, hs, hr, hoverride, hactive _ hp⟩

theorem direct_flagActivated {b : Bool} (h : cx.flagActivated s method = .ok (b, cx'))
    (hcx : Direct registry cx) :
    Direct registry cx' ∧ cx'.isActive s.packageId = true ∧
      ∀ p, cx.isActive p = true → cx'.isActive p = true := by
  rcases Context.flagActivated_ok h with ⟨hactive, -, rfl⟩ | ⟨-, hadded⟩
  · exact ⟨hcx, hactive, fun _ hp => hp⟩
  · have hmono : ∀ p, cx.isActive p = true → cx'.isActive p = true := fun p hp =>
      (hadded.isActive p).mpr (.inl hp)
    refine ⟨⟨?_, ?_⟩, (hadded.isActive _).mpr (.inr rfl), hmono⟩
    · intro p q d hpq
      rw [hadded.graph, List.mem_cons] at hpq
      exact hcx.link p q d (hpq.resolve_left (by simp))
    · intro pair hpair
      obtain ⟨s', r, hs, hr, hoverride, hp⟩ := hcx.replaced pair (hadded.replacements ▸ hpair)
      exact ⟨s', r, hs, hr, hoverride, hmono _ hp⟩

/-- Finding the dependencies of a package that is not replaced. -/
theorem direct_expand {parent : Option (Summary S R)} {out : Activation S R}
    (h : expand env cx parent s method = .ok (cx', out)) (hcx : Direct env.registry cx)
    (hs : ¬ Overridden env.registry s.packageId) :
    Direct env.registry cx' ∧ ∀ frame, out = .frame frame → Asked env.registry frame.flatten := by
  obtain ⟨⟨cx'', built⟩, hbuild, h⟩ := bind_eq_ok.mp h
  rcases Context.buildDeps_ok hbuild with ⟨id, reason, rfl, hlacking⟩ | ⟨reqs, infos, rfl, hexp⟩
  · cases h
    refine ⟨hcx.same hlacking.same.graph hlacking.same.replacements fun p hp => ?_, by simp⟩
    rw [hlacking.same.isActive]
    exact hp
  · cases h
    refine ⟨hcx.same hexp.same.graph hexp.same.replacements fun p hp => ?_, ?_⟩
    · rw [hexp.same.isActive]
      exact hp
    · rintro frame ⟨⟩ e he
      obtain ⟨info, hinfo, rfl⟩ := List.mem_map.mp he
      obtain ⟨d, -, -, -, hdep, -, hquery⟩ := (hexp.mem_infos info).mp hinfo
      exact ⟨hs, hdep ▸ hquery⟩

/-- Activating a candidate: if it is replaced, then what replaces it is expanded. -/
theorem direct_activate {parent : Option (Summary S R × Dependency S R)} {c : Candidate S R}
    {out : Activation S R} (h : activate env cx parent c method = .ok (cx', out))
    (hchains : NoChains env.registry) (hcx : Direct env.registry cx)
    (hc : Chosen env.registry c)
    (hparent : ∀ p d, parent = some (p, d) → ¬ Overridden env.registry p.packageId) :
    Direct env.registry cx' ∧ ∀ frame, out = .frame frame → Asked env.registry frame.flatten := by
  obtain ⟨⟨activated, mid⟩, hflag, h⟩ := bind_eq_ok.mp h
  -- the edge that is noted first begins at the parent, which is not overridden
  have hlinked : Direct env.registry (cx.link parent c) := by
    cases parent with
    | none => exact hcx
    | some e =>
      refine ⟨?_, hcx.replaced⟩
      intro p q d hpq
      rcases List.mem_cons.mp hpq with hnew | hold
      · cases hnew
        exact hparent _ _ rfl
      · exact hcx.link p q d hold
  obtain ⟨hmid, hactive, -⟩ := direct_flagActivated hflag hlinked
  rcases hc with ⟨hreplace, hnot⟩ | ⟨r, hreplace, hoverride⟩
  · simp only [hreplace] at h
    split at h
    · cases h
      exact ⟨hmid, by simp⟩
    · exact direct_expand h hmid hnot
  · simp only [hreplace] at h
    obtain ⟨⟨replaceActivated, mid'⟩, hflag', h⟩ := bind_eq_ok.mp h
    -- the replacement is noted before what replaces the candidate is activated
    have hnoted : Direct env.registry { mid with resolveReplacements :=
        (c.summary.packageId, r.packageId) :: mid.resolveReplacements } := by
      refine ⟨hmid.link, ?_⟩
      intro pair hpair
      rcases List.mem_cons.mp hpair with rfl | hpair
      · exact ⟨c.summary, r, rfl, rfl, hoverride, hactive⟩
      · exact hmid.replaced pair hpair
    obtain ⟨hmid', -, -⟩ := direct_flagActivated hflag' hnoted
    simp only at h
    split at h
    · cases h
      exact ⟨hmid', by simp⟩
    · exact direct_expand h hmid' (hchains _ _ hoverride)

/-! ### The graphs that the search returns -/

def DirectState (registry : RegistryQueryer S R) (cx : Context S R) (pending : Pending S R) :
    Prop :=
  Direct registry cx ∧ Asked registry pending

theorem DirectState.next {e : Summary S R × DepInfo S R} {rest : Pending S R}
    (h : DirectState env.registry cx (e :: rest)) (hchains : NoChains env.registry)
    {c : Candidate S R} (hc : c ∈ e.2.candidates) {out : Activation S R}
    (hactivate : activate env cx (some (e.1, e.2.dep)) c method = .ok (cx', out)) :
    Direct env.registry cx' ∧ Asked env.registry rest ∧
      ∀ frame, out = .frame frame → Asked env.registry frame.flatten := by
  obtain ⟨hparent, hquery⟩ := h.2 e List.mem_cons_self
  obtain ⟨hcx', hframe⟩ := direct_activate hactivate hchains h.1 (chosen_of_query hquery hc)
    (by
      rintro p d ⟨⟩
      exact hparent)
  exact ⟨hcx', fun e he => h.2 e (List.mem_cons_of_mem _ he), hframe⟩

theorem directState_kept (hchains : NoChains env.registry) :
    Kept env (DirectState env.registry) where
  perm := fun cx l l' hperm h => ⟨h.1, fun e he => h.2 e (hperm.mem_iff.mpr he)⟩
  already := by
    intro cx cx' parent info rest c h hc _ hactivate
    obtain ⟨hcx', hrest, -⟩ := h.next hchains hc hactivate
    exact ⟨hcx', hrest⟩
  frame := by
    intro cx cx' parent info rest c frame h hc _ hactivate
    obtain ⟨hcx', hrest, hframe⟩ := h.next hchains hc hactivate
    exact ⟨hcx', List.forall_mem_append.mpr ⟨hframe frame rfl, hrest⟩⟩

theorem directState_start (hchains : NoChains env.registry)
    {roots : List (Summary S R × Method)}
    (hroots : ∀ root ∈ roots, ¬ Overridden env.registry root.1.packageId) :
    MachineOk (DirectState env.registry) (start env roots) := by
  refine machineOk_start (directState_kept hchains) ?_ ?_ ?_
  · exact ⟨⟨by simp [Context.new], by simp [Context.new]⟩, by simp [Asked]⟩
  · intro root hroot cx cx' pending h hactivate
    obtain ⟨hcx', -⟩ := direct_activate hactivate hchains h.1 (.inl ⟨rfl, hroots root hroot⟩)
      (by simp)
    exact ⟨hcx', h.2⟩
  · intro root hroot cx cx' frame pending h hactivate
    obtain ⟨hcx', hframe⟩ := direct_activate hactivate hchains h.1 (.inl ⟨rfl, hroots root hroot⟩)
      (by simp)
    exact ⟨hcx', List.forall_mem_append.mpr ⟨hframe frame rfl, h.2⟩⟩

variable [DecidableEq R]

theorem replaced_of_returns {roots : List (Summary S R × Method)}
    (h : Returns env roots (.ok cx)) (hchains : NoChains env.registry)
    (hroots : ∀ root ∈ roots, ¬ Overridden env.registry root.1.packageId) {p q : PackageId S}
    (hreplace : cx.toResolve.replacement p = some q) :
    cx.toResolve.depsNotReplaced p = ∅ ∧ p ∈ cx.toResolve.graph.nodes ∧
      q ∈ cx.toResolve.graph.nodes ∧ q.name = p.name ∧ q.version = p.version ∧
      q.sourceId ≠ p.sourceId := by
  obtain ⟨hdirect, -⟩ := machineOk_of_reaches (directState_kept hchains)
    (directState_start hchains hroots) h
  obtain ⟨s, r, rfl, rfl, hoverride, hactive⟩ :=
    hdirect.replaced _ (Context.mem_of_replacement hreplace)
  have hgrounded : Grounded cx :=
    (machineOk_of_reaches (groundedState_kept env) groundedState_start h).1
  refine ⟨?_, ?_, hgrounded.checkable.replacement _ _ hreplace,
    RegistryQueryer.override_eq_some hoverride⟩
  · rw [Finset.eq_empty_iff_forall_notMem]
    intro dep hdep
    obtain ⟨d, hd⟩ := Context.exists_link_of_mem_deps hdep
    exact hdirect.link _ _ d hd ⟨s, r, rfl, hoverride⟩
  · rw [Context.mem_toResolve]
    exact .inl ((hgrounded.add_iff _).mpr hactive)

/-- If replacements are not replaced themselves and the roots are not either, then in every graph
that is returned, a package that is replaced depends on nothing, and what replaces it is in the
graph, with the same name and version and from another source. -/
theorem resolves_replaced [VersionReq R] {L : Type} [DecidableEq L]
    {sorted edgeOrder : HashOrder (PackageId S)} {lockSource : S → Option L}
    {roots : List (Summary S R × Method)} {r : Resolve S R}
    (h : Resolves env sorted edgeOrder lockSource roots r) (hchains : NoChains env.registry)
    (hroots : ∀ root ∈ roots, ¬ Overridden env.registry root.1.packageId) {p q : PackageId S}
    (hreplace : r.replacement p = some q) :
    r.depsNotReplaced p = ∅ ∧ p ∈ r.graph.nodes ∧ q ∈ r.graph.nodes ∧ q.name = p.name ∧
      q.version = p.version ∧ q.sourceId ≠ p.sourceId := by
  obtain ⟨cx, hreturns, rfl, -, -⟩ := h
  exact replaced_of_returns hreturns hchains hroots hreplace

/-! ### A package that is replaced -/

section Replaced

/-- A package that depends on `b`. -/
def replacingA : Summary ℕ (List Version) := samplePackage "a" [sampleDep "b" .normal] (by decide)

/-- The package `b`, which depends on `c`. -/
def replacedB : Summary ℕ (List Version) := circleB

theorem transitive_of_mem_nil (d : Dependency ℕ (List Version)) (hd : d ∈ []) :
    d.optional = true → d.isTransitive = true := absurd hd List.not_mem_nil

/-- The package `b` of another source. -/
def replacingB : Summary ℕ (List Version) :=
  { samplePackage "b" [] transitive_of_mem_nil with packageId := ⟨"b", ⟨1, 0, 0, []⟩, 1⟩ }

/-- The packages as a registry, where `b` is replaced. -/
noncomputable def replacingEnv : Env ℕ (List Version) where
  registry :=
    { RegistryQueryer.ofList [replacingA, replacedB, replacingB] with
      replacements := [{
        spec := fun id => decide (id = replacedB.packageId)
        dep := Dependency.parse "b" [⟨1, 0, 0, []⟩] 1 }] }
  heap := .simple
  names _ _ := .following []
  ids _ := .following []

theorem replacingEnv_override (s : Summary ℕ (List Version)) :
    replacingEnv.registry.override s =
      if s.packageId = replacedB.packageId then .ok (some replacingB) else .ok none := by
  by_cases hs : s.packageId = replacedB.packageId
  · rw [RegistryQueryer.override_congr hs, if_pos hs]
    rfl
  · simp only [RegistryQueryer.override, replacingEnv, List.filter_cons, hs, decide_false,
      Bool.false_eq_true, if_false, List.filter_nil]

theorem overridden_iff_replacingEnv {id : PackageId ℕ} :
    Overridden replacingEnv.registry id ↔ id = replacedB.packageId := by
  constructor
  · rintro ⟨s, r, rfl, hr⟩
    rw [replacingEnv_override] at hr
    split_ifs at hr with hs
    · exact hs
    · cases hr
  · rintro rfl
    exact ⟨replacedB, replacingB, rfl, by rw [replacingEnv_override, if_pos rfl]⟩

/-- The order of package ids. -/
noncomputable def replacingOrder : HashOrder (PackageId ℕ) :=
  .following [replacingA.packageId, replacedB.packageId, replacingB.packageId]

/-- `b` is replaced, so that its dependency on `c` is not there. -/
theorem resolves_replaced_b : ∃ r : Resolve ℕ (List Version),
    Resolves replacingEnv replacingOrder replacingOrder some
      [(replacingA, .required true [] false true)] r ∧
    r.replacement replacedB.packageId = some replacingB.packageId ∧
    r.depsNotReplaced replacedB.packageId = ∅ ∧ replacingB.packageId ∈ r.graph.nodes := by
  have hrun : ((step replacingEnv)^[4] (start replacingEnv
      [(replacingA, .required true [] false true)])).foundWith (fun cx => decide
        (cx.toResolve.replacement replacedB.packageId = some replacingB.packageId) &&
        ((checkCycles replacingOrder replacingOrder cx.toResolve cx.summaryOf).isOk &&
        checkDuplicatePkgsInLockfile some cx.toResolve)) = true := by
    decide +kernel
  obtain ⟨cx, hcx, hrun⟩ := Machine.exists_of_foundWith hrun
  rw [Bool.and_eq_true, Bool.and_eq_true, decide_eq_true_eq] at hrun
  obtain ⟨hreplace, hcycles, hduplicates⟩ := hrun
  have hresolves : Resolves replacingEnv replacingOrder replacingOrder some
      [(replacingA, .required true [] false true)] cx.toResolve := by
    refine ⟨cx, ⟨4, hcx⟩, rfl, ?_, hduplicates⟩
    cases hcheck : checkCycles replacingOrder replacingOrder cx.toResolve cx.summaryOf with
    | ok checked => exact ⟨checked, rfl⟩
    | error e =>
      rw [hcheck] at hcycles
      cases hcycles
  have hchains : NoChains replacingEnv.registry := by
    intro s r hr hover
    rw [replacingEnv_override] at hr
    split_ifs at hr with hs
    · cases hr
      exact absurd (overridden_iff_replacingEnv.mp hover) (by decide)
    · cases hr
  have hroots : ∀ root ∈ [(replacingA, Method.required true [] false true)],
      ¬ Overridden replacingEnv.registry root.1.packageId := by
    intro root hroot hover
    obtain rfl := List.mem_singleton.mp hroot
    exact absurd (overridden_iff_replacingEnv.mp hover) (by decide)
  obtain ⟨hdeps, -, hmem, -⟩ := resolves_replaced hresolves hchains hroots hreplace
  exact ⟨cx.toResolve, hresolves, hreplace, hdeps, hmem⟩

end Replaced

end Cargo.Resolver
