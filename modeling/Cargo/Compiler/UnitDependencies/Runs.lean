import Cargo.Compiler.JobQueue.Drain
import Cargo.Compiler.UnitDependencies.Compiled
import Cargo.Compiler.UnitDependencies.Acyclic

/-!
# Running a build

From the graph of the packages to the last job: the graph of the units is made, its units are
enqueued, and the queue is run. Whatever order the messages of the jobs come in, no unit is
compiled twice, none before what it depends on has been compiled, and a build that succeeds has
compiled all of them.

## Main definitions

* `BuildsInOrder` — what is promised of the units in every state of a run

## Main results

* `build_guarantees` — every state of every run of a build is as promised
-/

set_option autoImplicit false

namespace Cargo.Compiler

open Cargo.Math Cargo.Util Relation

section Splits

variable {K J P E : Type} [DecidableEq K] [DecidableEq P] {units : Units K P}
  {jobs : List (K × J × Freshness)} {out done stale : Finset K} {s₀ s : Drain K J P E}

/-- The invariant holds in every state of a run. -/
theorem Splits.of_reachable (h : Splits units jobs out done stale s₀)
    (hreach : Drain.Reachable units s₀ s) :
    ∃ out done stale, Splits units jobs out done stale s := by
  induction hreach with
  | refl => exact ⟨_, _, _, h⟩
  | tail _ hstep ih =>
    obtain ⟨out, done, stale, h⟩ := ih
    obtain ⟨s', out', done', stale', hs', h', -⟩ := h.step hstep
    cases hs'
    exact ⟨out', done', stale', h'⟩

end Splits

end Cargo.Compiler

namespace Cargo.Compiler.UnitDependencies

open Relation
open Cargo.Core hiding Kind
open Cargo.Math Cargo.Resolver Cargo.Util JobEvent
open Cargo.Compiler.CustomBuild (Kind)

variable {crate : UrlCrate} {R W σ E F : Type} {cx : Context crate R W σ E}

/-! ### The graph -/

/-- The graph that is made for packages without cycles is one to visit. -/
theorem sound_of_build {net : Network crate} {ho : HashOrder (PackageId (SourceId crate))}
    {ho' : HashOrder (Unit crate)} {fuel : ℕ} {roots : List (Unit crate)}
    {pkgs : Finset (PackageId (SourceId crate))} {packages : List (PackageId (SourceId crate))}
    (h : Complete cx.bcx roots packages) (hacyclic : Acyclic (Before cx.bcx))
    (ht : buildUnitDependencies cx.bcx net ho ho' fuel roots pkgs = .ok cx.unitDependencies) :
    cx.Sound := by
  obtain ⟨base, hbase, ht⟩ := bind_eq_ok.mp ht
  have heq : connectRunCustomBuildDeps cx.bcx ho' base = cx.unitDependencies := Except.ok.inj ht
  have hbuilt := built_of_lower (lower_of_passes hbase)
  constructor
  · rw [← heq]
    exact hbuilt.acyclic_connect h hacyclic ho'
  · intro u d hnext
    rw [← heq] at hnext ⊢
    exact hbuilt.mem_of_connect hnext

/-- The roots are in the graph. -/
theorem mem_of_root {net : Network crate} {ho : HashOrder (PackageId (SourceId crate))}
    {ho' : HashOrder (Unit crate)} {fuel : ℕ} {roots : List (Unit crate)}
    {pkgs : Finset (PackageId (SourceId crate))}
    (ht : buildUnitDependencies cx.bcx net ho ho' fuel roots pkgs = .ok cx.unitDependencies)
    {u : Unit crate} (hu : u ∈ roots) : u ∈ cx.unitDependencies := by
  obtain ⟨base, hbase, ht⟩ := bind_eq_ok.mp ht
  have heq : connectRunCustomBuildDeps cx.bcx ho' base = cx.unitDependencies := Except.ok.inj ht
  rw [← heq, mem_connect]
  exact (built_of_lower (lower_of_passes hbase)).entered u hu

/-- What can be reached belongs to the packages of the build. -/
theorem pkg_mem_of_compiles {net : Network crate} {ho : HashOrder (PackageId (SourceId crate))}
    {ho' : HashOrder (Unit crate)} {fuel : ℕ} {roots : List (Unit crate)}
    {pkgs : Finset (PackageId (SourceId crate))} {packages : List (PackageId (SourceId crate))}
    (h : Complete cx.bcx roots packages) (hacyclic : Acyclic (Before cx.bcx))
    (ht : buildUnitDependencies cx.bcx net ho ho' fuel roots pkgs = .ok cx.unitDependencies)
    {u : Unit crate} (hu : cx.Compiles roots u) : u.pkg ∈ packages := by
  have hmem := hu.mem (sound_of_build h hacyclic ht) fun u hu => mem_of_root ht hu
  obtain ⟨base, hbase, ht⟩ := bind_eq_ok.mp ht
  have heq : connectRunCustomBuildDeps cx.bcx ho' base = cx.unitDependencies := Except.ok.inj ht
  rw [← heq, mem_connect] at hmem
  obtain ⟨l, hl⟩ := Finmap.mem_iff.mp hmem
  obtain ⟨uf, -, hvisited, -, -⟩ := (built_of_lower (lower_of_passes hbase)).ofNothing.entry u l hl
    Finmap.notMem_empty
  exact h.pkg_mem hvisited

theorem Context.Sound.acyclic_plan (h : cx.Sound)
    (jobs : List (Unit crate × Job W × Freshness)) :
    Acyclic (planOf cx.units jobs).Dependent := by
  refine Acyclic.swap (h.acyclic.mono ?_)
  rintro u d ⟨-, hd⟩
  exact Context.next_of_mem_deps (List.mem_filter.mp (List.mem_toFinset.mp hd)).1

/-! ### The units of a run -/

/-- What is promised of the units in the state `s`. -/
structure BuildsInOrder (cx : Context crate R W σ E) (roots : List (Unit crate))
    (s : Drain (Unit crate) (Job W) (PackageId (SourceId crate)) F) : Prop where
  /-- No unit is compiled twice. -/
  once : ((startedTasks s.log).map Task.key).Nodup
  /-- What is compiled is needed for the roots. -/
  needed : ∀ task ∈ startedTasks s.log, cx.Compiles roots task.key
  /-- When a unit is compiled, all that it depends on has been compiled. -/
  deps_first : ∀ pre task post, s.log = pre ++ .started task :: post →
    ∀ d, TransGen cx.units.DependsOn d task.key → ∃ dep ∈ succeededTasks pre, dep.key = d
  /-- A build that succeeds has compiled all that is needed. -/
  complete : s.phase = .done (.ok ()) → ∀ u, cx.Compiles roots u →
    ∃ task ∈ succeededTasks s.log, task.key = u

theorem buildsInOrder_of_guarantees {roots : List (Unit crate)}
    {jobs : List (Unit crate × Job W × Freshness)} (hnodup : (jobs.map Prod.fst).Nodup)
    (hmem : ∀ u, u ∈ jobs.map Prod.fst ↔ cx.Compiles roots u)
    {s : Drain (Unit crate) (Job W) (PackageId (SourceId crate)) F}
    (h : Guarantees cx.units jobs s) : BuildsInOrder cx roots s := by
  have hkeys : (tasks cx.units jobs).map Task.key = (jobs.map Prod.fst : Multiset _) := by
    simp [tasks, taskOf, Function.comp_def]
  refine ⟨?_, ?_, ?_, ?_⟩
  · have hle := Multiset.map_le_map (f := Task.key) h.started_le
    rw [hkeys, Multiset.map_coe] at hle
    exact Multiset.coe_nodup.mp (Multiset.nodup_of_le hle (Multiset.coe_nodup.mpr hnodup))
  · intro task htask
    have htask' := Multiset.mem_of_le h.started_le (Multiset.mem_coe.mpr htask)
    obtain ⟨entry, hentry, rfl⟩ := List.mem_map.mp (Multiset.mem_coe.mp htask')
    exact (hmem _).mp (List.mem_map_of_mem hentry)
  · intro pre task post hlog d hd
    obtain ⟨⟨entry, hentry, rfl⟩, hall⟩ := h.history.deps_first pre task post hlog d hd
    have hin : taskOf cx.units jobs entry ∈
        (tasks cx.units jobs).filter fun t => t.key = entry.1 :=
      Multiset.mem_filter.mpr ⟨Multiset.mem_coe.mpr (List.mem_map_of_mem hentry), rfl⟩
    rw [← hall] at hin
    exact ⟨_, Multiset.mem_coe.mp (Multiset.mem_filter.mp hin).1, rfl⟩
  · intro hdone u hu
    obtain ⟨entry, hentry, rfl⟩ := List.mem_map.mp ((hmem u).mpr hu)
    have hall := ((h.ok_iff _ hdone).mp rfl).2
    have hin : taskOf cx.units jobs entry ∈ tasks cx.units jobs :=
      Multiset.mem_coe.mpr (List.mem_map_of_mem hentry)
    rw [← hall] at hin
    exact ⟨_, Multiset.mem_coe.mp hin, rfl⟩

/-- What the queue was given runs as promised. -/
theorem Context.Sound.runs (h : cx.Sound) {roots : List (Unit crate)} {forceRebuild : Bool}
    {rest : σ} {fuel : ℕ} {s : Entered (Compiling crate W σ) (Unit crate)}
    (hok : cx.compile fuel roots forceRebuild rest = .ok s) (ho : HashOrder (Unit crate)) :
    ∃ jobs, (jobs.map Prod.fst).Nodup ∧ (∀ u, u ∈ jobs.map Prod.fst ↔ cx.Compiles roots u) ∧
      ∃ s₀ : Drain (Unit crate) (Job W) (PackageId (SourceId crate)) F,
        s.rest.jobs.execute ho = .ok s₀ ∧ ∀ s', Drain.Reachable cx.units s₀ s' →
          Guarantees cx.units jobs s' ∧ BuildsInOrder cx roots s' := by
  obtain ⟨jobs, hjobs, hnodup, hmem⟩ := Context.compile_enqueues h hok
  obtain ⟨s₀, hexec, hinit⟩ := exists_execute ho (h.acyclic_plan jobs)
  refine ⟨jobs, hnodup, hmem, s₀, hjobs ▸ hexec, fun s' hreach => ?_⟩
  obtain ⟨out, done, stale, hsplits⟩ := hinit.of_reachable hreach
  have hguarantees := hsplits.guarantees ho
  exact ⟨hguarantees, buildsInOrder_of_guarantees hnodup hmem hguarantees⟩

/-- If the packages have no cycle, then a build that has made its graph and enqueued its units
runs as it should, whatever order messages and downloads come in. No step panics, until the end
somebody can move, and it comes to an end; no unit is compiled twice, or before what it depends
on; and if the build succeeds, then all that is needed for the roots has been compiled. -/
theorem build_guarantees (cx : Context crate R W σ E) (net : Network crate)
    (ho : HashOrder (PackageId (SourceId crate))) (ho' ho'' : HashOrder (Unit crate))
    (fuel fuel' : ℕ) (roots : List (Unit crate)) (pkgs : Finset (PackageId (SourceId crate)))
    (packages : List (PackageId (SourceId crate))) (h : Complete cx.bcx roots packages)
    (hacyclic : Acyclic (Before cx.bcx))
    (ht : buildUnitDependencies cx.bcx net ho ho' fuel roots pkgs = .ok cx.unitDependencies)
    (forceRebuild : Bool) (rest : σ) (s : Entered (Compiling crate W σ) (Unit crate))
    (hok : cx.compile fuel' roots forceRebuild rest = .ok s) :
    ∃ jobs, (jobs.map Prod.fst).Nodup ∧ (∀ u, u ∈ jobs.map Prod.fst ↔ cx.Compiles roots u) ∧
      ∃ s₀ : Drain (Unit crate) (Job W) (PackageId (SourceId crate)) F,
        s.rest.jobs.execute ho'' = .ok s₀ ∧ ∀ s', Drain.Reachable cx.units s₀ s' →
          Guarantees cx.units jobs s' ∧ BuildsInOrder cx roots s' :=
  (sound_of_build h hacyclic ht).runs hok ho''

/-! ### The binary of `foo` -/

/-- The graph for the binary of `foo`. -/
theorem exampleGraph : ∃ fuel t, buildUnitDependencies exampleContext exampleNetwork
    (.following [exampleFoo, exampleBar]) (.following [exampleRoot]) fuel [exampleRoot] ∅ =
      .ok t := by
  obtain ⟨base, -, bound, hbound⟩ := buildUnitDependencies_eq exampleContext_complete
    (.following [exampleFoo, exampleBar]) (.following [exampleRoot])
  exact ⟨bound, _, hbound exampleNetwork exampleNetwork_reliable ∅ bound le_rfl⟩

theorem exampleCompile_build {t : SuccTable (Unit (.plain fun text => .ok ⟨text⟩))} {fuel : ℕ}
    (ht : buildUnitDependencies exampleContext exampleNetwork
      (.following [exampleFoo, exampleBar]) (.following [exampleRoot]) fuel [exampleRoot] ∅ =
        .ok t)
    (buildScriptOverridden : Finset
      (PackageId (SourceId (.plain fun text => .ok ⟨text⟩)) × Kind)) :
    ∃ s, (exampleCompile t buildScriptOverridden false).compile t.keys.card [exampleRoot] false
      ⟨⟩ = .ok s := by
  have hsound : (exampleCompile t buildScriptOverridden false).Sound :=
    sound_of_build exampleContext_complete exampleContext_acyclic_before ht
  refine Context.exists_compile hsound (fun u hu => mem_of_root ht hu) ?_ false ⟨⟩
  have hpkg : ∀ p, (exampleCompile t buildScriptOverridden false).packages [exampleRoot] p →
      p = exampleFoo ∨ p = exampleBar := by
    rintro p ⟨u, hu, rfl⟩
    have hmem := pkg_mem_of_compiles exampleContext_complete exampleContext_acyclic_before ht hu
    simpa using hmem
  -- only `bar` links to a library, and it has a build script
  have hnone : (exampleContext.package exampleFoo).links = none := rfl
  constructor
  · intro p q hp hq lib hlinks hlinks'
    rcases hpkg p hp with rfl | rfl <;> rcases hpkg q hq with rfl | rfl
    · rfl
    · rw [show (exampleCompile t buildScriptOverridden false).bcx = exampleContext from rfl,
        hnone] at hlinks
      cases hlinks
    · rw [show (exampleCompile t buildScriptOverridden false).bcx = exampleContext from rfl,
        hnone] at hlinks'
      cases hlinks'
    · rfl
  · intro p hp hsome
    rcases hpkg p hp with rfl | rfl <;> rfl

theorem build_guarantees_foo : ∃ fuel t s, buildUnitDependencies exampleContext exampleNetwork
      (.following [exampleFoo, exampleBar]) (.following [exampleRoot]) fuel [exampleRoot] ∅ =
        .ok t ∧
    (exampleCompile t ∅ false).compile t.keys.card [exampleRoot] false ⟨⟩ = .ok s ∧
    ∃ jobs, (jobs.map Prod.fst).Nodup ∧
      (∀ u, u ∈ jobs.map Prod.fst ↔ (exampleCompile t ∅ false).Compiles [exampleRoot] u) ∧
      ∃ s₀ : Drain (Unit (.plain fun text => .ok ⟨text⟩)) (Job (List String))
          (PackageId (SourceId (.plain fun text => .ok ⟨text⟩))) String,
        s.rest.jobs.execute (.following [exampleRoot]) = .ok s₀ ∧
          ∀ s', Drain.Reachable (exampleCompile t ∅ false).units s₀ s' →
            Guarantees (exampleCompile t ∅ false).units jobs s' ∧
              BuildsInOrder (exampleCompile t ∅ false) [exampleRoot] s' := by
  obtain ⟨fuel, t, ht⟩ := exampleGraph
  obtain ⟨s, hs⟩ := exampleCompile_build ht ∅
  exact ⟨fuel, t, s, ht, hs, build_guarantees _ _ _ _ _ _ _ _ _ _ exampleContext_complete
    exampleContext_acyclic_before ht _ _ s hs⟩

end Cargo.Compiler.UnitDependencies
