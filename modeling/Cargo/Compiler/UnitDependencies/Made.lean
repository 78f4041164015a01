import Cargo.Compiler.UnitDependencies.Acyclic
import Cargo.Core.Profiles.Overrides

/-!
# What units are made for

A unit has the profile that belongs to what it is for, and so have its dependencies. From this it
follows what they have in common with it: if a unit is compiled without a panic strategy, then so
is all that is linked to it; and what is compiled for something that runs on the host is compiled
for the host.

## Main definitions

* `MadeRoots`, `Made` — the profile of a unit belongs to what the unit is for

## Main results

* `panic_none_of_path` — tests and build scripts are linked to nothing that has a panic strategy
* `kind_host_of_path` — what is needed on the host is compiled for the host
-/

set_option autoImplicit false

namespace Cargo.Compiler.UnitDependencies

open Relation
open Cargo.Core hiding Kind
open Cargo.Math Cargo.Resolver Cargo.Util
open Cargo.Compiler.CustomBuild (Kind)

variable {crate : UrlCrate} {R : Type} {bcx : BuildContext crate R}
  {ho : HashOrder (PackageId (SourceId crate))} {roots : List (Unit crate)}

/-- The roots that are no tests have the profiles that belong to what they are for. Nothing is
asked of tests: a benchmark has the profile of benchmarks, and the mode of a test. -/
def MadeRoots (bcx : BuildContext crate R) (roots : List (Unit crate)) : Prop :=
  ∀ u ∈ roots, u.mode.isAnyTest = false →
    newUnit bcx u.pkg u.target (rootUnitFor bcx u) u.kind u.mode = .ok u

/-- The profile of a unit belongs to what it is for. The run of a build script has a profile of its
own, and so may a test. -/
def Made (bcx : BuildContext crate R) (item : Item crate) : Prop :=
  item.1.mode.isRunCustomBuild = false → item.1.mode.isAnyTest = false →
    newUnit bcx item.1.pkg item.1.target item.2 item.1.kind item.1.mode = .ok item.1

theorem made_of_newUnit {pkg : PackageId (SourceId crate)} {target : Target} {unitFor : UnitFor}
    {kind : Kind} {mode : CompileMode} {d : Unit crate}
    (h : newUnit bcx pkg target unitFor kind mode = .ok d) : Made bcx (d, unitFor) := by
  intro _ _
  obtain ⟨profile, hprofile, rfl⟩ := newUnit_eq_ok.mp h
  exact newUnit_eq_ok.mpr ⟨profile, hprofile, rfl⟩

theorem Dep.made {item d : Item crate} (h : Dep bcx item d) : Made bcx d := by
  cases h with
  | script _ hd => exact made_of_newUnit hd
  | run _ _ hd =>
    obtain ⟨t, -, rfl⟩ := depBuildScript_eq_some.mp hd
    intro hrun
    cases hrun
  | lib _ _ _ _ hd => exact made_of_newUnit hd
  | doc _ _ _ _ hd => exact made_of_newUnit hd
  | own _ _ _ hd => exact made_of_newUnit hd
  | bin _ _ _ _ _ hd => exact made_of_newUnit hd

/-- All items have the profiles that belong to what they are for. -/
theorem Visited.made (hroots : MadeRoots bcx roots) {item : Item crate}
    (h : Visited bcx roots item) : Made bcx item := by
  cases h with
  | root hu => exact fun _ htest => hroots _ hu htest
  | dep _ hdep => exact hdep.made

theorem isAnyTest_checkOrBuildMode (mode : CompileMode) (target : Target) :
    (checkOrBuildMode mode target).isAnyTest = false := by
  rcases checkOrBuildMode_cases mode target with h | h <;> rw [h] <;> rfl

/-- Nothing depends on a test. -/
theorem Dep.isAnyTest_eq_false {item d : Item crate} (h : Dep bcx item d) :
    d.1.mode.isAnyTest = false := by
  cases h with
  | script _ hd | bin _ _ _ _ _ hd =>
    obtain ⟨profile, -, rfl⟩ := newUnit_eq_ok.mp hd
    rfl
  | run _ _ hd =>
    obtain ⟨t, -, rfl⟩ := depBuildScript_eq_some.mp hd
    rfl
  | lib _ _ _ _ hd | own _ _ _ hd =>
    obtain ⟨profile, -, rfl⟩ := newUnit_eq_ok.mp hd
    exact isAnyTest_checkOrBuildMode _ _
  | doc _ _ _ hcase hd =>
    obtain ⟨profile, -, rfl⟩ := newUnit_eq_ok.mp hd
    rcases hcase with rfl | ⟨rfl, hmode⟩
    · exact isAnyTest_checkOrBuildMode _ _
    · dsimp only
      rw [hmode]
      rfl

/-- Tests are roots. -/
theorem Visited.eq_newTest {u : Unit crate} {uf : UnitFor} (h : Visited bcx roots (u, uf))
    (htest : u.mode.isAnyTest = true) : uf = .newTest := by
  cases h with
  | root hu =>
    unfold rootUnitFor
    rw [htest]
    rfl
  | dep _ hdep =>
    rw [hdep.isAnyTest_eq_false] at htest
    cases htest

/-- What is neither run nor documented nor a test is compiled or checked. -/
theorem build_or_check {u : Unit crate} (hrun : u.mode.isRunCustomBuild = false)
    (hdoc : u.documented = false) (htest : u.mode.isAnyTest = false) :
    u.mode = .build ∨ u.mode = .check false := by
  cases hmode : u.mode with
  | check test => cases test <;> simp_all [CompileMode.isAnyTest]
  | doc deps => simp_all [Unit.documented, CompileMode.isDoc, CompileMode.isAnyTest]
  | _ => simp_all [CompileMode.isAnyTest, CompileMode.isRunCustomBuild]

theorem maker_of_build_or_check {profiles : Profiles} {mode : CompileMode}
    (h : mode = .build ∨ mode = .check false) (release : Bool) :
    profiles.maker mode release = profiles.maker .build release := by
  rcases h with rfl | rfl <;> rfl

/-! ### Panic strategies -/

section Panic

variable (hfree : ∀ mode, (bcx.profiles.maker mode bcx.release).PanicFree)

include hfree

theorem panic_of_newUnit {pkg : PackageId (SourceId crate)} {target : Target} {unitFor : UnitFor}
    {kind : Kind} {mode : CompileMode} {d : Unit crate}
    (h : newUnit bcx pkg target unitFor kind mode = .ok d) :
    d.profile.panic = if unitFor.panicOk && !mode.isAnyTest then
      (bcx.profiles.maker mode bcx.release).panic else none := by
  obtain ⟨profile, hprofile, rfl⟩ := newUnit_eq_ok.mp h
  have hpanic := Profiles.panic_of_getProfile (hfree mode) hprofile
  exact hpanic

/-- A library for something without a panic strategy has none. -/
theorem panic_none_of_lib (hroots : MadeRoots bcx roots) {u d : Unit crate} {uf uf' : UnitFor}
    (hvisited : Visited bcx roots (u, uf)) (hrun : u.mode.isRunCustomBuild = false)
    (hdoc : u.documented = false) (hnone : u.profile.panic = none)
    (huf : uf'.panicOk = true → uf.panicOk = true) {pkg : PackageId (SourceId crate)}
    {lib : Target} {kind : Kind}
    (hd : newUnit bcx pkg lib uf' kind (checkOrBuildMode u.mode lib) = .ok d) :
    d.profile.panic = none := by
  rw [panic_of_newUnit hfree hd]
  split_ifs with hpanic
  · rw [Bool.and_eq_true] at hpanic
    have hok := huf hpanic.1
    have htest : u.mode.isAnyTest = false := by
      by_contra htest
      rw [hvisited.eq_newTest (by simpa using htest)] at hok
      cases hok
    -- both have the panic strategy of one and the same profile
    have hpanic' := panic_of_newUnit hfree (hvisited.made hroots hrun htest)
    rw [hnone, hok, htest] at hpanic'
    rw [maker_of_build_or_check (checkOrBuildMode_cases u.mode lib),
      ← maker_of_build_or_check (build_or_check hrun hdoc htest)]
    exact hpanic'.symm
  · rfl

theorem panic_none_of_dep (hroots : MadeRoots bcx roots) {u d : Unit crate} {uf uf' : UnitFor}
    (hvisited : Visited bcx roots (u, uf)) (hdoc : u.documented = false)
    (hbin : d.target.isBin = false) (hdep : Dep bcx (u, uf) (d, uf'))
    (hnone : u.profile.panic = none) : d.profile.panic = none := by
  cases hdep with
  | script _ hd =>
    rw [panic_of_newUnit hfree hd]
    rfl
  | run _ _ hd =>
    obtain ⟨t, -, rfl⟩ := depBuildScript_eq_some.mp hd
    rfl
  | lib hrun _ _ _ hd =>
    refine panic_none_of_lib hfree hroots hvisited hrun hdoc hnone ?_ hd
    exact fun hok => (Bool.and_eq_true_iff.mp hok).1
  | doc hdoc' _ _ _ _ =>
    rw [hdoc] at hdoc'
    cases hdoc'
  | own hrun hcase _ hd =>
    rcases hcase with ⟨hdoc', -⟩ | ⟨-, -, -, rfl⟩
    · rw [hdoc] at hdoc'
      cases hdoc'
    · exact panic_none_of_lib hfree hroots hvisited hrun hdoc hnone id hd
  | bin _ _ _ hisBin _ hd =>
    obtain ⟨profile, -, rfl⟩ := newUnit_eq_ok.mp hd
    dsimp only at hbin
    rw [hisBin] at hbin
    cases hbin

end Panic

/-- Whatever is linked, directly or not, to something without a panic strategy has none. -/
theorem panic_none_of_path (bcx : BuildContext crate R) (net : Network crate)
    (ho : HashOrder (PackageId (SourceId crate))) (ho' : HashOrder (Unit crate)) (fuel : ℕ)
    (roots : List (Unit crate)) (pkgs : Finset (PackageId (SourceId crate)))
    (toml : Option TomlProfiles) (config : ConfigProfiles) (features : Features)
    (warnings : List String)
    (hnew : Profiles.new toml config features = .ok (bcx.profiles, warnings))
    (hroots : MadeRoots bcx roots) (t : SuccTable (Unit crate))
    (ht : buildUnitDependencies bcx net ho ho' fuel roots pkgs = .ok t) (u d : Unit crate)
    (hpath : ReflTransGen (fun a b => Next t a b ∧ a.documented = false ∧ b.target.isBin = false)
      u d)
    (hnone : u.profile.panic = none) : d.profile.panic = none := by
  obtain ⟨base, hbase, ht⟩ := bind_eq_ok.mp ht
  cases ht
  have hbuilt := built_of_lower (lower_of_passes hbase)
  have hfree := fun mode => Profiles.panicFree_of_new hnew mode bcx.release
  induction hpath with
  | refl => exact hnone
  | tail _ hstep ih =>
    obtain ⟨hnext, hdoc, hbin⟩ := hstep
    rcases next_connect.mp hnext with hnext | ⟨-, -, -, other, -, -, -, -, -, hd⟩
    · obtain ⟨uf, uf', hvisited, hdep⟩ := hbuilt.dep_of_next hnext
      exact panic_none_of_dep hfree hroots hvisited hdoc hbin hdep ih
    · obtain ⟨target, -, rfl⟩ := depBuildScript_eq_some.mp hd
      rfl

/-- A `dev` profile that aborts on a panic. -/
def exampleAborting : KeyedProfile :=
  ⟨.mk { panic := some "abort" } none none, by
    rintro o ⟨⟩⟩

/-- The same packages, compiled to be tested. -/
def exampleTestContext : BuildContext (.plain fun text => .ok ⟨text⟩) (List Version) :=
  { exampleContext with
    profiles := { exampleProfiles with dev := ⟨.defaultDev, some exampleAborting, none⟩ }
    test := true }

/-- The benchmarks in the library of `foo`, in a build that is not for releases. -/
def exampleBenches : Unit (.plain fun text => .ok ⟨text⟩) where
  pkg := exampleFoo
  target := .libTarget "foo" [.lib] [] .edition2015
  profile := Profile.comparable .defaultBench
  kind := .target
  mode := .test

/-- The library of `bar`, for tests. -/
def exampleTestedLib : Unit (.plain fun text => .ok ⟨text⟩) where
  pkg := exampleBar
  target := .libTarget "bar" [.lib] [] .edition2015
  profile := Profile.comparable .defaultDev
  kind := .target
  mode := .build

theorem exampleTestContext_complete :
    Complete exampleTestContext [exampleBenches, exampleTestedLib] [exampleFoo, exampleBar] where
  roots := by simp [exampleBenches, exampleTestedLib]
  leadsTo := exampleContext_complete.leadsTo
  valid := ⟨_, rfl⟩

theorem exampleTestContext_dep : Dep exampleTestContext (exampleBenches, .newTest)
    (exampleTestedLib, .newTest) := by
  have hlisted : Listed exampleTestContext (exampleTestContext.used exampleBenches) exampleFoo
      exampleBar := by
    refine ⟨[.parse "bar" [⟨1, 0, 0, []⟩] exampleRegistry], ⟨exampleBar, ?_, rfl⟩, by decide⟩
    change ((exampleResolve.graph.edges exampleFoo).lookup exampleBar) = _
    unfold exampleResolve
    dsimp only
    rw [Util.Graph.edges_link_self, Finmap.lookup_insert]
    rfl
  have hlib : libOf exampleTestContext exampleBar = some exampleTestedLib.target := rfl
  have hdep : Dep exampleTestContext (exampleBenches, .newTest)
      (exampleTestedLib, UnitFor.newTest.withForHost exampleTestedLib.target.forHost) :=
    .lib rfl rfl hlisted hlib rfl
  exact hdep

/-- The library of `bar` is made for what it is for. The benchmarks have another profile than
tests have in such a build. -/
theorem exampleTestContext_made :
    MadeRoots exampleTestContext [exampleBenches, exampleTestedLib] := by
  intro u hu htest
  rcases List.mem_cons.mp hu with rfl | hu
  · cases htest
  · rw [List.mem_singleton.mp hu]
    rfl

/-- The benchmarks of `foo` are linked to a library of `bar` that does not abort. -/
theorem exampleTestContext_panic : ∃ fuel t, buildUnitDependencies exampleTestContext
    exampleNetwork (.following [exampleFoo, exampleBar]) (.following [exampleBenches]) fuel
      [exampleBenches, exampleTestedLib] ∅ = .ok t ∧
      Next t exampleBenches exampleTestedLib ∧ exampleTestedLib.profile.panic = none := by
  obtain ⟨base, hbuilt, bound, hbound⟩ := buildUnitDependencies_eq exampleTestContext_complete
    (.following [exampleFoo, exampleBar]) (.following [exampleBenches])
  have ht := hbound exampleNetwork exampleNetwork_reliable ∅ bound le_rfl
  have hnext : Next (connectRunCustomBuildDeps exampleTestContext (.following [exampleBenches])
      base) exampleBenches exampleTestedLib := by
    obtain ⟨l, hl⟩ := Finmap.mem_iff.mp (hbuilt.entered exampleBenches (by simp))
    obtain ⟨uf, next, hvisited, hplain, rfl⟩ :=
      hbuilt.ofNothing.entry exampleBenches l hl Finmap.notMem_empty
    obtain rfl := hvisited.eq_newTest rfl
    exact next_connect.mpr (.inl ⟨_, hl, List.mem_map_of_mem
      (mem_of_dep hplain exampleTestContext_dep)⟩)
  refine ⟨bound, _, ht, hnext, ?_⟩
  exact panic_none_of_path exampleTestContext exampleNetwork _ _ bound
    [exampleBenches, exampleTestedLib] ∅ (some ⟨none, none, none, some exampleAborting, none⟩)
    ⟨none, none⟩ [] [] rfl exampleTestContext_made _ ht _ _ (.single ⟨hnext, rfl, rfl⟩) rfl

/-! ### Kinds -/

theorem not_isCustomBuild_of_isLib {target : Target} (h : target.isLib = true) :
    target.isCustomBuild = false := by
  obtain ⟨kinds, hkind⟩ := kind_of_isLib h
  rw [Target.isCustomBuild, hkind]
  rfl

theorem forTarget_of_forHost (kind : Kind) {target : Target} (h : target.forHost = true) :
    kind.forTarget target = .host := by
  cases kind with
  | host => rfl
  | target =>
    unfold CustomBuild.Kind.forTarget
    rw [h]
    rfl

/-- What something on the host depends on is for the host. -/
theorem Dep.kind_host {u d : Item crate} (h : Dep bcx u d) (hhost : u.1.kind = .host) :
    d.1.kind = .host := by
  cases h with
  | script _ hd =>
    obtain ⟨profile, -, rfl⟩ := newUnit_eq_ok.mp hd
    rfl
  | run _ _ hd =>
    obtain ⟨t, -, rfl⟩ := depBuildScript_eq_some.mp hd
    exact hhost
  | lib _ _ _ _ hd | doc _ _ _ _ hd | own _ _ _ hd | bin _ _ _ _ _ hd =>
    obtain ⟨profile, -, rfl⟩ := newUnit_eq_ok.mp hd
    dsimp only at hhost ⊢
    rw [hhost]
    rfl

/-- A dependency that has to be on the host is for the host. -/
theorem Dep.kind_of_forHost {u d : Item crate} (h : Dep bcx u d)
    (hrun : d.1.mode.isRunCustomBuild = false) (hhost : d.1.target.forHost = true) :
    d.1.kind = .host := by
  cases h with
  | script _ hd =>
    obtain ⟨profile, -, rfl⟩ := newUnit_eq_ok.mp hd
    rfl
  | run _ _ hd =>
    obtain ⟨t, -, rfl⟩ := depBuildScript_eq_some.mp hd
    cases hrun
  | lib _ _ _ _ hd | doc _ _ _ _ hd | own _ _ _ hd | bin _ _ _ _ _ hd =>
    obtain ⟨profile, -, rfl⟩ := newUnit_eq_ok.mp hd
    exact forTarget_of_forHost _ hhost

/-- The run of a build script is for the kind that needs it. -/
theorem Dep.kind_of_run {u d : Item crate} (h : Dep bcx u d)
    (hrun : d.1.mode.isRunCustomBuild = true) : d.1.kind = u.1.kind := by
  have htarget := isCustomBuild_of_dep h hrun
  cases h with
  | run _ _ hd =>
    obtain ⟨t, -, rfl⟩ := depBuildScript_eq_some.mp hd
    rfl
  | script _ hd | bin _ _ _ _ _ hd =>
    obtain ⟨profile, -, rfl⟩ := newUnit_eq_ok.mp hd
    cases hrun
  | lib _ _ _ hlib hd | doc _ _ hlib _ hd =>
    obtain ⟨profile, -, rfl⟩ := newUnit_eq_ok.mp hd
    rw [not_isCustomBuild_of_isLib (mem_of_libOf hlib).2] at htarget
    cases htarget
  | own _ _ hlib hd =>
    obtain ⟨profile, -, rfl⟩ := newUnit_eq_ok.mp hd
    rw [not_isCustomBuild_of_linkable (List.find?_some hlib)] at htarget
    cases htarget

/-- What a unit for the host leads to is for the host. -/
theorem Built.kind_host_of_connect {t : SuccTable (Unit crate)} (hbuilt : Built bcx ho roots t)
    {ho' : HashOrder (Unit crate)} {u d : Unit crate}
    (hnext : Next (connectRunCustomBuildDeps bcx ho' t) u d) (hhost : u.kind = .host) :
    d.kind = .host := by
  have hstep : ∀ u d, Next t u d → u.kind = .host → d.kind = .host := by
    intro u d hnext hhost
    obtain ⟨uf, uf', -, hdep⟩ := hbuilt.dep_of_next hnext
    exact hdep.kind_host hhost
  rcases next_connect.mp hnext with hnext | ⟨-, hrun, parent, other, hunit, hother, -, -, -, hd⟩
  · exact hstep _ _ hnext hhost
  · -- what needs the run is for the host, hence the other dependency, hence its run
    obtain ⟨uf, uf', -, hdep⟩ := hbuilt.dep_of_next hunit
    have hparent := (hdep.kind_of_run hrun).symm.trans hhost
    obtain ⟨target, -, rfl⟩ := depBuildScript_eq_some.mp hd
    have hkind := hstep _ _ hother hparent
    exact hkind

/-- All that has to be on the host is compiled for the host, and so is all that it depends on,
directly or not. -/
theorem kind_host_of_path (bcx : BuildContext crate R) (net : Network crate)
    (ho : HashOrder (PackageId (SourceId crate))) (ho' : HashOrder (Unit crate)) (fuel : ℕ)
    (roots : List (Unit crate)) (pkgs : Finset (PackageId (SourceId crate)))
    (hroots : ∀ u ∈ roots, u.target.forHost = true → u.kind = .host) (t : SuccTable (Unit crate))
    (ht : buildUnitDependencies bcx net ho ho' fuel roots pkgs = .ok t) :
    (∀ u ∈ t, u.mode.isRunCustomBuild = false → u.target.forHost = true → u.kind = .host) ∧
      ∀ u d, ReflTransGen (Next t) u d → u.kind = .host → d.kind = .host := by
  obtain ⟨base, hbase, ht⟩ := bind_eq_ok.mp ht
  cases ht
  have hbuilt := built_of_lower (lower_of_passes hbase)
  constructor
  · intro u hu hrun hhost
    obtain ⟨r, hr, hpath⟩ := hbuilt.ofNothing.reached u (mem_connect.mp hu) Finmap.notMem_empty
    rcases hpath.cases_tail with heq | ⟨parent, -, hnext⟩
    · exact hroots u (heq ▸ hr) hhost
    · obtain ⟨uf, uf', -, hdep⟩ := hbuilt.dep_of_next hnext
      exact hdep.kind_of_forHost hrun hhost
  · intro u d hpath hhost
    induction hpath with
    | refl => exact hhost
    | tail _ hstep ih => exact hbuilt.kind_host_of_connect hstep ih

/-- In the graph for the binary of `foo`, build scripts are compiled for the host. -/
theorem exampleContext_kind_host : ∃ fuel t, buildUnitDependencies exampleContext exampleNetwork
    (.following [exampleFoo, exampleBar]) (.following [exampleRoot]) fuel [exampleRoot] ∅ = .ok t ∧
      (∀ u ∈ t, u.mode.isRunCustomBuild = false → u.target.forHost = true → u.kind = .host) ∧
      ∀ u d, ReflTransGen (Next t) u d → u.kind = .host → d.kind = .host := by
  obtain ⟨base, -, bound, hbound⟩ := buildUnitDependencies_eq exampleContext_complete
    (.following [exampleFoo, exampleBar]) (.following [exampleRoot])
  have ht := hbound exampleNetwork exampleNetwork_reliable ∅ bound le_rfl
  refine ⟨bound, _, ht, kind_host_of_path exampleContext exampleNetwork _ _ bound [exampleRoot] ∅
    ?_ _ ht⟩
  intro u hu hhost
  rw [List.mem_singleton.mp hu] at hhost
  cases hhost

end Cargo.Compiler.UnitDependencies
