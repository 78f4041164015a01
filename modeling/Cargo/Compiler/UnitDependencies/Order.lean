import Cargo.Compiler.UnitDependencies.Made

/-!
# The order of the exploration

A unit is explored once, for whatever it was first come by, although what it is for decides on the
profiles of its dependencies. It makes no difference as long as overrides for build scripts and
overrides for packages are not used together: then two reasons to need a unit that give it the same
profile give its dependencies the same profiles too.

## Main results

* `Dep.swap` — the dependencies of a unit do not depend on what it is needed for
* `buildUnitDependencies_order` — the graph does not depend on any order
-/

set_option autoImplicit false

namespace Cargo.Compiler.UnitDependencies

open Relation
open Cargo.Core hiding Kind
open Cargo.Math Cargo.Resolver Cargo.Util
open Cargo.Compiler.CustomBuild (Kind)

variable {crate : UrlCrate} {R : Type} {bcx : BuildContext crate R}
  {ho : HashOrder (PackageId (SourceId crate))} {roots : List (Unit crate)}
  {packages : List (PackageId (SourceId crate))}

/-- The unit that is made for a valid package. -/
theorem Complete.newUnit_eq (h : Complete bcx roots packages) {pkg : PackageId (SourceId crate)}
    (hpkg : pkg ∈ packages) (target : Target) (unitFor : UnitFor) (kind : Kind)
    (mode : CompileMode) : newUnit bcx pkg target unitFor kind mode =
      .ok ⟨pkg, target, (bcx.profiles.documented pkg (bcx.isMember pkg) unitFor mode
        bcx.release).comparable, kind, mode⟩ := by
  obtain ⟨warnings, hvalid⟩ := h.valid
  exact newUnit_eq_ok.mpr ⟨_, Profiles.getProfile_eq
    (Profiles.unambiguous_of_validatePackages hvalid mode bcx.release pkg hpkg) _ _, rfl⟩

theorem comparable_firstSettings (default : Profile) (layers layers' : List ProfileSettings)
    (panic panic' : Option String) (hpanic : (firstSettings default layers).panic =
      (firstSettings default layers').panic)
    (h : Profile.comparable { firstSettings default layers with panic := panic } =
      Profile.comparable { firstSettings default layers' with panic := panic' }) :
    firstSettings default layers = firstSettings default layers' := by
  simp only [Profile.comparable, Profile.mk.injEq, true_and] at h
  obtain ⟨h₁, h₂, h₃, h₄, h₅, h₆, h₇, h₈, -⟩ := h
  simp only [firstSettings, Profile.mk.injEq, true_and] at *
  exact ⟨h₁, h₂, h₃, h₄, h₅, h₆, h₇, h₈, hpanic⟩

theorem withForHost_false (unitFor : UnitFor) : unitFor.withForHost false = unitFor := by
  simp [UnitFor.withForHost]

section Swap

variable (h : Complete bcx roots packages)
  (hfree : ∀ mode, (bcx.profiles.maker mode bcx.release).PanicFree)
  (hplain : (bcx.profiles.maker .build bcx.release).Plain)

include h hfree

/-- The panic strategy that layers give is that of the profile. -/
theorem panic_firstSettings (mode : CompileMode) {id : PackageId (SourceId crate)}
    (hid : id ∈ packages) (isMember : Bool) (unitFor : UnitFor) :
    (firstSettings (bcx.profiles.maker mode bcx.release).default
      ((bcx.profiles.maker mode bcx.release).layers id isMember unitFor)).panic =
      (bcx.profiles.maker mode bcx.release).panic := by
  obtain ⟨warnings, hvalid⟩ := h.valid
  exact ProfileMaker.panic_of_getProfile (hfree mode) (ProfileMaker.getProfile_eq
    (Profiles.unambiguous_of_validatePackages hvalid mode bcx.release id hid) isMember unitFor)

include hplain

/-- If a unit has the same profile for two reasons, then so has a library that it needs. -/
theorem newUnit_swap {u : Unit crate} {uf uf' : UnitFor} (hpkg : u.pkg ∈ packages)
    (hmode : u.mode = .build ∨ u.mode = .check false)
    (hmade : newUnit bcx u.pkg u.target uf u.kind u.mode = .ok u)
    (hmade' : newUnit bcx u.pkg u.target uf' u.kind u.mode = .ok u)
    {id : PackageId (SourceId crate)} (hid : id ∈ packages) (lib : Target) (forHost : Bool)
    (kind : Kind) {mode : CompileMode} (hmode' : mode = .build ∨ mode = .check false) :
    newUnit bcx id lib (uf.withForHost forHost) kind mode =
      newUnit bcx id lib (uf'.withForHost forHost) kind mode := by
  have htest : ∀ {mode : CompileMode}, mode = .build ∨ mode = .check false →
      mode.isAnyTest = false := by
    rintro _ (rfl | rfl) <;> rfl
  rw [h.newUnit_eq hpkg] at hmade hmade'
  rw [h.newUnit_eq hid, h.newUnit_eq hid]
  have heq := hmade.trans hmade'.symm
  simp only [Except.ok.injEq, Unit.mk.injEq, Profiles.documented, htest hmode, htest hmode',
    maker_of_build_or_check hmode, maker_of_build_or_check hmode', and_true, true_and] at heq ⊢
  set maker := bcx.profiles.maker .build bcx.release with hmaker
  have hpanic : ∀ {pkg}, pkg ∈ packages → ∀ unitFor, (firstSettings maker.default
      (maker.layers pkg (bcx.isMember pkg) unitFor)).panic = maker.panic :=
    fun hpkg unitFor => panic_firstSettings h hfree .build hpkg _ unitFor
  -- what is set apart from the panic strategy
  have hsettings : firstSettings maker.default (maker.layers id (bcx.isMember id) uf) =
      firstSettings maker.default (maker.layers id (bcx.isMember id) uf') := by
    rcases ProfileMaker.layers_of_plain hplain uf uf' with hsame | hsame
    · rw [hsame]
    · rw [hsame id u.pkg _ (bcx.isMember u.pkg), hsame id u.pkg _ (bcx.isMember u.pkg)]
      exact comparable_firstSettings _ _ _ _ _ ((hpanic hpkg uf).trans (hpanic hpkg uf').symm) heq
  have hforHost : ∀ uf : UnitFor, maker.layers id (bcx.isMember id) (uf.withForHost forHost) =
      maker.layers id (bcx.isMember id) uf := fun uf => rfl
  simp only [hforHost, hsettings, hpanic hid, hpanic hpkg] at heq ⊢
  -- one of them has no panic strategy only if neither has, or if there is none
  have hstrategy : (if uf.panicOk = true then maker.panic else none) =
      if uf'.panicOk = true then maker.panic else none := congrArg Profile.panic heq
  have hstrategy' : (if (uf.withForHost forHost).panicOk = true then maker.panic else none) =
      if (uf'.withForHost forHost).panicOk = true then maker.panic else none := by
    cases forHost with
    | false => simpa [UnitFor.withForHost] using hstrategy
    | true => simp [UnitFor.withForHost]
  rw [hstrategy']

/-- The dependencies of a unit do not depend on what it is needed for. -/
theorem Dep.swap (hroots : MadeRoots bcx roots) {u d : Unit crate} {uf uf' uf₁ : UnitFor}
    (hvisited : Visited bcx roots (u, uf)) (hvisited' : Visited bcx roots (u, uf'))
    (hdep : Dep bcx (u, uf) (d, uf₁)) : ∃ uf₂, Dep bcx (u, uf') (d, uf₂) := by
  have hpkg : u.pkg ∈ packages := h.pkg_mem hvisited
  -- a library that is needed whatever the unit is for
  have hlib : u.mode.isRunCustomBuild = false → u.documented = false →
      ∀ {id : PackageId (SourceId crate)} {lib : Target}, id ∈ packages → ∀ forHost,
        newUnit bcx id lib (uf.withForHost forHost) (u.kind.forTarget lib)
          (checkOrBuildMode u.mode lib) =
        newUnit bcx id lib (uf'.withForHost forHost) (u.kind.forTarget lib)
          (checkOrBuildMode u.mode lib) := by
    intro hrun hdoc id lib hid forHost
    cases htest : u.mode.isAnyTest with
    | true => rw [hvisited.eq_newTest htest, hvisited'.eq_newTest htest]
    | false =>
      exact newUnit_swap h hfree hplain hpkg (build_or_check hrun hdoc htest)
        (hvisited.made hroots hrun htest) (hvisited'.made hroots hrun htest) hid lib forHost _
        (checkOrBuildMode_cases u.mode lib)
  cases hdep with
  | script hrun hd => exact ⟨_, .script hrun hd⟩
  | run hrun hcase hd => exact ⟨_, .run hrun hcase hd⟩
  | lib hrun hdoc hlisted hfind hd =>
    refine ⟨_, .lib hrun hdoc hlisted hfind ?_⟩
    rw [← hlib hrun hdoc (h.mem_of_listed hpkg hlisted)]
    exact hd
  | doc hdoc hlisted hfind hcase hd => exact ⟨_, .doc hdoc hlisted hfind hcase hd⟩
  | own hrun hcase hfind hd =>
    rcases hcase with ⟨hdoc, hbin, rfl⟩ | ⟨hdoc, htarget, hmode, rfl⟩
    · exact ⟨_, .own hrun (.inl ⟨hdoc, hbin, rfl⟩) hfind hd⟩
    · refine ⟨_, .own hrun (.inr ⟨hdoc, htarget, hmode, rfl⟩) hfind ?_⟩
      rw [← withForHost_false uf', ← hlib hrun hdoc hpkg, withForHost_false]
      exact hd
  | bin htest hkind hbin hisBin hfeatures hd =>
    exact ⟨_, .bin htest hkind hbin hisBin hfeatures hd⟩

end Swap

theorem Visited.mono {roots' : List (Unit crate)} (hsub : ∀ u ∈ roots, u ∈ roots')
    {item : Item crate} (h : Visited bcx roots item) : Visited bcx roots' item := by
  induction h with
  | root hu => exact .root (hsub _ hu)
  | dep _ hdep ih => exact .dep ih hdep

/-- What one table has another one has, whatever order it was made in. -/
theorem Built.next_of_next (h : Complete bcx roots packages)
    (hfree : ∀ mode, (bcx.profiles.maker mode bcx.release).PanicFree)
    (hplain : (bcx.profiles.maker .build bcx.release).Plain) (hroots : MadeRoots bcx roots)
    {roots' : List (Unit crate)} (hsub : ∀ u, u ∈ roots ↔ u ∈ roots')
    {ho' : HashOrder (PackageId (SourceId crate))} {t t' : SuccTable (Unit crate)}
    (ht : Built bcx ho roots t) (ht' : Built bcx ho' roots' t') {u d : Unit crate} (hu : u ∈ t')
    (hnext : Next t u d) : Next t' u d := by
  obtain ⟨uf, uf₁, hvisited, hdep⟩ := ht.dep_of_next hnext
  obtain ⟨l, hl⟩ := Finmap.mem_iff.mp hu
  obtain ⟨uf', next, hvisited', hplainDeps, rfl⟩ := ht'.ofNothing.entry u l hl Finmap.notMem_empty
  obtain ⟨uf₂, hdep'⟩ := hdep.swap h hfree hplain hroots hvisited
    (hvisited'.mono fun u hu => (hsub u).mpr hu)
  exact ⟨_, hl, List.mem_map_of_mem (mem_of_dep hplainDeps hdep')⟩

theorem Built.mem_of_mem (h : Complete bcx roots packages)
    (hfree : ∀ mode, (bcx.profiles.maker mode bcx.release).PanicFree)
    (hplain : (bcx.profiles.maker .build bcx.release).Plain) (hroots : MadeRoots bcx roots)
    {roots' : List (Unit crate)} (hsub : ∀ u, u ∈ roots ↔ u ∈ roots')
    {ho' : HashOrder (PackageId (SourceId crate))} {t t' : SuccTable (Unit crate)}
    (ht : Built bcx ho roots t) (ht' : Built bcx ho' roots' t') {u : Unit crate} (hu : u ∈ t) :
    u ∈ t' := by
  obtain ⟨r, hr, hpath⟩ := ht.ofNothing.reached u hu Finmap.notMem_empty
  induction hpath with
  | refl => exact ht'.entered r ((hsub r).mp hr)
  | tail _ hnext ih =>
    have hmem := ih (Finmap.mem_of_lookup_eq_some hnext.choose_spec.1)
    exact ht'.mem_of_next (ht.next_of_next h hfree hplain hroots hsub ht' hmem hnext)

/-- If overrides for build scripts and overrides for packages are not used together, then the graph
of the units depends neither on the order of the roots, nor on any order in which dependencies are
gone through, nor on downloads. -/
theorem buildUnitDependencies_order (bcx : BuildContext crate R)
    (roots roots' : List (Unit crate)) (packages : List (PackageId (SourceId crate)))
    (toml : Option TomlProfiles) (config : ConfigProfiles) (features : Features)
    (warnings : List String) (h : Complete bcx roots packages)
    (hnew : Profiles.new toml config features = .ok (bcx.profiles, warnings))
    (hplain : (bcx.profiles.maker .build bcx.release).Plain) (hroots : MadeRoots bcx roots)
    (hsame : ∀ u, u ∈ roots ↔ u ∈ roots')
    (net net' : Network crate) (ho₁ ho₁' : HashOrder (PackageId (SourceId crate)))
    (ho₂ ho₂' : HashOrder (Unit crate)) (fuel fuel' : ℕ)
    (pkgs pkgs' : Finset (PackageId (SourceId crate))) (t t' : SuccTable (Unit crate))
    (ht : buildUnitDependencies bcx net ho₁ ho₂ fuel roots pkgs = .ok t)
    (ht' : buildUnitDependencies bcx net' ho₁' ho₂' fuel' roots' pkgs' = .ok t') :
    (∀ u, u ∈ t ↔ u ∈ t') ∧ ∀ u d, Next t u d ↔ Next t' u d := by
  obtain ⟨base, hbase, ht⟩ := bind_eq_ok.mp ht
  obtain ⟨base', hbase', ht'⟩ := bind_eq_ok.mp ht'
  cases ht
  cases ht'
  have hbuilt := built_of_lower (lower_of_passes hbase)
  have hbuilt' := built_of_lower (lower_of_passes hbase')
  have hfree := fun mode => Profiles.panicFree_of_new hnew mode bcx.release
  have h' : Complete bcx roots' packages :=
    ⟨fun u hu => h.roots u ((hsame u).mpr hu), h.leadsTo, h.valid⟩
  have hroots' : MadeRoots bcx roots' := fun u hu => hroots u ((hsame u).mpr hu)
  -- each graph has what the other one has: the units first, then their dependencies
  have hmem : ∀ u, u ∈ base ↔ u ∈ base' := fun u =>
    ⟨hbuilt.mem_of_mem h hfree hplain hroots hsame hbuilt',
      hbuilt'.mem_of_mem h' hfree hplain hroots' (fun u => (hsame u).symm) hbuilt⟩
  have hnext : ∀ u d, Next base u d ↔ Next base' u d := by
    refine fun u d => ⟨fun hud => ?_, fun hud => ?_⟩
    · have hu := (hmem u).mp (Finmap.mem_of_lookup_eq_some hud.choose_spec.1)
      exact hbuilt.next_of_next h hfree hplain hroots hsame hbuilt' hu hud
    · have hu := (hmem u).mpr (Finmap.mem_of_lookup_eq_some hud.choose_spec.1)
      exact hbuilt'.next_of_next h' hfree hplain hroots' (fun u => (hsame u).symm) hbuilt hu hud
  refine ⟨fun u => by rw [mem_connect, mem_connect, hmem], fun u d => ?_⟩
  simp only [next_connect, Links, hnext, hmem]

/-- The binary of `foo` with the profile of `foo`. -/
def exampleBin : Unit (.plain fun text => .ok ⟨text⟩) :=
  { exampleRoot with
    profile := Profile.comparable { Profile.defaultDev with
      optLevel := "3"
      codegenUnits := some 2 } }

/-- The library of `foo`. -/
def exampleLib : Unit (.plain fun text => .ok ⟨text⟩) :=
  { exampleBin with target := .libTarget "foo" [.lib] [] .edition2015 }

theorem exampleContext_complete_of_pkg
    {roots : List (Unit (.plain fun text => .ok ⟨text⟩))} (h : ∀ u ∈ roots, u.pkg = exampleFoo) :
    Complete exampleContext roots [exampleFoo, exampleBar] :=
  { exampleContext_complete with
    roots := fun u hu => by simp [h u hu] }

/-- The graph for the library and the binary of `foo` is the graph for the binary and the
library. -/
theorem exampleContext_order : ∃ fuel t t', buildUnitDependencies exampleContext exampleNetwork
      (.following [exampleFoo, exampleBar]) (.following []) fuel [exampleLib, exampleBin] ∅ =
        .ok t ∧
    buildUnitDependencies exampleContext exampleNetwork (.following [exampleBar, exampleFoo])
      (.following [exampleBin]) fuel [exampleBin, exampleLib] {exampleBar} = .ok t' ∧
    (∀ u, u ∈ t ↔ u ∈ t') ∧ ∀ u d, Next t u d ↔ Next t' u d := by
  have hcomplete : Complete exampleContext [exampleLib, exampleBin] [exampleFoo, exampleBar] :=
    exampleContext_complete_of_pkg (by simp [exampleLib, exampleBin, exampleRoot])
  have hcomplete' : Complete exampleContext [exampleBin, exampleLib] [exampleFoo, exampleBar] :=
    exampleContext_complete_of_pkg (by simp [exampleLib, exampleBin, exampleRoot])
  obtain ⟨base, -, bound, hbound⟩ := buildUnitDependencies_eq hcomplete
    (.following [exampleFoo, exampleBar]) (.following [])
  obtain ⟨base', -, bound', hbound'⟩ := buildUnitDependencies_eq hcomplete'
    (.following [exampleBar, exampleFoo]) (.following [exampleBin])
  have ht := hbound exampleNetwork exampleNetwork_reliable ∅ (max bound bound') (le_max_left _ _)
  have ht' := hbound' exampleNetwork exampleNetwork_reliable {exampleBar} (max bound bound')
    (le_max_right _ _)
  refine ⟨_, _, _, ht, ht', ?_⟩
  refine buildUnitDependencies_order exampleContext _ _ _
    (some ⟨none, none, none, some exampleToml, none⟩) ⟨none, none⟩ [.profileOverrides] []
    hcomplete rfl (.inl ⟨?_, ?_⟩) ?_ ?_ _ _ _ _ _ _ _ _ _ _ _ _ ht ht'
  · rintro t ⟨⟩
    rfl
  · rintro t ⟨⟩
  · intro u hu _
    rw [List.mem_cons, List.mem_singleton] at hu
    rcases hu with rfl | rfl <;> rfl
  · simp [or_comm]

end Cargo.Compiler.UnitDependencies
