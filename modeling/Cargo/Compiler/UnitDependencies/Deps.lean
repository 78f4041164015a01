import Cargo.Compiler.UnitDependencies
import Cargo.Core.Profiles.Precedence
import Cargo.Math.Stateful

/-!
# What a unit depends on

The dependencies of a unit when everything is at hand, and where each of them comes from. While
packages are missing some dependencies are left out; but then there is something to wait for, and
the table is thrown away.

## Main definitions

* `plainDeps` — the dependencies of a unit when everything is at hand
* `Dep` — the ways to be a dependency

## Main results

* `dep_of_mem` — every dependency comes from one of them
* `computeDeps_isPlain` — if nothing was missing, then the dependencies are the plain ones
-/

set_option autoImplicit false

namespace Cargo.Compiler.UnitDependencies

open Cargo.Core hiding Kind
open Cargo.Math Cargo.Resolver Cargo.Util
open Cargo.Compiler.CustomBuild (Kind)

variable {crate : UrlCrate} {R : Type} {bcx : BuildContext crate R}
  {ho : HashOrder (PackageId (SourceId crate))}

/-- Everything is at hand. -/
def present {crate : UrlCrate} (_ : PackageId (SourceId crate)) : Except (Error crate) Bool :=
  .ok true

/-- The dependencies of a unit when everything is at hand. -/
def plainDeps (bcx : BuildContext crate R) (ho : HashOrder (PackageId (SourceId crate)))
    (item : Item crate) : Except (Error crate) (List (Item crate)) :=
  computeDeps bcx present ho item

/-- The library of a package. -/
def libOf (bcx : BuildContext crate R) (pkg : PackageId (SourceId crate)) : Option Target :=
  (bcx.package pkg).targets.find? Target.isLib

/-- An edge of the first package, with these dependencies, leads to the second. -/
def LeadsTo (bcx : BuildContext crate R) (pkg id : PackageId (SourceId crate))
    (listed : List (Dependency (SourceId crate) R)) : Prop :=
  ∃ dep, bcx.resolve.graph.edge pkg dep = some listed ∧ bcx.resolve.target dep = id

/-- The second package is a dependency of the first, for one of the dependencies that `p` holds
of. -/
def Listed (bcx : BuildContext crate R) (p : Dependency (SourceId crate) R → Bool)
    (pkg id : PackageId (SourceId crate)) : Prop :=
  ∃ listed, LeadsTo bcx pkg id listed ∧ listed.any p = true

/-- Is a dependency one of something that is documented? -/
def BuildContext.documents (bcx : BuildContext crate R) (unit : Unit crate)
    (dep : Dependency (SourceId crate) R) : Bool :=
  decide (dep.kind = .normal) && bcx.depPlatformActivated dep unit.kind

/-- Is this documented, and not run as a test? -/
def Unit.documented (unit : Unit crate) : Bool := unit.mode.isDoc && !unit.mode.isAnyTest

/-- The ways to be a dependency of a unit. -/
inductive Dep (bcx : BuildContext crate R) : Item crate → Item crate → Prop
  /-- the build script, to be run -/
  | script {u d : Unit crate} {uf : UnitFor} : u.mode.isRunCustomBuild = true →
      newUnit bcx u.pkg u.target .newBuild .host .build = .ok d → Dep bcx (u, uf) (d, .newBuild)
  /-- the run of the build script of the same package -/
  | run {u d : Unit crate} {uf : UnitFor} : u.mode.isRunCustomBuild = false →
      (u.documented = true ∨ u.target.isCustomBuild = false) → depBuildScript bcx u = some d →
      Dep bcx (u, uf) (d, .newBuild)
  /-- the library of another package -/
  | lib {u d : Unit crate} {uf : UnitFor} {id : PackageId (SourceId crate)} {lib : Target} :
      u.mode.isRunCustomBuild = false → u.documented = false →
      Listed bcx (bcx.used u) u.pkg id → libOf bcx id = some lib →
      newUnit bcx id lib (uf.withForHost lib.forHost) (u.kind.forTarget lib)
        (checkOrBuildMode u.mode lib) = .ok d → Dep bcx (u, uf) (d, uf.withForHost lib.forHost)
  /-- the library of another package, compiled or documented, for documentation -/
  | doc {u d : Unit crate} {uf : UnitFor} {id : PackageId (SourceId crate)} {lib : Target}
      {mode : CompileMode} : u.documented = true → Listed bcx (bcx.documents u) u.pkg id →
      libOf bcx id = some lib →
      (mode = checkOrBuildMode u.mode lib ∨ mode = u.mode ∧ u.mode = .doc true) →
      newUnit bcx id lib (UnitFor.newNormal.withForHost lib.forHost) (u.kind.forTarget lib) mode =
        .ok d → Dep bcx (u, uf) (d, UnitFor.newNormal.withForHost lib.forHost)
  /-- the library of the same package -/
  | own {u d : Unit crate} {uf uf' : UnitFor} {lib : Target} : u.mode.isRunCustomBuild = false →
      (u.documented = true ∧ u.target.isBin = true ∧ uf' = .newNormal ∨
        u.documented = false ∧ u.target.isCustomBuild = false ∧
          (u.target.isLib = true → u.mode = .doctest) ∧ uf' = uf) →
      (bcx.package u.pkg).targets.find? Target.linkable = some lib →
      newUnit bcx u.pkg lib uf' (u.kind.forTarget lib) (checkOrBuildMode u.mode lib) = .ok d →
      Dep bcx (u, uf) (d, uf')
  /-- a binary that a test may run -/
  | bin {u d : Unit crate} {uf : UnitFor} {bin : Target} :
      u.mode.isCheck = false ∧ u.mode.isAnyTest = true →
      (u.target.isTest = true ∨ u.target.isBench = true) →
      bin ∈ (bcx.package u.pkg).targets → bin.isBin = true →
      (∀ f ∈ bin.requiredFeatures.getD [], f ∈ bcx.resolve.featuresOf u.pkg) →
      newUnit bcx u.pkg bin .newNormal (u.kind.forTarget bin) .build = .ok d →
      Dep bcx (u, uf) (d, .newNormal)

/-! ### Where dependencies come from -/

theorem newUnit_eq_ok {pkg : PackageId (SourceId crate)} {target : Target} {unitFor : UnitFor}
    {kind : Kind} {mode : CompileMode} {d : Unit crate} :
    newUnit bcx pkg target unitFor kind mode = .ok d ↔
      ∃ profile, bcx.profiles.getProfile pkg (bcx.isMember pkg) unitFor mode bcx.release =
        .ok profile ∧ d = ⟨pkg, target, profile.comparable, kind, mode⟩ := by
  unfold newUnit
  cases bcx.profiles.getProfile pkg (bcx.isMember pkg) unitFor mode bcx.release with
  | error e => simp
  | ok profile =>
    constructor
    · intro h
      cases h
      exact ⟨profile, rfl, rfl⟩
    · rintro ⟨profile', hprofile, rfl⟩
      cases hprofile
      rfl

section Collect

variable {used : PackageId (SourceId crate) → List (Dependency (SourceId crate) R) →
    Except (Error crate) Bool}
  {units : PackageId (SourceId crate) → Target → Except (Error crate) (List (Item crate))}
  {deps : List (PackageId (SourceId crate) × List (Dependency (SourceId crate) R))}

/-- What is collected comes from a dependency that is used. -/
theorem mem_collectDeps {ret : List (Item crate)}
    (h : collectDeps bcx present used units deps = .ok ret) {d : Item crate}
    (hd : d ∈ ret) : ∃ id listed lib new, (id, listed) ∈ deps ∧ used id listed = .ok true ∧
      libOf bcx id = some lib ∧ units id lib = .ok new ∧ d ∈ new := by
  have hloop := foldlM_ok_induction (P := fun _ (acc : List (Item crate)) =>
    ∀ d ∈ acc, ∃ id listed lib new, (id, listed) ∈ deps ∧ used id listed = .ok true ∧
      libOf bcx id = some lib ∧ units id lib = .ok new ∧ d ∈ new) h (by simp) ?_
  · exact hloop d hd
  rintro pre ⟨id, listed⟩ post acc acc' hsplit hacc hstep
  obtain ⟨b, hused, hstep⟩ := bind_eq_ok.mp hstep
  cases b with
  | false =>
    cases hstep
    exact hacc
  | true =>
    obtain ⟨found, hget, hstep⟩ := bind_eq_ok.mp hstep
    cases hget
    cases hlib : (bcx.package id).targets.find? Target.isLib with
    | none =>
      simp only [hlib] at hstep
      cases hstep
      exact hacc
    | some lib =>
      simp only [hlib] at hstep
      obtain ⟨new, hnew, hstep⟩ := bind_eq_ok.mp hstep
      cases hstep
      intro d hd
      rcases List.mem_append.mp hd with hd | hd
      · exact hacc d hd
      · exact ⟨id, listed, lib, new, by simp [hsplit], hused, hlib, hnew, hd⟩

/-- Everything that comes from a dependency that is used is collected. -/
theorem mem_collectDeps_of {ret : List (Item crate)}
    (h : collectDeps bcx present used units deps = .ok ret) {id : PackageId (SourceId crate)}
    {listed : List (Dependency (SourceId crate) R)} {lib : Target} (hdep : (id, listed) ∈ deps)
    (hused : used id listed = .ok true) (hlib : libOf bcx id = some lib) :
    ∃ new, units id lib = .ok new ∧ new ⊆ ret := by
  suffices hloop : ∀ dep ∈ deps, dep = (id, listed) → ∃ new, units id lib = .ok new ∧ new ⊆ ret from
    hloop _ hdep rfl
  refine foldlM_ok_induction (P := fun pre (acc : List (Item crate)) =>
    ∀ dep ∈ pre, dep = (id, listed) → ∃ new, units id lib = .ok new ∧ new ⊆ acc) h (by simp) ?_
  rintro pre dep post acc acc' - hpre hstep
  obtain ⟨b, hb, hstep⟩ := bind_eq_ok.mp hstep
  -- what has been collected stays
  have hgrows : acc ⊆ acc' := by
    cases b with
    | false =>
      cases hstep
      exact List.Subset.refl acc
    | true =>
      obtain ⟨found, hget, hstep⟩ := bind_eq_ok.mp hstep
      cases hget
      cases hlib' : (bcx.package dep.1).targets.find? Target.isLib with
      | none =>
        simp only [hlib'] at hstep
        cases hstep
        exact List.Subset.refl acc
      | some lib' =>
        simp only [hlib'] at hstep
        obtain ⟨new', -, hstep⟩ := bind_eq_ok.mp hstep
        cases hstep
        exact List.subset_append_left acc new'
  intro dep' hdep' heq
  rcases List.mem_append.mp hdep' with hdep' | hdep'
  · obtain ⟨new, hnew, hsub⟩ := hpre dep' hdep' heq
    exact ⟨new, hnew, List.Subset.trans hsub hgrows⟩
  · obtain rfl := List.mem_singleton.mp hdep'
    subst heq
    rw [hused] at hb
    cases hb
    obtain ⟨found, hget, hstep⟩ := bind_eq_ok.mp hstep
    cases hget
    unfold libOf at hlib
    simp only [hlib] at hstep
    obtain ⟨new, hnew, hstep⟩ := bind_eq_ok.mp hstep
    cases hstep
    exact ⟨new, hnew, List.subset_append_right acc new⟩

end Collect

theorem mem_buildScriptItems {u : Unit crate} {d : Item crate} :
    d ∈ buildScriptItems bcx u ↔ ∃ run, depBuildScript bcx u = some run ∧ d = (run, .newBuild) := by
  unfold buildScriptItems
  cases depBuildScript bcx u <;> simp

theorem mem_maybeLib {u : Unit crate} {uf : UnitFor} {ret : List (Item crate)}
    (h : maybeLib bcx u uf = .ok ret) {d : Item crate} (hd : d ∈ ret) :
    ∃ lib unit, (bcx.package u.pkg).targets.find? Target.linkable = some lib ∧
      newUnit bcx u.pkg lib uf (u.kind.forTarget lib) (checkOrBuildMode u.mode lib) = .ok unit ∧
      d = (unit, uf) := by
  unfold maybeLib at h
  cases hlib : (bcx.package u.pkg).targets.find? Target.linkable with
  | none =>
    rw [hlib] at h
    cases h
    simp at hd
  | some lib =>
    simp only [hlib] at h
    obtain ⟨unit, hunit, h⟩ := bind_eq_ok.mp h
    cases h
    exact ⟨lib, unit, rfl, hunit, List.mem_singleton.mp hd⟩

theorem mem_testedBins {u : Unit crate} {ret : List (Item crate)}
    (h : testedBins bcx u = .ok ret) {d : Item crate} (hd : d ∈ ret) :
    ∃ bin ∈ (bcx.package u.pkg).targets, bin.isBin = true ∧
      (∀ f ∈ bin.requiredFeatures.getD [], f ∈ bcx.resolve.featuresOf u.pkg) ∧ ∃ unit,
      newUnit bcx u.pkg bin .newNormal (u.kind.forTarget bin) .build = .ok unit ∧
      d = (unit, .newNormal) := by
  obtain ⟨bin, hbin, hd⟩ := (mem_of_mapM_ok h d).mp hd
  obtain ⟨unit, hunit, hd⟩ := bind_eq_ok.mp hd
  cases hd
  rw [List.mem_filter, Bool.and_eq_true, List.all_eq_true] at hbin
  exact ⟨bin, hbin.1, hbin.2.1, fun f hf => of_decide_eq_true (hbin.2.2 f hf), unit, hunit, rfl⟩

theorem dep_of_mem_doc {u : Unit crate} {uf : UnitFor} {ret : List (Item crate)}
    (hrun : u.mode.isRunCustomBuild = false) (hdoc : u.documented = true)
    (h : computeDepsDoc bcx present ho u = .ok ret) {d : Item crate} (hd : d ∈ ret) :
    Dep bcx (u, uf) d := by
  obtain ⟨deps, hdeps, h⟩ := bind_eq_ok.mp h
  -- the libraries of other packages, and their documentation
  have hothers : ∀ d ∈ deps, Dep bcx (u, uf) d := by
    intro d hd
    obtain ⟨id, listed, lib, new, hmem, hused, hlib, hnew, hd⟩ := mem_collectDeps hdeps hd
    have hlisted : Listed bcx (bcx.documents u) u.pkg id :=
      ⟨listed, Resolve.mem_deps.mp hmem, by simpa [BuildContext.documents] using hused⟩
    obtain ⟨libUnit, hlibUnit, hnew⟩ := bind_eq_ok.mp hnew
    split_ifs at hnew with hmode
    · obtain ⟨docUnit, hdocUnit, hnew⟩ := bind_eq_ok.mp hnew
      cases hnew
      rcases List.mem_cons.mp hd with rfl | hd
      · exact .doc hdoc hlisted hlib (.inl rfl) hlibUnit
      · rw [List.mem_singleton] at hd
        subst hd
        exact .doc hdoc hlisted hlib (.inr ⟨rfl, hmode⟩) hdocUnit
    · cases hnew
      rw [List.mem_singleton] at hd
      subst hd
      exact .doc hdoc hlisted hlib (.inl rfl) hlibUnit
  have hscript : ∀ d ∈ buildScriptItems bcx u, Dep bcx (u, uf) d := by
    intro d hd
    obtain ⟨run, hsome, rfl⟩ := mem_buildScriptItems.mp hd
    exact .run hrun (.inl hdoc) hsome
  obtain ⟨own, hown, h⟩ := bind_eq_ok.mp h
  cases h
  rcases List.mem_append.mp hd with hd | hd
  · exact (List.mem_append.mp hd).elim (hothers d) (hscript d)
  · unfold docOwnLib at hown
    split_ifs at hown with hbin
    · obtain ⟨lib, unit, hlib, hunit, rfl⟩ := mem_maybeLib hown hd
      exact .own hrun (.inl ⟨hdoc, hbin, rfl⟩) hlib hunit
    · cases hown
      simp at hd

theorem dep_of_mem_own {u : Unit crate} {uf : UnitFor} {ret : List (Item crate)}
    (hrun : u.mode.isRunCustomBuild = false) (hdoc : u.documented = false)
    (h : ownDeps bcx u uf = .ok ret) {d : Item crate} (hd : d ∈ ret) :
    Dep bcx (u, uf) d := by
  have hscriptItems : u.target.isCustomBuild = false → ∀ d ∈ buildScriptItems bcx u,
      Dep bcx (u, uf) d := by
    intro hscript d hd
    obtain ⟨run, hsome, rfl⟩ := mem_buildScriptItems.mp hd
    exact .run hrun (.inr hscript) hsome
  unfold ownDeps at h
  split_ifs at h with hscript hlib hbins
  · cases h
    simp at hd
  · cases h
    exact hscriptItems (by simpa using hscript) d hd
  all_goals
    rw [Bool.not_eq_true] at hscript
    obtain ⟨lib, hmaybe, h⟩ := bind_eq_ok.mp h
    -- the library of the package, if it can be linked, for all units but its own
    have hmaybeLib : ∀ d ∈ lib, Dep bcx (u, uf) d := by
      intro d hd
      obtain ⟨t, unit, ht, hunit, rfl⟩ := mem_maybeLib hmaybe hd
      refine .own hrun (.inr ⟨hdoc, hscript, ?_, rfl⟩) ht hunit
      intro hisLib
      by_contra hmode
      exact hlib (by simp [hisLib, hmode])
  · obtain ⟨bins, hbinsEq, h⟩ := bind_eq_ok.mp h
    cases h
    rcases List.mem_append.mp hd with hd | hd
    · exact (List.mem_append.mp hd).elim (hscriptItems hscript d) (hmaybeLib d)
    · obtain ⟨bin, hbin, hisBin, hfeatures, unit, hunit, rfl⟩ := mem_testedBins hbinsEq hd
      simp only [Bool.and_eq_true, Bool.or_eq_true, Bool.not_eq_true'] at hbins
      exact .bin hbins.1 hbins.2 hbin hisBin hfeatures hunit
  · cases h
    exact (List.mem_append.mp hd).elim (hscriptItems hscript d) (hmaybeLib d)

/-- Every dependency of a unit comes from one of the ways to be one. -/
theorem dep_of_mem {item : Item crate} {next : List (Item crate)}
    (h : plainDeps bcx ho item = .ok next) {d : Item crate} (hd : d ∈ next) :
    Dep bcx item d := by
  obtain ⟨u, uf⟩ := item
  simp only [plainDeps, computeDeps] at h
  split_ifs at h with hrun hdoc
  · obtain ⟨script, hscript, h⟩ := bind_eq_ok.mp h
    cases h
    obtain rfl := List.mem_singleton.mp hd
    exact .script hrun hscript
  · exact dep_of_mem_doc (by simpa using hrun) hdoc h hd
  · rw [Bool.not_eq_true] at hrun hdoc
    obtain ⟨deps, hdeps, h⟩ := bind_eq_ok.mp h
    obtain ⟨own, hown, h⟩ := bind_eq_ok.mp h
    cases h
    rcases List.mem_append.mp hd with hd | hd
    · obtain ⟨id, listed, lib, new, hmem, hused, hlib, hnew, hd⟩ := mem_collectDeps hdeps hd
      split_ifs at hused
      obtain ⟨unit, hunit, hnew⟩ := bind_eq_ok.mp hnew
      cases hnew
      obtain rfl := List.mem_singleton.mp hd
      exact .lib hrun hdoc ⟨listed, Resolve.mem_deps.mp hmem, Except.ok.inj hused⟩ hlib hunit
    · exact dep_of_mem_own hrun hdoc hown hd

theorem mem_maybeLib_of {u d : Unit crate} {uf : UnitFor} {ret : List (Item crate)} {lib : Target}
    (h : maybeLib bcx u uf = .ok ret)
    (hlib : (bcx.package u.pkg).targets.find? Target.linkable = some lib)
    (hd : newUnit bcx u.pkg lib uf (u.kind.forTarget lib) (checkOrBuildMode u.mode lib) = .ok d) :
    (d, uf) ∈ ret := by
  simp only [maybeLib, hlib, hd, bind, Except.bind] at h
  cases h
  exact List.mem_singleton_self _

theorem mem_docUnits_of {u d : Unit crate} {id : PackageId (SourceId crate)} {lib : Target}
    {mode : CompileMode} {new : List (Item crate)}
    (hcase : mode = checkOrBuildMode u.mode lib ∨ mode = u.mode ∧ u.mode = .doc true)
    (hd : newUnit bcx id lib (UnitFor.newNormal.withForHost lib.forHost) (u.kind.forTarget lib)
      mode = .ok d) (h : docUnits bcx u id lib = .ok new) :
    (d, UnitFor.newNormal.withForHost lib.forHost) ∈ new := by
  obtain ⟨libUnit, hlibUnit, h⟩ := bind_eq_ok.mp h
  rcases hcase with rfl | ⟨rfl, hmode⟩
  · rw [hd] at hlibUnit
    cases hlibUnit
    split_ifs at h
    · obtain ⟨docUnit, -, h⟩ := bind_eq_ok.mp h
      cases h
      exact List.mem_cons_self
    · cases h
      exact List.mem_cons_self
  · rw [if_pos hmode] at h
    obtain ⟨docUnit, hdocUnit, h⟩ := bind_eq_ok.mp h
    rw [hd] at hdocUnit
    cases hdocUnit
    cases h
    simp

theorem documented_iff {u : Unit crate} : u.documented = true ↔ ∃ deps, u.mode = .doc deps := by
  unfold Unit.documented
  cases hmode : u.mode <;> simp [CompileMode.isDoc, CompileMode.isAnyTest]

theorem not_run_of_documented {u : Unit crate} (h : u.documented = true) :
    u.mode.isRunCustomBuild = false := by
  obtain ⟨deps, hmode⟩ := documented_iff.mp h
  rw [hmode]
  rfl

theorem mem_doc_of_dep {u : Unit crate} {uf : UnitFor} {next : List (Item crate)}
    (hdoc : u.documented = true) (h : computeDepsDoc bcx present ho u = .ok next) {d : Item crate}
    (hdep : Dep bcx (u, uf) d) : d ∈ next := by
  obtain ⟨deps, hdeps, h⟩ := bind_eq_ok.mp h
  obtain ⟨own, hown, h⟩ := bind_eq_ok.mp h
  cases h
  have hrun := not_run_of_documented hdoc
  cases hdep with
  | script hrun' _ =>
    rw [hrun] at hrun'
    cases hrun'
  | run _ _ hd =>
    exact List.mem_append_left _
      (List.mem_append_right _ (mem_buildScriptItems.mpr ⟨_, hd, rfl⟩))
  | lib _ hdoc' _ _ _ =>
    rw [hdoc] at hdoc'
    cases hdoc'
  | @doc u d uf id lib mode _ hlisted hlib hcase hd =>
    obtain ⟨listed, hleads, hany⟩ := hlisted
    obtain ⟨new, hnew, hsub⟩ := mem_collectDeps_of hdeps (Resolve.mem_deps.mpr hleads)
      (congrArg Except.ok hany) hlib
    exact List.mem_append_left _
      (List.mem_append_left _ (hsub (mem_docUnits_of hcase hd hnew)))
  | own _ hcase hlib hd =>
    rcases hcase with ⟨-, hbin, rfl⟩ | ⟨hdoc', -⟩
    · rw [docOwnLib, if_pos hbin] at hown
      exact List.mem_append_right _ (mem_maybeLib_of hown hlib hd)
    · rw [hdoc] at hdoc'
      cases hdoc'
  | bin htest _ _ _ _ _ =>
    obtain ⟨deps, hmode⟩ := documented_iff.mp hdoc
    rw [hmode] at htest
    cases htest.2

theorem mem_testedBins_of {u d : Unit crate} {ret : List (Item crate)} {bin : Target}
    (h : testedBins bcx u = .ok ret) (hbin : bin ∈ (bcx.package u.pkg).targets)
    (hisBin : bin.isBin = true)
    (hfeatures : ∀ f ∈ bin.requiredFeatures.getD [], f ∈ bcx.resolve.featuresOf u.pkg)
    (hd : newUnit bcx u.pkg bin .newNormal (u.kind.forTarget bin) .build = .ok d) :
    (d, UnitFor.newNormal) ∈ ret := by
  refine (mem_of_mapM_ok h _).mpr ⟨bin, List.mem_filter.mpr ⟨hbin, ?_⟩, ?_⟩
  · rw [hisBin, Bool.true_and, List.all_eq_true]
    exact fun f hf => decide_eq_true (hfeatures f hf)
  · rw [hd]
    rfl

theorem mem_own_of_dep {u : Unit crate} {uf : UnitFor} {own : List (Item crate)}
    (h : ownDeps bcx u uf = .ok own) {d : Item crate}
    (hdep : d ∈ buildScriptItems bcx u ∧ u.target.isCustomBuild = false ∨
      (u.target.isCustomBuild = false ∧ (u.target.isLib = true → u.mode = .doctest) ∧
        (∀ lib, maybeLib bcx u uf = .ok lib → d ∈ lib ∨
          ((u.mode.isCheck = false ∧ u.mode.isAnyTest = true) ∧
            (u.target.isTest = true ∨ u.target.isBench = true) ∧
            ∀ bins, testedBins bcx u = .ok bins → d ∈ bins)))) : d ∈ own := by
  have htarget : u.target.isCustomBuild = false := hdep.elim And.right And.left
  simp only [ownDeps, htarget, Bool.false_eq_true, if_false] at h
  split_ifs at h with hlib hbins
  · cases h
    rcases hdep with ⟨hscript, -⟩ | ⟨-, hmode, -⟩
    · exact hscript
    · simp only [Bool.and_eq_true, decide_eq_true_eq] at hlib
      exact absurd (hmode hlib.1) hlib.2
  · obtain ⟨lib, hmaybe, h⟩ := bind_eq_ok.mp h
    obtain ⟨bins, htested, h⟩ := bind_eq_ok.mp h
    cases h
    rcases hdep with ⟨hscript, -⟩ | ⟨-, -, hothers⟩
    · exact List.mem_append_left _ (List.mem_append_left _ hscript)
    · rcases hothers lib hmaybe with hmem | ⟨-, -, hall⟩
      · exact List.mem_append_left _ (List.mem_append_right _ hmem)
      · exact List.mem_append_right _ (hall bins htested)
  · obtain ⟨lib, hmaybe, h⟩ := bind_eq_ok.mp h
    cases h
    rcases hdep with ⟨hscript, -⟩ | ⟨-, -, hothers⟩
    · exact List.mem_append_left _ hscript
    · rcases hothers lib hmaybe with hmem | ⟨⟨hcheck, htest⟩, hkind, -⟩
      · exact List.mem_append_right _ hmem
      · refine absurd ?_ hbins
        rcases hkind with hkind | hkind <;> simp [hcheck, htest, hkind]

/-- Everything that is a dependency is among the dependencies. -/
theorem mem_of_dep {item : Item crate} {next : List (Item crate)}
    (h : plainDeps bcx ho item = .ok next) {d : Item crate} (hdep : Dep bcx item d) : d ∈ next := by
  obtain ⟨u, uf⟩ := item
  simp only [plainDeps, computeDeps] at h
  split_ifs at h with hrun hdoc
  -- a build script that is run: its one dependency is the unit that compiles it
  · cases hdep with
    | script _ hd =>
      simp only [computeDepsCustomBuild, hd, bind, Except.bind] at h
      cases h
      exact List.mem_singleton_self _
    | doc hdoc _ _ _ _ =>
      rw [not_run_of_documented hdoc] at hrun
      cases hrun
    | bin htest _ _ _ _ _ =>
      have hmode : u.mode = .runCustomBuild := by simpa [CompileMode.isRunCustomBuild] using hrun
      rw [hmode] at htest
      cases htest.2
    | _ => simp_all
  · exact mem_doc_of_dep hdoc h hdep
  · rw [Bool.not_eq_true] at hrun hdoc
    -- libraries first, then what belongs to the package itself
    obtain ⟨deps, hdeps, h⟩ := bind_eq_ok.mp h
    obtain ⟨own, hown, h⟩ := bind_eq_ok.mp h
    cases h
    cases hdep with
    | script hrun' _ =>
      rw [hrun] at hrun'
      cases hrun'
    | run _ hcase hd =>
      refine List.mem_append_right _ (mem_own_of_dep hown (.inl ⟨?_, ?_⟩))
      · exact mem_buildScriptItems.mpr ⟨_, hd, rfl⟩
      · exact hcase.resolve_left (by rw [Unit.documented, hdoc]; simp)
    | lib _ _ hlisted hlib hd =>
      obtain ⟨listed, hleads, hany⟩ := hlisted
      have hne : listed.isEmpty = false := by
        cases listed with
        | nil => cases hany
        | cons dep listed => rfl
      obtain ⟨new, hnew, hsub⟩ := mem_collectDeps_of hdeps (Resolve.mem_deps.mpr hleads)
        (by rw [hne, hany]; rfl) hlib
      refine List.mem_append_left _ (hsub ?_)
      simp only [libUnit, hd, bind, Except.bind] at hnew
      cases hnew
      exact List.mem_singleton_self _
    | doc hdoc' _ _ _ _ =>
      rw [Unit.documented, hdoc] at hdoc'
      cases hdoc'
    | own _ hcase hlib hd =>
      rcases hcase with ⟨hdoc', -⟩ | ⟨-, htarget, hmode, rfl⟩
      · rw [Unit.documented, hdoc] at hdoc'
        cases hdoc'
      · exact List.mem_append_right _ (mem_own_of_dep hown (.inr ⟨htarget, hmode,
          fun lib hmaybe => .inl (mem_maybeLib_of hmaybe hlib hd)⟩))
    | bin htest hkind hbin hisBin hfeatures hd =>
      refine List.mem_append_right _ (mem_own_of_dep hown (.inr ⟨?_, ?_, fun lib _ => .inr
        ⟨htest, hkind, fun bins hbins => mem_testedBins_of hbins hbin hisBin hfeatures hd⟩⟩))
      · rcases hkind with hkind | hkind <;> simp_all [Target.isTest, Target.isBench,
          Target.isCustomBuild]
      · rcases hkind with hkind | hkind <;> simp_all [Target.isTest, Target.isBench, Target.isLib]

/-! ### What is not at hand -/

section Missing

variable {σ : Type} {Good : σ → Prop}
  {get : PackageId (SourceId crate) → StateT σ (Except (Error crate)) Bool}

theorem collectDep_isPlain (hget : ∀ id, IsPlain Good (get id) (present id))
    (used : PackageId (SourceId crate) → List (Dependency (SourceId crate) R) →
      Except (Error crate) Bool)
    (units : PackageId (SourceId crate) → Target → Except (Error crate) (List (Item crate)))
    (ret : List (Item crate))
    (dep : PackageId (SourceId crate) × List (Dependency (SourceId crate) R)) :
    IsPlain Good (collectDep bcx get used units ret dep)
      (collectDep bcx present used units ret dep) := by
  unfold collectDep
  refine (IsPlain.lift _).bind fun b => .ite ((hget dep.1).bind fun found => .ite ?_ (.pure ret))
    (.pure ret)
  cases (bcx.package dep.1).targets.find? Target.isLib with
  | none => exact .pure ret
  | some lib => exact (IsPlain.lift _).bind fun new => .pure _

theorem collectDeps_isPlain (hget : ∀ id, IsPlain Good (get id) (present id))
    (used : PackageId (SourceId crate) → List (Dependency (SourceId crate) R) →
      Except (Error crate) Bool)
    (units : PackageId (SourceId crate) → Target → Except (Error crate) (List (Item crate)))
    (deps : List (PackageId (SourceId crate) × List (Dependency (SourceId crate) R))) :
    IsPlain Good (collectDeps bcx get used units deps)
      (collectDeps bcx present used units deps) :=
  .foldlM (fun ret dep => collectDep_isPlain hget used units ret dep) deps []

/-- If nothing was missing at the end, then the dependencies are the plain ones. -/
theorem computeDeps_isPlain (hget : ∀ id, IsPlain Good (get id) (present id)) (item : Item crate) :
    IsPlain Good (computeDeps bcx get ho item) (plainDeps bcx ho item) := by
  unfold plainDeps computeDeps
  refine .ite (.lift _) (.ite ?_ ?_)
  · exact (collectDeps_isPlain hget _ _ _).bind fun ret => (IsPlain.lift _).bind fun own => .pure _
  · exact (collectDeps_isPlain hget _ _ _).bind fun ret => (IsPlain.lift _).bind fun own => .pure _

theorem append_subset_append_right {l l' : List (Item crate)} (h : l ⊆ l')
    (k : List (Item crate)) : l ++ k ⊆ l' ++ k :=
  List.append_subset.mpr
    ⟨List.subset_append_of_subset_left k h, List.subset_append_right l' k⟩

/-- Whatever is missing, what is found is among the plain dependencies. -/
theorem collectDep_refines {I : σ → Prop}
    {used : PackageId (SourceId crate) → List (Dependency (SourceId crate) R) →
      Except (Error crate) Bool}
    {units : PackageId (SourceId crate) → Target → Except (Error crate) (List (Item crate))}
    {dep : PackageId (SourceId crate) × List (Dependency (SourceId crate) R)}
    (hget : Refines I (fun _ _ => True) (get dep.1) (present dep.1)) {ret ret' : List (Item crate)}
    (hret : ret ⊆ ret') :
    Refines I (· ⊆ ·) (collectDep bcx get used units ret dep)
      (collectDep bcx present used units ret' dep) := by
  unfold collectDep
  refine (Refines.lift _).bind fun b b' _ hb => ?_
  subst hb
  refine .ite (fun _ => hget.bind fun found found' hfound _ => ?_) fun _ => .pure hret
  cases hfound
  rw [if_pos rfl]
  cases (bcx.package dep.1).targets.find? Target.isLib with
  | none =>
    split_ifs <;> exact .pure hret
  | some lib =>
    cases found with
    | false =>
      intro s full hs hfull
      obtain ⟨new, -, hfull⟩ := bind_eq_ok.mp hfull
      cases hfull
      exact ⟨ret, s, rfl, hs, List.subset_append_of_subset_left _ hret⟩
    | true =>
      refine (Refines.lift _).bind fun new new' _ hnew => .pure ?_
      subst hnew
      exact append_subset_append_right hret new

theorem collectDeps_refines {I : σ → Prop}
    {used : PackageId (SourceId crate) → List (Dependency (SourceId crate) R) →
      Except (Error crate) Bool}
    {units : PackageId (SourceId crate) → Target → Except (Error crate) (List (Item crate))}
    {deps : List (PackageId (SourceId crate) × List (Dependency (SourceId crate) R))}
    (hget : ∀ dep ∈ deps, Refines I (fun _ _ => True) (get dep.1) (present dep.1)) :
    Refines I (· ⊆ ·) (collectDeps bcx get used units deps)
      (collectDeps bcx present used units deps) :=
  .foldlM (fun _ _ dep hdep hret => collectDep_refines (hget dep hdep) hret)
    (List.Subset.refl [])

theorem computeDeps_refines {I : σ → Prop} {item : Item crate}
    (hget : ∀ dep ∈ bcx.resolve.deps ho item.1.pkg,
      Refines I (fun _ _ => True) (get dep.1) (present dep.1)) :
    Refines I (· ⊆ ·) (computeDeps bcx get ho item) (plainDeps bcx ho item) := by
  have heq : ∀ x : Except (Error crate) (List (Item crate)),
      Refines I (· ⊆ ·) (liftM x : StateT σ (Except (Error crate)) (List (Item crate))) x := by
    intro x s full hs hfull
    obtain ⟨a, s', ha, hs', rfl⟩ := Refines.lift x s full hs hfull
    exact ⟨a, s', ha, hs', List.Subset.refl a⟩
  unfold plainDeps computeDeps
  refine .ite (fun _ => heq _) fun _ => .ite (fun _ => ?_) fun _ => ?_
  · refine (collectDeps_refines hget).bind fun ret ret' _ hret => ?_
    refine (Refines.lift _).bind fun own own' _ hown => .pure ?_
    subst hown
    exact append_subset_append_right (append_subset_append_right hret _) own
  · refine (collectDeps_refines hget).bind fun ret ret' _ hret => ?_
    refine (Refines.lift _).bind fun own own' _ hown => .pure ?_
    subst hown
    exact append_subset_append_right hret own

end Missing

/-! ### What can go wrong -/

/-- What is known of the packages of a build: all that are needed are among them, with some
dependency for each edge, and their profiles are valid. -/
structure Complete (bcx : BuildContext crate R) (roots : List (Unit crate))
    (packages : List (PackageId (SourceId crate))) : Prop where
  roots : ∀ u ∈ roots, u.pkg ∈ packages
  leadsTo : ∀ pkg ∈ packages, ∀ id listed, LeadsTo bcx pkg id listed → id ∈ packages ∧ listed ≠ []
  valid : ∃ warnings, bcx.profiles.validatePackages packages = .ok warnings

section Complete

variable {roots : List (Unit crate)} {packages : List (PackageId (SourceId crate))}

theorem Complete.newUnit_ok (h : Complete bcx roots packages) {pkg : PackageId (SourceId crate)}
    (hpkg : pkg ∈ packages) (target : Target) (unitFor : UnitFor) (kind : Kind)
    (mode : CompileMode) : ∃ d, newUnit bcx pkg target unitFor kind mode = .ok d := by
  obtain ⟨warnings, hvalid⟩ := h.valid
  have hprofile := Profiles.getProfile_eq
    (Profiles.unambiguous_of_validatePackages hvalid mode bcx.release pkg hpkg)
    (bcx.isMember pkg) unitFor
  exact ⟨_, newUnit_eq_ok.mpr ⟨_, hprofile, rfl⟩⟩

theorem Complete.maybeLib_ok (h : Complete bcx roots packages) {u : Unit crate}
    (hpkg : u.pkg ∈ packages) (unitFor : UnitFor) : ∃ ret, maybeLib bcx u unitFor = .ok ret := by
  unfold maybeLib
  cases (bcx.package u.pkg).targets.find? Target.linkable with
  | none => exact ⟨[], rfl⟩
  | some lib =>
    obtain ⟨d, hd⟩ := h.newUnit_ok hpkg lib unitFor (u.kind.forTarget lib)
      (checkOrBuildMode u.mode lib)
    exact ⟨_, bind_eq_ok.mpr ⟨d, hd, rfl⟩⟩

theorem Complete.testedBins_ok (h : Complete bcx roots packages) {u : Unit crate}
    (hpkg : u.pkg ∈ packages) : ∃ ret, testedBins bcx u = .ok ret := by
  refine exists_mapM_ok fun bin _ => ?_
  obtain ⟨d, hd⟩ := h.newUnit_ok hpkg bin .newNormal (u.kind.forTarget bin) .build
  exact ⟨_, bind_eq_ok.mpr ⟨d, hd, rfl⟩⟩

theorem Complete.ownDeps_ok (h : Complete bcx roots packages) {u : Unit crate}
    (hpkg : u.pkg ∈ packages) (unitFor : UnitFor) : ∃ ret, ownDeps bcx u unitFor = .ok ret := by
  obtain ⟨lib, hlib⟩ := h.maybeLib_ok hpkg unitFor
  obtain ⟨bins, hbins⟩ := h.testedBins_ok hpkg
  unfold ownDeps
  split_ifs
  · exact ⟨_, rfl⟩
  · exact ⟨_, rfl⟩
  · exact ⟨_, bind_eq_ok.mpr ⟨lib, hlib, bind_eq_ok.mpr ⟨bins, hbins, rfl⟩⟩⟩
  · exact ⟨_, bind_eq_ok.mpr ⟨lib, hlib, rfl⟩⟩

theorem collectDeps_ok {used : PackageId (SourceId crate) →
      List (Dependency (SourceId crate) R) → Except (Error crate) Bool}
    {units : PackageId (SourceId crate) → Target → Except (Error crate) (List (Item crate))}
    {deps : List (PackageId (SourceId crate) × List (Dependency (SourceId crate) R))}
    (hused : ∀ dep ∈ deps, ∃ b, used dep.1 dep.2 = .ok b)
    (hunits : ∀ dep ∈ deps, ∀ lib, ∃ new, units dep.1 lib = .ok new) :
    ∃ ret, collectDeps bcx present used units deps = .ok ret := by
  suffices hloop : ∃ ret, deps.foldlM (collectDep bcx present used units) [] = .ok ret ∧ True from
    ⟨hloop.choose, hloop.choose_spec.1⟩
  refine exists_foldlM_ok (P := fun _ _ => True) trivial ?_
  rintro pre dep post ret hsplit -
  have hdep : dep ∈ deps := by simp [hsplit]
  obtain ⟨b, hb⟩ := hused dep hdep
  suffices hstep : ∃ ret', collectDep bcx present used units ret dep = .ok ret' from
    ⟨hstep.choose, hstep.choose_spec, trivial⟩
  cases b with
  | false => exact ⟨ret, bind_eq_ok.mpr ⟨false, hb, rfl⟩⟩
  | true =>
    cases hlib : (bcx.package dep.1).targets.find? Target.isLib with
    | none =>
      refine ⟨ret, bind_eq_ok.mpr ⟨true, hb, bind_eq_ok.mpr ⟨true, rfl, ?_⟩⟩⟩
      simp only [hlib]
      rfl
    | some lib =>
      obtain ⟨new, hnew⟩ := hunits dep hdep lib
      refine ⟨ret ++ new, bind_eq_ok.mpr ⟨true, hb, bind_eq_ok.mpr ⟨true, rfl, ?_⟩⟩⟩
      simp only [hlib]
      exact bind_eq_ok.mpr ⟨new, hnew, rfl⟩

theorem Complete.docUnits_ok (h : Complete bcx roots packages) (u : Unit crate)
    {id : PackageId (SourceId crate)} (hid : id ∈ packages) (lib : Target) :
    ∃ ret, docUnits bcx u id lib = .ok ret := by
  obtain ⟨libUnit, hlib⟩ := h.newUnit_ok hid lib (UnitFor.newNormal.withForHost lib.forHost)
    (u.kind.forTarget lib) (checkOrBuildMode u.mode lib)
  obtain ⟨docUnit, hdoc⟩ := h.newUnit_ok hid lib (UnitFor.newNormal.withForHost lib.forHost)
    (u.kind.forTarget lib) u.mode
  simp only [docUnits, hlib, hdoc, bind, Except.bind]
  split_ifs <;> exact ⟨_, rfl⟩

/-- If everything is at hand and valid, then there are dependencies. -/
theorem Complete.plainDeps_ok (h : Complete bcx roots packages) {item : Item crate}
    (hpkg : item.1.pkg ∈ packages) : ∃ next, plainDeps bcx ho item = .ok next := by
  obtain ⟨u, uf⟩ := item
  have hdeps : ∀ dep ∈ bcx.resolve.deps ho u.pkg, dep.1 ∈ packages ∧ dep.2 ≠ [] :=
    fun dep hdep => h.leadsTo u.pkg hpkg dep.1 dep.2 (Resolve.mem_deps.mp hdep)
  simp only [plainDeps, computeDeps]
  split_ifs with hrun hdoc
  · obtain ⟨d, hd⟩ := h.newUnit_ok hpkg u.target .newBuild .host .build
    exact ⟨_, bind_eq_ok.mpr ⟨d, hd, rfl⟩⟩
  · have hret : ∃ ret, collectDeps bcx present (fun _ listed => .ok (listed.any fun dep =>
        decide (dep.kind = .normal) && bcx.depPlatformActivated dep u.kind)) (docUnits bcx u)
        (bcx.resolve.deps ho u.pkg) = .ok ret :=
      collectDeps_ok (fun dep _ => ⟨_, rfl⟩)
        fun dep hdep lib => h.docUnits_ok u (hdeps dep hdep).1 lib
    obtain ⟨ret, hret⟩ := hret
    have hown : ∃ own, docOwnLib bcx u = .ok own := by
      unfold docOwnLib
      split_ifs
      · exact h.maybeLib_ok hpkg .newNormal
      · exact ⟨[], rfl⟩
    obtain ⟨own, hown⟩ := hown
    exact ⟨_, bind_eq_ok.mpr ⟨ret, hret, bind_eq_ok.mpr ⟨own, hown, rfl⟩⟩⟩
  · have hret : ∃ ret, collectDeps bcx present (fun id listed =>
        if listed.isEmpty then .error (.unlisted id) else .ok (listed.any (bcx.used u)))
        (libUnit bcx u uf) (bcx.resolve.deps ho u.pkg) = .ok ret := by
      apply collectDeps_ok
      · intro dep hdep
        rw [if_neg (by simpa using (hdeps dep hdep).2)]
        exact ⟨_, rfl⟩
      · intro dep hdep lib
        obtain ⟨d, hd⟩ := h.newUnit_ok (hdeps dep hdep).1 lib (uf.withForHost lib.forHost)
          (u.kind.forTarget lib) (checkOrBuildMode u.mode lib)
        exact ⟨_, bind_eq_ok.mpr ⟨d, hd, rfl⟩⟩
    obtain ⟨ret, hret⟩ := hret
    obtain ⟨own, hown⟩ := h.ownDeps_ok hpkg uf
    exact ⟨_, bind_eq_ok.mpr ⟨ret, hret, bind_eq_ok.mpr ⟨own, hown, rfl⟩⟩⟩

end Complete

end Cargo.Compiler.UnitDependencies
