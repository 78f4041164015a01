import Cargo.Compiler.UnitDependencies.Graph

/-!
# When the graph of units is acyclic

The packages may have cycles, as a test may depend on a package that depends on the one that is
tested. Within the graph of the units this goes from a test to the library of the other package
and ends at the library of its own. But the runs of build scripts forget by way of what they came to
depend on each other, and for them the dependencies of tests count like all others.

Units are ranked by the height of their package among the dependencies that count, and within a
package by their level: the build script, its run, the library, and then the rest. What uses the
dependencies for tests is never depended on, and ranks above all.

## Main definitions

* `TransitiveDep`, `LinkedDevDep`, `Before`
* `Unit.tier`, `Unit.level`, `rank`

## Main results

* `rank_lt_of_dep`, `rank_lt_of_links` — the rank decreases
* `buildUnitDependencies_acyclic`
-/

set_option autoImplicit false

namespace Cargo.Compiler.UnitDependencies

open Relation
open Cargo.Core hiding Kind
open Cargo.Math Cargo.Resolver Cargo.Util
open Cargo.Compiler.CustomBuild (Kind)

variable {crate : UrlCrate} {R : Type} {bcx : BuildContext crate R}
  {ho : HashOrder (PackageId (SourceId crate))} {roots : List (Unit crate)}
  {packages : List (PackageId (SourceId crate))}

/-- The second package is a transitive dependency of the first. -/
def TransitiveDep (bcx : BuildContext crate R) (p q : PackageId (SourceId crate)) : Prop :=
  Listed bcx Dependency.isTransitive p q

def BuildContext.hasCustomBuild (bcx : BuildContext crate R) (p : PackageId (SourceId crate)) :
    Bool := (bcx.package p).targets.any Target.isCustomBuild

/-- The second package is a dependency for tests of the first, both have build scripts, and the
second has a `links` key. -/
def LinkedDevDep (bcx : BuildContext crate R) (p q : PackageId (SourceId crate)) : Prop :=
  Listed bcx (fun dep => !dep.isTransitive) p q ∧ bcx.hasCustomBuild p = true ∧
    bcx.hasCustomBuild q = true ∧ (bcx.package q).links.isSome = true

/-- The dependencies that count for the order of the packages. -/
def Before (bcx : BuildContext crate R) (p q : PackageId (SourceId crate)) : Prop :=
  TransitiveDep bcx p q ∨ LinkedDevDep bcx p q

/-! ### Ranks -/

/-- What uses the dependencies for tests comes above everything else, and what is run but is no
build script above that. -/
def Unit.tier (u : Unit crate) : ℕ :=
  if u.mode.isRunCustomBuild then if u.target.isCustomBuild then 0 else 2
  else if u.documented || u.target.isCustomBuild then 0
  else if u.target.isTest || u.target.isExample || u.mode.isAnyTest then 1
  else 0

/-- The level of a unit in its package. -/
def Unit.level (u : Unit crate) : ℕ :=
  if u.mode.isRunCustomBuild then 1
  else if u.documented then if u.target.isBin then 3 else 2
  else if u.target.isCustomBuild then 0
  else if u.target.isLib then 2
  else 3

theorem Unit.level_le (u : Unit crate) : u.level ≤ 3 := by
  unfold Unit.level
  split_ifs <;> omega

/-- The height of a package: how many others come before it. -/
noncomputable def height (bcx : BuildContext crate R)
    (packages : List (PackageId (SourceId crate))) (p : PackageId (SourceId crate)) : ℕ :=
  reachRank (Before bcx) packages.toFinset p

/-- The rank of a unit: its tier, then the height of its package, then its level. -/
noncomputable def rank (bcx : BuildContext crate R)
    (packages : List (PackageId (SourceId crate))) (u : Unit crate) : ℕ :=
  u.tier * (4 * packages.toFinset.card + 4) + 4 * height bcx packages u.pkg + u.level

section Rank

variable (hacyclic : Acyclic (Before bcx))

include hacyclic

theorem height_lt {p q : PackageId (SourceId crate)} (hpq : Before bcx p q) (hq : q ∈ packages) :
    height bcx packages q < height bcx packages p :=
  hacyclic.reachRank_lt hpq (List.mem_toFinset.mpr hq)

theorem height_lt_card {p : PackageId (SourceId crate)} (hp : p ∈ packages) :
    height bcx packages p < packages.toFinset.card :=
  hacyclic.reachRank_lt_card (List.mem_toFinset.mpr hp)

/-- A lower tier is a lower rank. -/
theorem rank_lt_of_tier {u d : Unit crate} (hd : d.pkg ∈ packages) (htier : d.tier < u.tier) :
    rank bcx packages d < rank bcx packages u := by
  have hheight := height_lt_card hacyclic hd
  have hlevel := d.level_le
  have hmul : (d.tier + 1) * (4 * packages.toFinset.card + 4) ≤
      u.tier * (4 * packages.toFinset.card + 4) := Nat.mul_le_mul_right _ htier
  unfold rank
  rw [Nat.add_mul, Nat.one_mul] at hmul
  omega

/-- In a package that comes before, with no higher tier, the rank is lower. -/
theorem rank_lt_of_before {u d : Unit crate} (hd : d.pkg ∈ packages) (htier : d.tier ≤ u.tier)
    (hbefore : Before bcx u.pkg d.pkg) : rank bcx packages d < rank bcx packages u := by
  have hheight := height_lt hacyclic hbefore hd
  have hlevel := d.level_le
  have hmul := Nat.mul_le_mul_right (4 * packages.toFinset.card + 4) htier
  unfold rank
  omega

omit hacyclic in
/-- In the same package the level counts. -/
theorem rank_lt_of_level {u d : Unit crate} (hpkg : d.pkg = u.pkg) (htier : d.tier ≤ u.tier)
    (hlevel : d.level < u.level) : rank bcx packages d < rank bcx packages u := by
  have hmul := Nat.mul_le_mul_right (4 * packages.toFinset.card + 4) htier
  unfold rank
  rw [hpkg]
  omega

end Rank

/-! ### The units that are made -/

theorem kind_of_isLib {target : Target} (h : target.isLib = true) :
    ∃ kinds, target.kind = .lib kinds := by
  unfold Target.isLib at h
  split at h
  · exact ⟨_, by assumption⟩
  · cases h

theorem isLib_of_linkable {target : Target} (h : target.linkable = true) : target.isLib = true := by
  unfold Target.linkable at h
  unfold Target.isLib
  split at h
  · rfl
  · cases h

/-- What a unit is made from. -/
theorem fields_of_newUnit {pkg : PackageId (SourceId crate)} {target : Target}
    {unitFor : UnitFor} {kind : Kind} {mode : CompileMode} {d : Unit crate}
    (h : newUnit bcx pkg target unitFor kind mode = .ok d) :
    d.pkg = pkg ∧ d.target = target ∧ d.kind = kind ∧ d.mode = mode := by
  obtain ⟨profile, -, rfl⟩ := newUnit_eq_ok.mp h
  exact ⟨rfl, rfl, rfl, rfl⟩

theorem fields_of_depBuildScript {u d : Unit crate} (h : depBuildScript bcx u = some d) :
    d.pkg = u.pkg ∧ d.target ∈ (bcx.package u.pkg).targets ∧ d.target.isCustomBuild = true ∧
      d.kind = u.kind ∧ d.mode = .runCustomBuild := by
  obtain ⟨t, ht, rfl⟩ := depBuildScript_eq_some.mp h
  exact ⟨rfl, List.mem_of_find?_eq_some ht, List.find?_some ht, rfl, rfl⟩

/-- A library that is compiled or checked. -/
theorem tier_lib {d : Unit crate} (hlib : d.target.isLib = true)
    (hmode : d.mode = .build ∨ d.mode = .check false) : d.tier = 0 ∧ d.level = 2 := by
  obtain ⟨kinds, hkind⟩ := kind_of_isLib hlib
  rcases hmode with hmode | hmode <;>
    simp [Unit.tier, Unit.level, Unit.documented, hmode, hlib, hkind, Target.isCustomBuild,
      Target.isTest, Target.isExample, CompileMode.isRunCustomBuild, CompileMode.isDoc,
      CompileMode.isAnyTest]

/-- What is documented. -/
theorem tier_documented {d : Unit crate} (hdoc : d.documented = true) :
    d.tier = 0 ∧ 2 ≤ d.level ∧ (d.target.isBin = true → d.level = 3) := by
  have hrun : d.mode.isRunCustomBuild = false := by
    unfold Unit.documented at hdoc
    cases hmode : d.mode <;> simp_all [CompileMode.isDoc, CompileMode.isRunCustomBuild]
  simp only [Unit.tier, Unit.level, hrun, hdoc, Bool.false_eq_true, if_false, Bool.true_or,
    if_true, true_and]
  split_ifs <;> simp_all

/-- The run of a build script. -/
theorem tier_run {d : Unit crate} (hmode : d.mode = .runCustomBuild)
    (htarget : d.target.isCustomBuild = true) : d.tier = 0 ∧ d.level = 1 := by
  simp [Unit.tier, Unit.level, hmode, htarget, CompileMode.isRunCustomBuild]

/-- A binary that is compiled. -/
theorem tier_bin {d : Unit crate} (hbin : d.target.isBin = true) (hmode : d.mode = .build) :
    d.tier = 0 := by
  have hkind : d.target.kind = .bin := by simpa [Target.isBin] using hbin
  simp [Unit.tier, Unit.documented, hmode, hkind, Target.isCustomBuild, Target.isTest,
    Target.isExample, CompileMode.isRunCustomBuild, CompileMode.isDoc, CompileMode.isAnyTest]

theorem documented_of_isAnyTest {u : Unit crate} (h : u.mode.isAnyTest = true) :
    u.documented = false := by
  simp [Unit.documented, h]

theorem isRunCustomBuild_of_isAnyTest {u : Unit crate} (h : u.mode.isAnyTest = true) :
    u.mode.isRunCustomBuild = false := by
  cases hmode : u.mode <;> simp_all [CompileMode.isAnyTest, CompileMode.isRunCustomBuild]

/-- What may use the dependencies for tests. -/
theorem tier_of_dev {u : Unit crate} (hrun : u.mode.isRunCustomBuild = false)
    (hdoc : u.documented = false) (htarget : u.target.isCustomBuild = false)
    (hdev : u.target.isTest = true ∨ u.target.isExample = true ∨ u.mode.isAnyTest = true) :
    u.tier = 1 := by
  simp only [Unit.tier, hrun, hdoc, htarget, Bool.false_eq_true, if_false, Bool.or_self]
  rw [if_pos]
  rcases hdev with h | h | h <;> simp [h]

theorem not_isCustomBuild_of_test {target : Target}
    (h : target.isTest = true ∨ target.isBench = true) : target.isCustomBuild = false := by
  rcases h with h | h <;> simp_all [Target.isTest, Target.isBench, Target.isCustomBuild]

/-- A dependency that is used is transitive, unless it is for tests. -/
theorem used_cases {u : Unit crate} {dep : Dependency (SourceId crate) R}
    (h : bcx.used u dep = true) : dep.isTransitive = true ∨ u.target.isCustomBuild = false ∧
      (u.target.isTest = true ∨ u.target.isExample = true ∨ u.mode.isAnyTest = true) := by
  by_cases htransitive : dep.isTransitive = true
  · exact .inl htransitive
  · right
    have hkind : dep.kind ≠ .build := by
      intro hkind
      exact htransitive (by simp [Dependency.isTransitive, hkind])
    unfold BuildContext.used at h
    split_ifs at h with hscript hdev
    refine ⟨by simpa [hkind] using hscript, ?_⟩
    rw [Bool.not_eq_true] at htransitive
    simp only [htransitive, Bool.not_false, Bool.true_and, Bool.and_eq_true,
      Bool.not_eq_true'] at hdev
    cases htest : u.target.isTest <;> cases hexample : u.target.isExample <;>
      cases hmode : u.mode.isAnyTest <;> simp_all

theorem transitiveDep_of_documents {u : Unit crate} {id : PackageId (SourceId crate)}
    (h : Listed bcx (bcx.documents u) u.pkg id) : TransitiveDep bcx u.pkg id := by
  obtain ⟨listed, hleads, hany⟩ := h
  obtain ⟨dep, hdep, hdoc⟩ := List.any_eq_true.mp hany
  refine ⟨listed, hleads, List.any_eq_true.mpr ⟨dep, hdep, ?_⟩⟩
  simp only [BuildContext.documents, Bool.and_eq_true, decide_eq_true_eq] at hdoc
  simp [Dependency.isTransitive, hdoc.1]

/-! ### The rank decreases -/

section Decreases

variable (h : Complete bcx roots packages) (hacyclic : Acyclic (Before bcx))

/-- The build script comes before its run. -/
theorem rank_lt_of_script {u d : Unit crate} (hacyclic : Acyclic (Before bcx))
    (hrun : u.mode.isRunCustomBuild = true)
    (hd : newUnit bcx u.pkg u.target .newBuild .host .build = .ok d) (hpkg : u.pkg ∈ packages) :
    rank bcx packages d < rank bcx packages u := by
  obtain ⟨hdpkg, hdtarget, -, hdmode⟩ := fields_of_newUnit hd
  cases htarget : u.target.isCustomBuild with
  | true =>
    have htier : d.tier = 0 := by
      simp [Unit.tier, hdtarget, hdmode, htarget, CompileMode.isRunCustomBuild]
    have hlevel : d.level = 0 := by
      simp [Unit.level, Unit.documented, hdtarget, hdmode, htarget, CompileMode.isRunCustomBuild,
        CompileMode.isDoc]
    apply rank_lt_of_level hdpkg
    · exact htier.trans_le (Nat.zero_le _)
    · rw [hlevel]
      simp [Unit.level, hrun]
  | false =>
    have htop : u.tier = 2 := by simp [Unit.tier, hrun, htarget]
    have hmode : d.mode.isRunCustomBuild = false := by rw [hdmode]; rfl
    apply rank_lt_of_tier hacyclic (hdpkg ▸ hpkg)
    rw [htop]
    simp only [Unit.tier, hmode, Bool.false_eq_true, if_false]
    split_ifs <;> omega

/-- The run of the build script comes before what needs its output. -/
theorem rank_lt_of_run {u d : Unit crate} (hrun : u.mode.isRunCustomBuild = false)
    (hcase : u.documented = true ∨ u.target.isCustomBuild = false)
    (hd : depBuildScript bcx u = some d) : rank bcx packages d < rank bcx packages u := by
  obtain ⟨hdpkg, -, hdtarget, -, hdmode⟩ := fields_of_depBuildScript hd
  obtain ⟨htier, hlevel⟩ := tier_run hdmode hdtarget
  apply rank_lt_of_level hdpkg
  · exact htier.trans_le (Nat.zero_le _)
  · rw [hlevel]
    cases hdoc : u.documented with
    | true => exact (tier_documented hdoc).2.1
    | false =>
      have htarget : u.target.isCustomBuild = false := by simpa [hdoc] using hcase
      simp only [Unit.level, hrun, hdoc, htarget, Bool.false_eq_true, if_false]
      split_ifs <;> omega

include h hacyclic

/-- The library of another package comes before. -/
theorem rank_lt_of_lib {u d : Unit crate} {uf : UnitFor} {id : PackageId (SourceId crate)}
    {lib : Target} (hrun : u.mode.isRunCustomBuild = false) (hdoc : u.documented = false)
    (hlisted : Listed bcx (bcx.used u) u.pkg id) (hlib : libOf bcx id = some lib)
    (hd : newUnit bcx id lib (uf.withForHost lib.forHost) (u.kind.forTarget lib)
      (checkOrBuildMode u.mode lib) = .ok d) (hpkg : u.pkg ∈ packages) :
    rank bcx packages d < rank bcx packages u := by
  have hid := h.mem_of_listed hpkg hlisted
  obtain ⟨rfl, rfl, -, hdmode⟩ := fields_of_newUnit hd
  obtain ⟨htier, -⟩ := tier_lib (mem_of_libOf hlib).2 (hdmode ▸ checkOrBuildMode_cases _ _)
  obtain ⟨listed, hleads, hany⟩ := hlisted
  obtain ⟨dep, hdep, hused⟩ := List.any_eq_true.mp hany
  rcases used_cases hused with htransitive | ⟨htarget, hdev⟩
  · apply rank_lt_of_before hacyclic hid
    · exact htier.trans_le (Nat.zero_le _)
    · exact .inl ⟨listed, hleads, List.any_eq_true.mpr ⟨dep, hdep, htransitive⟩⟩
  · apply rank_lt_of_tier hacyclic hid
    rw [htier, tier_of_dev hrun hdoc htarget hdev]
    exact Nat.one_pos

theorem rank_lt_of_doc {u d : Unit crate} {uf : UnitFor} {id : PackageId (SourceId crate)}
    {lib : Target} {mode : CompileMode} (hlisted : Listed bcx (bcx.documents u) u.pkg id)
    (hlib : libOf bcx id = some lib)
    (hcase : mode = checkOrBuildMode u.mode lib ∨ mode = u.mode ∧ u.mode = .doc true)
    (hd : newUnit bcx id lib uf (u.kind.forTarget lib) mode = .ok d) (hpkg : u.pkg ∈ packages) :
    rank bcx packages d < rank bcx packages u := by
  have hid := h.mem_of_listed hpkg hlisted
  obtain ⟨rfl, rfl, -, rfl⟩ := fields_of_newUnit hd
  apply rank_lt_of_before hacyclic hid
  · rcases hcase with hmode | ⟨hmode, hdoc⟩
    · exact (tier_lib (mem_of_libOf hlib).2 (hmode ▸ checkOrBuildMode_cases _ _)).1.trans_le
        (Nat.zero_le _)
    · apply (tier_documented _).1.trans_le (Nat.zero_le _)
      simp [Unit.documented, hmode, hdoc, CompileMode.isDoc, CompileMode.isAnyTest]
  · exact .inl (transitiveDep_of_documents hlisted)

omit h in
/-- The library of the same package comes before. -/
theorem rank_lt_of_own {u d : Unit crate} {uf : UnitFor} {lib : Target}
    (hrun : u.mode.isRunCustomBuild = false)
    (hcase : u.documented = true ∧ u.target.isBin = true ∨ u.documented = false ∧
      u.target.isCustomBuild = false ∧ (u.target.isLib = true → u.mode = .doctest))
    (hlib : (bcx.package u.pkg).targets.find? Target.linkable = some lib)
    (hd : newUnit bcx u.pkg lib uf (u.kind.forTarget lib) (checkOrBuildMode u.mode lib) = .ok d)
    (hpkg : u.pkg ∈ packages) : rank bcx packages d < rank bcx packages u := by
  obtain ⟨hdpkg, rfl, -, hdmode⟩ := fields_of_newUnit hd
  obtain ⟨htier, hlevel⟩ := tier_lib (isLib_of_linkable (List.find?_some hlib))
    (hdmode ▸ checkOrBuildMode_cases _ _)
  rcases hcase with ⟨hdoc, hbin⟩ | ⟨hdoc, htarget, hisLib⟩
  · apply rank_lt_of_level hdpkg
    · exact htier.trans_le (Nat.zero_le _)
    · rw [hlevel, (tier_documented hdoc).2.2 hbin]
      omega
  · by_cases hdev : u.target.isTest = true ∨ u.target.isExample = true ∨ u.mode.isAnyTest = true
    · apply rank_lt_of_tier hacyclic (hdpkg ▸ hpkg)
      rw [htier, tier_of_dev hrun hdoc htarget hdev]
      exact Nat.one_pos
    · apply rank_lt_of_level hdpkg
      · exact htier.trans_le (Nat.zero_le _)
      · -- a library would be run as a test
        have hnotLib : u.target.isLib = false := by
          by_contra hlib'
          rw [Bool.not_eq_false] at hlib'
          exact hdev (.inr (.inr (by rw [hisLib hlib']; rfl)))
        rw [hlevel]
        simp [Unit.level, hrun, hdoc, htarget, hnotLib]

omit h in
theorem rank_lt_of_bin {u d : Unit crate} {bin : Target} (htest : u.mode.isAnyTest = true)
    (htarget : u.target.isTest = true ∨ u.target.isBench = true) (hisBin : bin.isBin = true)
    (hd : newUnit bcx u.pkg bin .newNormal (u.kind.forTarget bin) .build = .ok d)
    (hpkg : u.pkg ∈ packages) : rank bcx packages d < rank bcx packages u := by
  obtain ⟨hdpkg, rfl, -, hdmode⟩ := fields_of_newUnit hd
  apply rank_lt_of_tier hacyclic (hdpkg ▸ hpkg)
  rw [tier_bin hisBin hdmode, tier_of_dev (isRunCustomBuild_of_isAnyTest htest)
    (documented_of_isAnyTest htest) (not_isCustomBuild_of_test htarget) (.inr (.inr htest))]
  exact Nat.one_pos

/-- A dependency has a lower rank. -/
theorem rank_lt_of_dep {item d : Item crate} (hdep : Dep bcx item d)
    (hpkg : item.1.pkg ∈ packages) : rank bcx packages d.1 < rank bcx packages item.1 := by
  cases hdep with
  | script hrun hd => exact rank_lt_of_script hacyclic hrun hd hpkg
  | run hrun hcase hd => exact rank_lt_of_run hrun hcase hd
  | lib hrun hdoc hlisted hlib hd => exact rank_lt_of_lib h hacyclic hrun hdoc hlisted hlib hd hpkg
  | doc _ hlisted hlib hcase hd => exact rank_lt_of_doc h hacyclic hlisted hlib hcase hd hpkg
  | own hrun hcase hlib hd =>
    refine rank_lt_of_own hacyclic hrun ?_ hlib hd hpkg
    rcases hcase with ⟨hdoc, hbin, -⟩ | ⟨hdoc, htarget, hisLib, -⟩
    · exact .inl ⟨hdoc, hbin⟩
    · exact .inr ⟨hdoc, htarget, hisLib⟩
  | bin htest htarget _ hisBin _ hd =>
    exact rank_lt_of_bin hacyclic htest.2 htarget hisBin hd hpkg

end Decreases

/-! ### The graph is acyclic -/

/-- The run of a build script is a dependency within its package only. -/
theorem pkg_of_run {u d : Unit crate} {uf uf' : UnitFor} (hdep : Dep bcx (u, uf) (d, uf'))
    (hrun : d.mode.isRunCustomBuild = true) :
    d.pkg = u.pkg ∧ d.target.isCustomBuild = true ∧ bcx.hasCustomBuild u.pkg = true := by
  have hno : ∀ {mode : CompileMode} {target : Target},
      d.mode = checkOrBuildMode mode target → False := by
    intro mode target hmode
    rcases checkOrBuildMode_cases mode target with heq | heq <;>
      (rw [hmode, heq] at hrun; cases hrun)
  cases hdep with
  | script _ hd =>
    rw [(fields_of_newUnit hd).2.2.2] at hrun
    cases hrun
  | run _ _ hd =>
    obtain ⟨hpkg, hmem, htarget, -, -⟩ := fields_of_depBuildScript hd
    exact ⟨hpkg, htarget, List.any_eq_true.mpr ⟨d.target, hmem, htarget⟩⟩
  | lib _ _ _ _ hd => exact (hno (fields_of_newUnit hd).2.2.2).elim
  | doc _ _ _ hcase hd =>
    have hmode := (fields_of_newUnit hd).2.2.2
    rcases hcase with rfl | ⟨rfl, hdoc⟩
    · exact (hno hmode).elim
    · rw [hmode, hdoc] at hrun
      cases hrun
  | own _ _ _ hd => exact (hno (fields_of_newUnit hd).2.2.2).elim
  | bin _ _ _ _ _ hd =>
    rw [(fields_of_newUnit hd).2.2.2] at hrun
    cases hrun

/-- A dependency in another package comes from an edge between the two, which is transitive or is
for tests. -/
theorem listed_of_dep {u d : Unit crate} {uf uf' : UnitFor} (hdep : Dep bcx (u, uf) (d, uf'))
    (hpkg : d.pkg ≠ u.pkg) :
    TransitiveDep bcx u.pkg d.pkg ∨ Listed bcx (fun dep => !dep.isTransitive) u.pkg d.pkg := by
  cases hdep with
  | script _ hd => exact absurd (fields_of_newUnit hd).1 hpkg
  | run _ _ hd => exact absurd (fields_of_depBuildScript hd).1 hpkg
  | lib _ _ hlisted _ hd =>
    rw [(fields_of_newUnit hd).1]
    obtain ⟨listed, hleads, hany⟩ := hlisted
    obtain ⟨dep, hdep, -⟩ := List.any_eq_true.mp hany
    cases htransitive : dep.isTransitive with
    | true => exact .inl ⟨listed, hleads, List.any_eq_true.mpr ⟨dep, hdep, htransitive⟩⟩
    | false =>
      exact .inr ⟨listed, hleads, List.any_eq_true.mpr ⟨dep, hdep, by rw [htransitive]; rfl⟩⟩
  | doc _ hlisted _ _ hd =>
    rw [(fields_of_newUnit hd).1]
    exact .inl (transitiveDep_of_documents hlisted)
  | own _ _ _ hd => exact absurd (fields_of_newUnit hd).1 hpkg
  | bin _ _ _ _ _ hd => exact absurd (fields_of_newUnit hd).1 hpkg

/-- The run of a build script that another depends on has a lower rank. -/
theorem rank_lt_of_links (h : Complete bcx roots packages) (hacyclic : Acyclic (Before bcx))
    {t : SuccTable (Unit crate)} (hbuilt : Built bcx ho roots t) {u d : Unit crate}
    (hlinks : Links bcx t u d) : rank bcx packages d < rank bcx packages u := by
  obtain ⟨hrun, parent, other, hparent, hother, hne, -, hlinksKey, hd⟩ := hlinks
  obtain ⟨uf₁, uf₁', -, hdep₁⟩ := hbuilt.dep_of_next hparent
  obtain ⟨uf₂, uf₂', hvisited, hdep₂⟩ := hbuilt.dep_of_next hother
  obtain ⟨hupkg, hutarget, hscript⟩ := pkg_of_run hdep₁ hrun
  obtain ⟨hdpkg, hdmem, hdtarget, -, hdmode⟩ := fields_of_depBuildScript hd
  have hotherPkg : other.pkg ∈ packages := h.pkg_mem (.dep hvisited hdep₂)
  have humode : u.mode = .runCustomBuild := by
    simpa [CompileMode.isRunCustomBuild] using hrun
  have hbefore : Before bcx u.pkg d.pkg := by
    rw [hupkg, hdpkg]
    rcases listed_of_dep hdep₂ (hupkg ▸ hne) with htransitive | hdev
    · exact .inl htransitive
    · exact .inr ⟨hdev, hscript, List.any_eq_true.mpr ⟨d.target, hdmem, hdtarget⟩, hlinksKey⟩
  apply rank_lt_of_before hacyclic (hdpkg ▸ hotherPkg) _ hbefore
  exact (tier_run hdmode hdtarget).1.trans_le (Nat.zero_le _)

/-- The table that was made is the one that is made with everything at hand, also if it took
downloads that might have failed. -/
theorem lower_of_passes {net : Network crate} {fuel n : ℕ} {f : Fetch crate}
    {t : SuccTable (Unit crate)} (h : passes bcx net ho fuel roots n f = .ok t) :
    lower bcx ho fuel roots = .ok ⟨⟨⟩, t⟩ := by
  induction n generalizing f with
  | zero => cases h
  | succ n ih =>
    obtain ⟨s, hs, h⟩ := bind_eq_ok.mp h
    split_ifs at h with hwaiting
    · obtain ⟨f', -, h⟩ := bind_eq_ok.mp h
      exact ih h
    · cases h
      rw [Nat.not_lt, Nat.le_zero, Finset.card_eq_zero] at hwaiting
      exact pass_eq_lower hs hwaiting

/-- What is made of a table has no cycle. -/
theorem Built.acyclic_connect (h : Complete bcx roots packages) (hacyclic : Acyclic (Before bcx))
    {t : SuccTable (Unit crate)} (hbuilt : Built bcx ho roots t) (ho' : HashOrder (Unit crate)) :
    Acyclic (Next (connectRunCustomBuildDeps bcx ho' t)) := by
  refine acyclic_of_rank (rank bcx packages) ?_
  intro u d hnext
  rcases next_connect.mp hnext with hnext | ⟨-, hlinks⟩
  · obtain ⟨uf, uf', hvisited, hdep⟩ := hbuilt.dep_of_next hnext
    exact rank_lt_of_dep h hacyclic hdep (h.pkg_mem hvisited)
  · exact rank_lt_of_links h hacyclic hbuilt hlinks

/-- If the transitive dependencies of the packages have no cycle, not even together with the
dependencies for tests between packages with build scripts, then the graph of the units has none. -/
theorem buildUnitDependencies_acyclic (bcx : BuildContext crate R) (net : Network crate)
    (ho : HashOrder (PackageId (SourceId crate))) (ho' : HashOrder (Unit crate)) (fuel : ℕ)
    (roots : List (Unit crate)) (pkgs : Finset (PackageId (SourceId crate)))
    (packages : List (PackageId (SourceId crate))) (h : Complete bcx roots packages)
    (hacyclic : Acyclic (Before bcx)) (t : SuccTable (Unit crate))
    (ht : buildUnitDependencies bcx net ho ho' fuel roots pkgs = .ok t) : Acyclic (Next t) := by
  obtain ⟨base, hbase, ht⟩ := bind_eq_ok.mp ht
  cases ht
  exact (built_of_lower (lower_of_passes hbase)).acyclic_connect h hacyclic ho'

theorem exampleContext_acyclic_before : Acyclic (Before exampleContext) := by
  have hstep : ∀ p q, Before exampleContext p q → p = exampleFoo ∧ q = exampleBar := by
    rintro p q (⟨listed, hleads, -⟩ | ⟨⟨listed, hleads, -⟩, -⟩) <;>
      exact ⟨(exampleContext_leadsTo hleads).1, (exampleContext_leadsTo hleads).2.1⟩
  refine acyclic_of_rank (fun p => if p = exampleFoo then 1 else 0) ?_
  intro p q hpq
  obtain ⟨rfl, rfl⟩ := hstep p q hpq
  decide

/-- A network from which everything comes, in some order. -/
noncomputable def exampleNetwork : Network (.plain fun text => .ok ⟨text⟩) where
  start _ := .ok false
  wait _ pending := if h : pending.Nonempty then .ok h.choose else .error (.download "timed out")
  wait_mem := by
    intro n pending id hid
    split_ifs at hid with h
    cases hid
    exact h.choose_spec

theorem exampleNetwork_reliable : exampleNetwork.Reliable where
  start _ := ⟨false, rfl⟩
  wait _ _ h := ⟨h.choose, dif_pos h⟩

theorem exampleContext_acyclic : ∃ fuel t, buildUnitDependencies exampleContext exampleNetwork
    (.following [exampleFoo, exampleBar]) (.following [exampleRoot]) fuel [exampleRoot] ∅ = .ok t ∧
      Acyclic (Next t) := by
  obtain ⟨base, -, bound, hbound⟩ := buildUnitDependencies_eq exampleContext_complete
    (.following [exampleFoo, exampleBar]) (.following [exampleRoot])
  have ht := hbound exampleNetwork exampleNetwork_reliable ∅ bound le_rfl
  exact ⟨bound, _, ht, buildUnitDependencies_acyclic _ _ _ _ _ _ _ _ exampleContext_complete
    exampleContext_acyclic_before _ ht⟩

end Cargo.Compiler.UnitDependencies
