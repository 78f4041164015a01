import Cargo.Core.Profiles
import Cargo.Math.Iteration
import Mathlib.Data.List.Perm.Basic
import Mathlib.Data.Option.Basic

/-!
# Which setting wins

Each setting of a profile is the first that is set, in the order that is documented: the
configuration before the manifest; within each the override for the package, the one for all
packages that are no members, the one for build scripts, and the profile itself; and in the end
the built-in settings. Profiles are made the other way round, by overwriting.

## Main definitions

* `firstSet` — the first value that a layer sets
* `tomlLayers`, `ProfileMaker.layers`, `Profiles.documented` — the documented order
* `Profiles.Reordered` — the same profiles with the overrides met in another order

## Main results

* `getProfile_documented` — the profile of a package is the documented one
-/

set_option autoImplicit false

namespace Cargo.Core

open Cargo.Util Cargo.Compiler Cargo.Math

/-! ### Layers -/

section Layers

variable {L A : Type}

/-- The value that the first of the layers sets, or the default. -/
def firstSet (set : L → Option A) (layers : List L) (default : A) : A :=
  (layers.findSome? set).getD default

theorem firstSet_cons (set : L → Option A) (layer : L) (layers : List L) (default : A) :
    firstSet set (layer :: layers) default = (set layer).getD (firstSet set layers default) := by
  rw [firstSet, List.findSome?_cons]
  cases set layer with
  | none => rfl
  | some value => rfl

end Layers

/-! ### The documented order -/

namespace ProfileSettings

/-- The value of a setting of profiles that a table sets, if it does. -/
def ltoValue (settings : ProfileSettings) : Option Lto :=
  settings.lto.map fun
    | .bool b => .bool b
    | .string n => .named n

def debuginfoValue (settings : ProfileSettings) : Option (Option ℕ) :=
  settings.debug.map fun
    | .u32 debug => some debug
    | .bool true => some 2
    | .bool false => none

end ProfileSettings

/-- The profile in which each setting is the first one that is set. -/
def firstSettings (default : Profile) (layers : List ProfileSettings) : Profile where
  name := default.name
  optLevel := firstSet ProfileSettings.optLevel layers default.optLevel
  lto := firstSet ProfileSettings.ltoValue layers default.lto
  codegenUnits := firstSet (fun s => s.codegenUnits.map some) layers default.codegenUnits
  debuginfo := firstSet ProfileSettings.debuginfoValue layers default.debuginfo
  debugAssertions := firstSet ProfileSettings.debugAssertions layers default.debugAssertions
  overflowChecks := firstSet ProfileSettings.overflowChecks layers default.overflowChecks
  rpath := firstSet ProfileSettings.rpath layers default.rpath
  incremental := firstSet ProfileSettings.incremental layers default.incremental
  panic := firstSet (fun s => s.panic.map some) layers default.panic

variable {crate : UrlCrate}

/-- The tables that have a say for a package, the most important one first. -/
def tomlLayers (toml : TomlProfile) (id : PackageId (SourceId crate)) (isMember : Bool)
    (unitFor : UnitFor) : List ProfileSettings :=
  let overrides := toml.overrides.getD []
  -- `[profile.dev.overrides.name]`
  let named := (matchingOverrides overrides id).map TomlProfile.settings
  -- `[profile.dev.overrides."*"]`
  let all := if isMember then [] else ((overrides.lookup .all).map TomlProfile.settings).toList
  -- `[profile.dev.build-override]`
  let build :=
    if unitFor.customBuild then (toml.buildOverride.map TomlProfile.settings).toList else []
  named ++ all ++ build ++ [toml.settings]

/-- The layers of an optional table. -/
def optionLayers (toml : Option KeyedProfile) (id : PackageId (SourceId crate)) (isMember : Bool)
    (unitFor : UnitFor) : List ProfileSettings :=
  match toml with
  | some toml => tomlLayers toml.val id isMember unitFor
  | none => []

/-- The configuration comes before the manifest. -/
def ProfileMaker.layers (maker : ProfileMaker) (id : PackageId (SourceId crate))
    (isMember : Bool) (unitFor : UnitFor) : List ProfileSettings :=
  optionLayers maker.config id isMember unitFor ++ optionLayers maker.toml id isMember unitFor

/-- The profile of a target as it is documented. -/
def Profiles.documented (profiles : Profiles) (id : PackageId (SourceId crate)) (isMember : Bool)
    (unitFor : UnitFor) (mode : CompileMode) (release : Bool) : Profile :=
  let maker := profiles.maker mode release
  let profile := firstSettings maker.default (maker.layers id isMember unitFor)
  { profile with
    panic := if unitFor.panicOk ∧ mode.isAnyTest = false then profile.panic else none }

/-! ### Other orders of the overrides -/

/-- The same profile with its overrides in another order. -/
structure TomlReordered (toml toml' : TomlProfile) : Prop where
  settings : toml'.settings = toml.settings
  buildOverride : toml'.buildOverride = toml.buildOverride
  overrides : Option.Rel List.Perm toml.overrides toml'.overrides

structure ProfileMaker.Reordered (maker maker' : ProfileMaker) : Prop where
  default : maker'.default = maker.default
  toml : Option.Rel (fun t t' : KeyedProfile => TomlReordered t.val t'.val)
    maker.toml maker'.toml
  config : Option.Rel (fun t t' : KeyedProfile => TomlReordered t.val t'.val)
    maker.config maker'.config

/-- The same profiles with the overrides of each in another order. -/
structure Profiles.Reordered (profiles profiles' : Profiles) : Prop where
  dev : profiles.dev.Reordered profiles'.dev
  release : profiles.release.Reordered profiles'.release
  test : profiles.test.Reordered profiles'.test
  bench : profiles.bench.Reordered profiles'.bench
  doc : profiles.doc.Reordered profiles'.doc

/-! ### Overwriting -/

/-- Overwriting with a table puts it in front of the layers. -/
theorem mergeProfile_firstSettings (default : Profile) (layers : List ProfileSettings)
    (settings : ProfileSettings) :
    mergeProfile (firstSettings default layers) settings =
      firstSettings default (settings :: layers) := by
  simp only [firstSettings, firstSet_cons, mergeProfile, Profile.mk.injEq]
  refine ⟨trivial, ?_, ?_, ?_, ?_, ?_, ?_, ?_, ?_, ?_⟩
  · cases settings.optLevel <;> rfl
  · rcases hlto : settings.lto with _ | b | n <;> simp [ProfileSettings.ltoValue, hlto]
  · cases settings.codegenUnits <;> rfl
  · rcases hdebug : settings.debug with _ | n | b
    · simp [ProfileSettings.debuginfoValue, hdebug]
    · simp [ProfileSettings.debuginfoValue, hdebug]
    · cases b <;> simp [ProfileSettings.debuginfoValue, hdebug]
  · cases settings.debugAssertions <;> rfl
  · cases settings.overflowChecks <;> rfl
  · cases settings.rpath <;> rfl
  · cases settings.incremental <;> rfl
  · cases settings.panic <;> rfl

/-- Overwriting with a table that need not be there. -/
theorem mergeSome_firstSettings (default : Profile) (layers : List ProfileSettings)
    (toml : Option TomlProfile) :
    mergeSome (firstSettings default layers) toml =
      firstSettings default ((toml.map TomlProfile.settings).toList ++ layers) := by
  cases toml with
  | none => rfl
  | some toml => exact mergeProfile_firstSettings default layers toml.settings

/-- At most one override is for the package. -/
def AtMostOne (toml : TomlProfile) (id : PackageId (SourceId crate)) : Prop :=
  ∀ o ∈ toml.overrides, (matchingOverrides o id).length ≤ 1

/-- Overwriting with a table and its overrides puts their layers in front. -/
theorem mergeToml_firstSettings {toml : TomlProfile} {id : PackageId (SourceId crate)}
    (hone : AtMostOne toml id) (isMember : Bool) (unitFor : UnitFor) (default : Profile)
    (layers : List ProfileSettings) :
    mergeToml (some id) isMember unitFor (firstSettings default layers) toml =
      .ok (firstSettings default (tomlLayers toml id isMember unitFor ++ layers)) := by
  -- the override for build scripts
  have hbuild : ∀ layers, (if unitFor.customBuild then
        mergeSome (firstSettings default layers) toml.buildOverride
      else firstSettings default layers) =
      firstSettings default ((if unitFor.customBuild then
        (toml.buildOverride.map TomlProfile.settings).toList else []) ++ layers) := by
    intro layers
    split_ifs
    · exact mergeSome_firstSettings _ _ _
    · rfl
  -- the override for all packages that are no members
  have hall : ∀ (overrides : List (ProfilePackageSpec × TomlProfile)) (layers), (if !isMember then
        mergeSome (firstSettings default layers) (overrides.lookup .all)
      else firstSettings default layers) =
      firstSettings default ((if isMember then [] else
        ((overrides.lookup .all).map TomlProfile.settings).toList) ++ layers) := by
    intro overrides layers
    cases isMember with
    | false => exact mergeSome_firstSettings _ _ _
    | true => rfl
  simp only [mergeToml, mergeProfile_firstSettings, hbuild, hall]
  cases hoverrides : toml.overrides with
  | none => cases isMember <;> simp [tomlLayers, hoverrides, matchingOverrides]
  | some overrides =>
    -- the override for the package, of which there is one at most
    have hlength := hone overrides hoverrides
    cases hnamed : matchingOverrides overrides id with
    | nil => simp [tomlLayers, hoverrides, hnamed]
    | cons specProfile rest =>
      cases rest with
      | nil => simp [tomlLayers, hoverrides, hnamed]
      | cons other rest =>
        rw [hnamed] at hlength
        simp at hlength

theorem mergeOption_firstSettings {toml : Option KeyedProfile} {id : PackageId (SourceId crate)}
    (hone : ∀ t ∈ toml, AtMostOne t.val id) (isMember : Bool) (unitFor : UnitFor)
    (default : Profile) (layers : List ProfileSettings) :
    mergeOption (some id) isMember unitFor (firstSettings default layers) toml =
      .ok (firstSettings default (optionLayers toml id isMember unitFor ++ layers)) := by
  cases toml with
  | none => rfl
  | some toml => exact mergeToml_firstSettings (hone toml rfl) isMember unitFor default layers

/-- No package has two overrides in either table. -/
structure ProfileMaker.Unambiguous (maker : ProfileMaker) (id : PackageId (SourceId crate)) :
    Prop where
  toml : ∀ t ∈ maker.toml, AtMostOne t.val id
  config : ∀ t ∈ maker.config, AtMostOne t.val id

theorem ProfileMaker.getProfile_eq {maker : ProfileMaker} {id : PackageId (SourceId crate)}
    (hmaker : maker.Unambiguous id) (isMember : Bool) (unitFor : UnitFor) :
    maker.getProfile (some id) isMember unitFor =
      .ok (firstSettings maker.default (maker.layers id isMember unitFor)) := by
  have hdefault : maker.default = firstSettings maker.default [] := rfl
  have htoml := mergeOption_firstSettings hmaker.toml isMember unitFor maker.default []
  have hconfig := mergeOption_firstSettings hmaker.config isMember unitFor maker.default
    (optionLayers maker.toml id isMember unitFor)
  rw [← hdefault, List.append_nil] at htoml
  rw [ProfileMaker.getProfile, htoml]
  exact hconfig

theorem Profiles.getProfile_eq {profiles : Profiles} {id : PackageId (SourceId crate)}
    {mode : CompileMode} {release : Bool} (hmaker : (profiles.maker mode release).Unambiguous id)
    (isMember : Bool) (unitFor : UnitFor) :
    profiles.getProfile id isMember unitFor mode release =
      .ok (profiles.documented id isMember unitFor mode release) := by
  rw [Profiles.getProfile, ProfileMaker.getProfile_eq hmaker]
  simp only [bind, Except.bind, Profiles.documented]
  cases unitFor.panicOk <;> cases mode.isAnyTest <;> rfl

/-! ### What the check gives -/

/-- The overrides for a package, by their specs. -/
theorem length_matchingOverrides (overrides : List (ProfilePackageSpec × TomlProfile))
    (id : PackageId (SourceId crate)) :
    (matchingOverrides overrides id).length =
      ((overrideSpecs overrides).filter fun spec => spec.matches id).length := by
  induction overrides with
  | nil => rfl
  | cons entry overrides ih =>
    obtain ⟨key, specProfile⟩ := entry
    cases key with
    | all =>
      simp only [matchingOverrides, overrideSpecs, List.filterMap_cons] at ih ⊢
      exact ih
    | spec s =>
      by_cases hs : s.matches id
      · simp only [matchingOverrides, overrideSpecs, List.filterMap_cons, hs, if_true,
          List.filter_cons, List.length_cons] at ih ⊢
        rw [ih]
      · simp only [matchingOverrides, overrideSpecs, List.filterMap_cons, hs, if_false,
          List.filter_cons, Bool.false_eq_true] at ih ⊢
        exact ih

/-- The packages that were gone through have one override at most. -/
theorem atMostOne_of_findMatches {name : String}
    {overrides : List (ProfilePackageSpec × TomlProfile)}
    {packages : List (PackageId (SourceId crate))} {found : List (PackageIdSpec Version)}
    (hfound : findMatches name overrides packages = .ok found) :
    ∀ id ∈ packages, (matchingOverrides overrides id).length ≤ 1 := by
  unfold findMatches at hfound
  refine foldlM_ok_induction
    (P := fun seen _ => ∀ id ∈ seen, (matchingOverrides overrides id).length ≤ 1) hfound
    (by simp) ?_
  intro pre id post s s' _ hpre hstep other hother
  rcases List.mem_append.mp hother with hother | hother
  · exact hpre other hother
  · rw [List.mem_singleton.mp hother, length_matchingOverrides]
    split at hstep
    · rename_i hnil
      simp [hnil]
    · rename_i spec hone
      simp [hone]
    · cases hstep

theorem atMostOne_of_validatePackagesToml {maker : ProfileMaker}
    {packages : List (PackageId (SourceId crate))} {toml : Option KeyedProfile}
    {warnUnmatched : Bool} {warnings : List (ProfileWarning crate)}
    (hvalid : maker.validatePackagesToml packages toml warnUnmatched = .ok warnings) :
    ∀ id ∈ packages, ∀ t ∈ toml, AtMostOne t.val id := by
  rintro id hid t rfl o ho
  rw [Option.mem_def] at ho
  simp only [ProfileMaker.validatePackagesToml, Option.bind_some, ho] at hvalid
  obtain ⟨found, hfound, -⟩ := bind_eq_ok.mp hvalid
  exact atMostOne_of_findMatches hfound id hid

theorem ProfileMaker.unambiguous_of_validatePackages {maker : ProfileMaker}
    {packages : List (PackageId (SourceId crate))} {warnings : List (ProfileWarning crate)}
    (hvalid : maker.validatePackages packages = .ok warnings) :
    ∀ id ∈ packages, maker.Unambiguous id := by
  intro id hid
  obtain ⟨warnings₁, htoml, hrest⟩ := bind_eq_ok.mp hvalid
  obtain ⟨warnings₂, hconfig, -⟩ := bind_eq_ok.mp hrest
  exact ⟨atMostOne_of_validatePackagesToml htoml id hid,
    atMostOne_of_validatePackagesToml hconfig id hid⟩

/-- After the check, no package has two overrides in a profile. -/
theorem Profiles.unambiguous_of_validatePackages {profiles : Profiles}
    {packages : List (PackageId (SourceId crate))} {warnings : List (ProfileWarning crate)}
    (hvalid : profiles.validatePackages packages = .ok warnings) (mode : CompileMode)
    (release : Bool) : ∀ id ∈ packages, (profiles.maker mode release).Unambiguous id := by
  obtain ⟨devWarnings, hdev, hrest⟩ := bind_eq_ok.mp hvalid
  obtain ⟨releaseWarnings, hrelease, hrest⟩ := bind_eq_ok.mp hrest
  obtain ⟨testWarnings, htest, hrest⟩ := bind_eq_ok.mp hrest
  obtain ⟨benchWarnings, hbench, hrest⟩ := bind_eq_ok.mp hrest
  obtain ⟨docWarnings, hdoc, -⟩ := bind_eq_ok.mp hrest
  cases mode <;> cases release <;>
    first
    | exact ProfileMaker.unambiguous_of_validatePackages hdev
    | exact ProfileMaker.unambiguous_of_validatePackages hrelease
    | exact ProfileMaker.unambiguous_of_validatePackages htest
    | exact ProfileMaker.unambiguous_of_validatePackages hbench
    | exact ProfileMaker.unambiguous_of_validatePackages hdoc

/-! ### Reordered overrides -/

theorem matchingOverrides_perm {overrides overrides' : List (ProfilePackageSpec × TomlProfile)}
    (hperm : overrides.Perm overrides') (id : PackageId (SourceId crate))
    (hone : (matchingOverrides overrides id).length ≤ 1) :
    matchingOverrides overrides' id = matchingOverrides overrides id := by
  have hperm' : (matchingOverrides overrides id).Perm (matchingOverrides overrides' id) :=
    hperm.filterMap _
  -- a list of one element has no other order
  cases hnamed : matchingOverrides overrides id with
  | nil =>
    rw [hnamed] at hperm'
    exact hperm'.nil_eq.symm
  | cons named rest =>
    rw [hnamed] at hone hperm'
    have hrest : rest = [] := List.eq_nil_of_length_eq_zero (by simpa using hone)
    subst hrest
    exact (List.singleton_perm.mp hperm').symm

theorem lookup_perm {overrides overrides' : List (ProfilePackageSpec × TomlProfile)}
    (hperm : overrides.Perm overrides') (hkeys : Assoc.Keys overrides)
    (hkeys' : Assoc.Keys overrides') (key : ProfilePackageSpec) :
    overrides'.lookup key = overrides.lookup key := by
  ext toml
  rw [Assoc.lookup_eq_some_iff hkeys, Assoc.lookup_eq_some_iff hkeys', hperm.mem_iff]

/-- There are no overrides, or the same in another order. -/
theorem TomlReordered.cases {toml toml' : TomlProfile} (hreordered : TomlReordered toml toml') :
    (toml.overrides = none ∧ toml'.overrides = none) ∨ ∃ overrides overrides',
      overrides.Perm overrides' ∧ toml.overrides = some overrides ∧
        toml'.overrides = some overrides' := by
  have hoverrides := hreordered.overrides
  cases hfst : toml.overrides with
  | none =>
    cases hsnd : toml'.overrides with
    | none => exact .inl ⟨rfl, rfl⟩
    | some overrides' =>
      rw [hfst, hsnd] at hoverrides
      cases hoverrides
  | some overrides =>
    cases hsnd : toml'.overrides with
    | none =>
      rw [hfst, hsnd] at hoverrides
      cases hoverrides
    | some overrides' =>
      rw [hfst, hsnd] at hoverrides
      cases hoverrides with
      | some hperm => exact .inr ⟨overrides, overrides', hperm, rfl, rfl⟩

/-- The layers do not depend on the order of the overrides. -/
theorem tomlLayers_reordered {toml toml' : KeyedProfile}
    (hreordered : TomlReordered toml.val toml'.val) {id : PackageId (SourceId crate)}
    (hone : AtMostOne toml.val id) (isMember : Bool) (unitFor : UnitFor) :
    tomlLayers toml'.val id isMember unitFor = tomlLayers toml.val id isMember unitFor := by
  rcases hreordered.cases with ⟨hfst, hsnd⟩ | ⟨overrides, overrides', hperm, hfst, hsnd⟩
  · simp only [tomlLayers, hreordered.settings, hreordered.buildOverride, hfst, hsnd]
  · have hlookup := lookup_perm hperm (toml.property overrides hfst)
      (toml'.property overrides' hsnd) .all
    simp only [tomlLayers, hreordered.settings, hreordered.buildOverride, hfst, hsnd,
      Option.getD_some, matchingOverrides_perm hperm id (hone overrides hfst), hlookup]

theorem atMostOne_reordered {toml toml' : TomlProfile} (hreordered : TomlReordered toml toml')
    {id : PackageId (SourceId crate)} (hone : AtMostOne toml id) : AtMostOne toml' id := by
  intro o ho
  rcases hreordered.cases with ⟨-, hsnd⟩ | ⟨overrides, overrides', hperm, hfst, hsnd⟩
  · rw [hsnd] at ho
    cases ho
  · rw [hsnd] at ho
    cases ho
    have hlength := hone overrides hfst
    rwa [matchingOverrides_perm hperm id hlength]

theorem optionLayers_reordered {toml toml' : Option KeyedProfile}
    (hreordered : Option.Rel (fun t t' : KeyedProfile => TomlReordered t.val t'.val) toml toml')
    {id : PackageId (SourceId crate)} (hone : ∀ t ∈ toml, AtMostOne t.val id)
    (isMember : Bool) (unitFor : UnitFor) :
    optionLayers toml' id isMember unitFor = optionLayers toml id isMember unitFor ∧
      ∀ t ∈ toml', AtMostOne t.val id := by
  cases hreordered with
  | none => exact ⟨rfl, by simp⟩
  | some htoml =>
    refine ⟨tomlLayers_reordered htoml (hone _ rfl) isMember unitFor, ?_⟩
    rintro _ ⟨⟩
    exact atMostOne_reordered htoml (hone _ rfl)

theorem Profiles.Reordered.maker {profiles profiles' : Profiles}
    (hreordered : profiles.Reordered profiles') (mode : CompileMode) (release : Bool) :
    (profiles.maker mode release).Reordered (profiles'.maker mode release) := by
  cases mode <;> cases release <;>
    first
    | exact hreordered.dev
    | exact hreordered.release
    | exact hreordered.test
    | exact hreordered.bench
    | exact hreordered.doc

/-- After the check of the packages, the profile of each of them is made without a panic, and
it is the documented one. It is the same if the overrides are met in another order. -/
theorem getProfile_documented (profiles : Profiles)
    (packages : List (PackageId (SourceId crate))) (warnings : List (ProfileWarning crate))
    (hvalid : profiles.validatePackages packages = .ok warnings)
    (id : PackageId (SourceId crate)) (hid : id ∈ packages) (isMember : Bool) (unitFor : UnitFor)
    (mode : CompileMode) (release : Bool) :
    profiles.getProfile id isMember unitFor mode release =
        .ok (profiles.documented id isMember unitFor mode release) ∧
      ∀ profiles', profiles.Reordered profiles' →
        profiles'.getProfile id isMember unitFor mode release =
          profiles.getProfile id isMember unitFor mode release := by
  have hmaker := Profiles.unambiguous_of_validatePackages hvalid mode release id hid
  refine ⟨Profiles.getProfile_eq hmaker isMember unitFor, ?_⟩
  intro profiles' hreordered
  obtain ⟨hdefault, htoml, hconfig⟩ := hreordered.maker mode release
  obtain ⟨htomlLayers, htoml'⟩ := optionLayers_reordered htoml hmaker.toml isMember unitFor
  obtain ⟨hconfigLayers, hconfig'⟩ :=
    optionLayers_reordered hconfig hmaker.config isMember unitFor
  rw [Profiles.getProfile_eq hmaker, Profiles.getProfile_eq ⟨htoml', hconfig'⟩]
  simp only [Profiles.documented, ProfileMaker.layers, hdefault, htomlLayers, hconfigLayers]

/-! ### An override for one package -/

/-- A registry at the root of a host. -/
def exampleRegistry : SourceId (.plain fun text => .ok ⟨text⟩) where
  url := ⟨"https://example.com/".toList⟩
  canonicalUrl := ⟨"https://example.com/".toList⟩
  kind := .registry
  precise := none
  name := none
  canonical_eq := by decide

def exampleFoo : PackageId (SourceId (.plain fun text => .ok ⟨text⟩)) :=
  ⟨"foo", ⟨1, 0, 0, []⟩, exampleRegistry⟩

/-- A `dev` profile with two codegen units, one of them for all packages that are no members,
and optimization for the package `foo`. -/
def exampleToml : KeyedProfile :=
  ⟨.mk { codegenUnits := some 2 } (some [
      (.spec ⟨"foo".toList, none, none⟩, .mk { optLevel := some "3" } none none),
      (.all, .mk { codegenUnits := some 1, optLevel := some "1" } none none)]) none, by
    rintro o ⟨⟩
    decide⟩

def exampleProfiles : Profiles where
  dev := ⟨.defaultDev, some exampleToml, none⟩
  release := ⟨.defaultRelease, none, none⟩
  test := ⟨.defaultTest, none, none⟩
  bench := ⟨.defaultBench, none, none⟩
  doc := ⟨.defaultDoc, none, none⟩

/-- The package `foo` is optimized in one unit. -/
theorem foo_getProfile :
    exampleProfiles.validatePackages [exampleFoo] = .ok [] ∧
      exampleProfiles.getProfile exampleFoo false ⟨false, true⟩ .build false =
        .ok { Profile.defaultDev with optLevel := "3", codegenUnits := some 1 } := by
  have hvalid : exampleProfiles.validatePackages [exampleFoo] = .ok [] := by decide
  refine ⟨hvalid, ?_⟩
  rw [(getProfile_documented exampleProfiles _ _ hvalid exampleFoo (by simp) false ⟨false, true⟩
    .build false).1]
  decide

end Cargo.Core
