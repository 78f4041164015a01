import Cargo.Core.Profiles.Precedence

/-!
# What overrides cannot set

An override may not set the panic strategy, so that all packages that are compiled with a profile
have the same one, if they have one at all.

## Main definitions

* `ProfileMaker.PanicFree` — no override sets the panic strategy
* `ProfileMaker.panic` — the panic strategy of a profile
* `ProfileMaker.Plain` — overrides for build scripts and for packages do not meet

## Main results

* `Profiles.panicFree_of_new` — profiles that have been validated are like that
* `Profiles.panic_of_getProfile` — the panic strategy of a package is that of the profile
* `ProfileMaker.layers_of_plain` — what overrides for build scripts do is the same for all packages
-/

set_option autoImplicit false

namespace Cargo.Core

open Cargo.Util Cargo.Compiler Cargo.Math

variable {crate : UrlCrate}

/-- No override in a table sets the panic strategy. -/
structure TomlPanicFree (toml : TomlProfile) : Prop where
  build : ∀ o ∈ toml.buildOverride, o.settings.panic = none
  overrides : ∀ os ∈ toml.overrides, ∀ entry ∈ os, entry.2.settings.panic = none

/-- Something holds of the table of the manifest and of that of the configuration. -/
structure ProfileMaker.Tables (P : TomlProfile → Prop) (maker : ProfileMaker) : Prop where
  toml : ∀ t ∈ maker.toml, P t.val
  config : ∀ t ∈ maker.config, P t.val

/-- No override sets the panic strategy. -/
def ProfileMaker.PanicFree (maker : ProfileMaker) : Prop := maker.Tables TomlPanicFree

/-- The panic strategy of a profile. -/
def ProfileMaker.panic (maker : ProfileMaker) : Option String :=
  (maker.config.bind fun t => t.val.settings.panic).or
    ((maker.toml.bind fun t => t.val.settings.panic).or maker.default.panic)

/-- There are no overrides for build scripts, or there are no others. -/
def ProfileMaker.Plain (maker : ProfileMaker) : Prop :=
  maker.Tables (fun t => t.buildOverride = none) ∨ maker.Tables (fun t => t.overrides = none)

/-! ### The panic strategy -/

theorem mergeProfile_panic (profile : Profile) (toml : ProfileSettings) :
    (mergeProfile profile toml).panic = toml.panic.or profile.panic := by
  unfold mergeProfile
  cases toml.panic <;> rfl

theorem mergeSome_panic {toml : Option TomlProfile} (h : ∀ o ∈ toml, o.settings.panic = none)
    (profile : Profile) : (mergeSome profile toml).panic = profile.panic := by
  cases toml with
  | none => rfl
  | some toml =>
    rw [mergeSome, mergeProfile_panic, h toml rfl]
    rfl

/-- The table sets the panic strategy, and none of its overrides does. -/
theorem panic_of_mergeToml {toml : TomlProfile} (h : TomlPanicFree toml)
    {pkgId : Option (PackageId (SourceId crate))} {isMember : Bool} {unitFor : UnitFor}
    {profile profile' : Profile} (hmerge : mergeToml pkgId isMember unitFor profile toml =
      .ok profile') : profile'.panic = toml.settings.panic.or profile.panic := by
  unfold mergeToml at hmerge
  dsimp only at hmerge
  have hpanic : (if unitFor.customBuild = true then
        mergeSome (mergeProfile profile toml.settings) toml.buildOverride
      else mergeProfile profile toml.settings).panic = toml.settings.panic.or profile.panic := by
    split_ifs
    · rw [mergeSome_panic h.build, mergeProfile_panic]
    · exact mergeProfile_panic _ _
  generalize (if unitFor.customBuild = true then
      mergeSome (mergeProfile profile toml.settings) toml.buildOverride
    else mergeProfile profile toml.settings) = build at hmerge hpanic
  cases hoverrides : toml.overrides with
  | none =>
    simp only [hoverrides] at hmerge
    cases hmerge
    exact hpanic
  | some overrides =>
    have hfree := h.overrides overrides hoverrides
    -- the override for all packages that are no members
    have hall : (if (!isMember) = true then mergeSome build (overrides.lookup .all)
        else build).panic = build.panic := by
      split_ifs
      · refine mergeSome_panic ?_ build
        intro o ho
        exact hfree _ (Assoc.mem_of_lookup ho)
      · rfl
    simp only [hoverrides] at hmerge
    cases pkgId with
    | none =>
      cases hmerge
      exact hall.trans hpanic
    | some id =>
      have hnamed : ∀ o ∈ matchingOverrides overrides id, o.settings.panic = none := by
        intro o ho
        obtain ⟨⟨key, toml'⟩, hentry, hkey⟩ := List.mem_filterMap.mp ho
        cases key with
        | all => cases hkey
        | spec s =>
          dsimp only at hkey
          split_ifs at hkey
          cases hkey
          exact hfree _ hentry
      cases hmatching : matchingOverrides overrides id with
      | nil =>
        simp only [hmatching] at hmerge
        cases hmerge
        exact hall.trans hpanic
      | cons specProfile rest =>
        cases rest with
        | nil =>
          simp only [hmatching] at hmerge
          cases hmerge
          rw [mergeProfile_panic, hnamed specProfile (by simp [hmatching]), Option.none_or]
          exact hall.trans hpanic
        | cons other rest =>
          simp only [hmatching] at hmerge
          cases hmerge

theorem panic_of_mergeOption {toml : Option KeyedProfile} (h : ∀ t ∈ toml, TomlPanicFree t.val)
    {pkgId : Option (PackageId (SourceId crate))} {isMember : Bool} {unitFor : UnitFor}
    {profile profile' : Profile}
    (hmerge : mergeOption pkgId isMember unitFor profile toml = .ok profile') :
    profile'.panic = (toml.bind fun t => t.val.settings.panic).or profile.panic := by
  cases toml with
  | none =>
    cases hmerge
    rfl
  | some toml => exact panic_of_mergeToml (h toml rfl) hmerge

theorem ProfileMaker.panic_of_getProfile {maker : ProfileMaker} (h : maker.PanicFree)
    {pkgId : Option (PackageId (SourceId crate))} {isMember : Bool} {unitFor : UnitFor}
    {profile : Profile} (hprofile : maker.getProfile pkgId isMember unitFor = .ok profile) :
    profile.panic = maker.panic := by
  obtain ⟨toml, htoml, hconfig⟩ := bind_eq_ok.mp hprofile
  rw [panic_of_mergeOption h.config hconfig, panic_of_mergeOption h.toml htoml]
  rfl

/-- The panic strategy of a package is that of the profile, or there is none. -/
theorem Profiles.panic_of_getProfile {profiles : Profiles} {mode : CompileMode} {release : Bool}
    (h : (profiles.maker mode release).PanicFree) {id : PackageId (SourceId crate)}
    {isMember : Bool} {unitFor : UnitFor} {profile : Profile}
    (hprofile : profiles.getProfile id isMember unitFor mode release = .ok profile) :
    profile.panic = if unitFor.panicOk && !mode.isAnyTest then
      (profiles.maker mode release).panic else none := by
  obtain ⟨made, hmade, hprofile⟩ := bind_eq_ok.mp hprofile
  have hpanic := ProfileMaker.panic_of_getProfile h hmade
  cases hok : unitFor.panicOk <;> cases htest : mode.isAnyTest <;> rw [hok, htest] at hprofile <;>
    cases hprofile
  all_goals first
    | rfl
    | exact hpanic

/-! ### Profiles that have been validated -/

theorem panic_of_validateOverride {toml : TomlProfile} (h : toml.validateOverride = .ok ()) :
    toml.settings.panic = none := by
  unfold TomlProfile.validateOverride at h
  split_ifs at h with _ hpanic
  simpa using hpanic

theorem panicFree_of_validate {toml : TomlProfile} {name : String} {features : Features}
    {warnings : List String} (h : toml.validate name features = .ok warnings) :
    TomlPanicFree toml := by
  unfold TomlProfile.validate at h
  constructor
  · intro o ho
    rw [Option.mem_def] at ho
    simp only [ho] at h
    obtain ⟨⟨⟩, -, h⟩ := bind_eq_ok.mp h
    obtain ⟨⟨⟩, hoverride, -⟩ := bind_eq_ok.mp h
    exact panic_of_validateOverride hoverride
  · intro os hos entry hentry
    rw [Option.mem_def] at hos
    -- the overrides are checked whether there is one for build scripts or not
    have hoverrides : os.forM (fun entry => entry.2.validateOverride) = .ok () := by
      cases hbuild : toml.buildOverride with
      | none =>
        simp only [hbuild, hos] at h
        obtain ⟨⟨⟩, -, h⟩ := bind_eq_ok.mp h
        obtain ⟨⟨⟩, -, h⟩ := bind_eq_ok.mp h
        exact (bind_eq_ok.mp h).choose_spec.1
      | some override =>
        simp only [hbuild, hos] at h
        obtain ⟨⟨⟩, -, h⟩ := bind_eq_ok.mp h
        obtain ⟨⟨⟩, -, h⟩ := bind_eq_ok.mp h
        obtain ⟨⟨⟩, -, h⟩ := bind_eq_ok.mp h
        exact (bind_eq_ok.mp h).choose_spec.1
    exact panic_of_validateOverride (forM_ok_iff.mp hoverrides entry hentry)

theorem panicFree_of_validateProfile {profile : Option KeyedProfile} {name : String}
    {features : Features} {warnings : List String}
    (h : validateProfile profile name features = .ok warnings) :
    ∀ t ∈ profile, TomlPanicFree t.val := by
  rintro t rfl
  exact panicFree_of_validate h

/-- The tables of a manifest. -/
structure ManifestPanicFree (profiles : TomlProfiles) : Prop where
  test : ∀ t ∈ profiles.test, TomlPanicFree t.val
  doc : ∀ t ∈ profiles.doc, TomlPanicFree t.val
  bench : ∀ t ∈ profiles.bench, TomlPanicFree t.val
  dev : ∀ t ∈ profiles.dev, TomlPanicFree t.val
  release : ∀ t ∈ profiles.release, TomlPanicFree t.val

theorem panicFree_of_validateProfiles {profiles : TomlProfiles} {features : Features}
    {warnings : List String} (h : profiles.validate features = .ok warnings) :
    ManifestPanicFree profiles := by
  obtain ⟨test, htest, h⟩ := bind_eq_ok.mp h
  obtain ⟨doc, hdoc, h⟩ := bind_eq_ok.mp h
  obtain ⟨bench, hbench, h⟩ := bind_eq_ok.mp h
  obtain ⟨dev, hdev, h⟩ := bind_eq_ok.mp h
  obtain ⟨release, hrelease, -⟩ := bind_eq_ok.mp h
  exact ⟨panicFree_of_validateProfile htest, panicFree_of_validateProfile hdoc,
    panicFree_of_validateProfile hbench, panicFree_of_validateProfile hdev,
    panicFree_of_validateProfile hrelease⟩

/-- After profiles have been validated, no override sets the panic strategy. -/
theorem Profiles.panicFree_of_new {toml : Option TomlProfiles} {config : ConfigProfiles}
    {features : Features} {profiles : Profiles} {warnings : List String}
    (h : Profiles.new toml config features = .ok (profiles, warnings)) (mode : CompileMode)
    (release : Bool) : (profiles.maker mode release).PanicFree := by
  have hvalid : (∀ p ∈ toml, ManifestPanicFree p) ∧
      (∃ w, config.validate features = .ok w) ∧ profiles = ⟨⟨.defaultDev, toml.bind (·.dev),
        config.dev⟩, ⟨.defaultRelease, toml.bind (·.release), config.release⟩,
        ⟨.defaultTest, toml.bind (·.test), none⟩, ⟨.defaultBench, toml.bind (·.bench), none⟩,
        ⟨.defaultDoc, toml.bind (·.doc), none⟩⟩ := by
    unfold Profiles.new at h
    cases toml with
    | none =>
      obtain ⟨w, -, h⟩ := bind_eq_ok.mp h
      obtain ⟨w', hconfig, h⟩ := bind_eq_ok.mp h
      cases h
      exact ⟨by simp, ⟨w', hconfig⟩, rfl⟩
    | some toml =>
      obtain ⟨w, htoml, h⟩ := bind_eq_ok.mp h
      obtain ⟨w', hconfig, h⟩ := bind_eq_ok.mp h
      cases h
      refine ⟨?_, ⟨w', hconfig⟩, rfl⟩
      rintro _ ⟨⟩
      exact panicFree_of_validateProfiles htoml
  obtain ⟨htoml, ⟨w, hconfig⟩, rfl⟩ := hvalid
  obtain ⟨devWarnings, hdevConfig, hconfig⟩ := bind_eq_ok.mp hconfig
  obtain ⟨releaseWarnings, hreleaseConfig, -⟩ := bind_eq_ok.mp hconfig
  -- a profile of the manifest was validated as a part of it
  have hsome : ∀ f : TomlProfiles → Option KeyedProfile,
      (∀ p, ManifestPanicFree p → ∀ t ∈ f p, TomlPanicFree t.val) →
      ∀ t ∈ toml.bind f, TomlPanicFree t.val := by
    intro f hf t ht
    obtain ⟨p, hp, ht⟩ := Option.bind_eq_some_iff.mp ht
    exact hf p (htoml p hp) t ht
  have htest : ProfileMaker.PanicFree ⟨.defaultTest, toml.bind (·.test), none⟩ :=
    ⟨hsome _ fun _ hp => hp.test, by simp⟩
  have hbench : ProfileMaker.PanicFree ⟨.defaultBench, toml.bind (·.bench), none⟩ :=
    ⟨hsome _ fun _ hp => hp.bench, by simp⟩
  have hdoc : ProfileMaker.PanicFree ⟨.defaultDoc, toml.bind (·.doc), none⟩ :=
    ⟨hsome _ fun _ hp => hp.doc, by simp⟩
  have hdev : ProfileMaker.PanicFree ⟨.defaultDev, toml.bind (·.dev), config.dev⟩ :=
    ⟨hsome _ fun _ hp => hp.dev, panicFree_of_validateProfile (mapError_eq_ok.mp hdevConfig)⟩
  have hrelease : ProfileMaker.PanicFree ⟨.defaultRelease, toml.bind (·.release), config.release⟩ :=
    ⟨hsome _ fun _ hp => hp.release,
      panicFree_of_validateProfile (mapError_eq_ok.mp hreleaseConfig)⟩
  cases mode with
  | test => cases release <;> assumption
  | bench => exact hbench
  | doc deps => exact hdoc
  | build | check test | doctest | runCustomBuild => cases release <;> assumption

/-! ### Overrides that do not meet -/

theorem optionLayers_of_none {toml : Option KeyedProfile} (id : PackageId (SourceId crate))
    (isMember : Bool) (unitFor unitFor' : UnitFor) (h : ∀ t ∈ toml, t.val.buildOverride = none) :
    optionLayers toml id isMember unitFor = optionLayers toml id isMember unitFor' := by
  cases toml with
  | none => rfl
  | some toml =>
    simp only [optionLayers, tomlLayers, h toml rfl]
    split_ifs <;> rfl

theorem optionLayers_of_noOverrides {toml : Option KeyedProfile}
    (id id' : PackageId (SourceId crate)) (isMember isMember' : Bool) (unitFor : UnitFor)
    (h : ∀ t ∈ toml, t.val.overrides = none) :
    optionLayers toml id isMember unitFor = optionLayers toml id' isMember' unitFor := by
  cases toml with
  | none => rfl
  | some toml =>
    simp only [optionLayers, tomlLayers, h toml rfl]
    cases isMember <;> cases isMember' <;> rfl

/-- Being for a build script changes nothing, or changes the same for all packages. -/
theorem ProfileMaker.layers_of_plain {maker : ProfileMaker} (h : maker.Plain)
    (unitFor unitFor' : UnitFor) :
    (∀ (id : PackageId (SourceId crate)) isMember,
        maker.layers id isMember unitFor = maker.layers id isMember unitFor') ∨
      ∀ (id id' : PackageId (SourceId crate)) isMember isMember' uf,
        maker.layers id isMember uf = maker.layers id' isMember' uf := by
  rcases h with h | h
  · left
    intro id isMember
    rw [layers, layers, optionLayers_of_none id isMember unitFor unitFor' h.toml,
      optionLayers_of_none id isMember unitFor unitFor' h.config]
  · right
    intro id id' isMember isMember' uf
    rw [layers, layers, optionLayers_of_noOverrides id id' isMember isMember' uf h.toml,
      optionLayers_of_noOverrides id id' isMember isMember' uf h.config]

end Cargo.Core
