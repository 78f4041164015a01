import Cargo.Util.Toml
import Cargo.Core.PackageIdSpec
import Cargo.Math.Assoc

/-!
# Profiles as they are written

The `profile` tables of a manifest or of the configuration. A profile may have overrides for
some packages, for all that are no members, and for build scripts; an override may not have
overrides of its own, and not every setting.

## Main definitions

* `ProfileSettings`, `TomlProfile`, `ProfilePackageSpec`
* `TomlProfile.validate`, `TomlProfile.validateOverride`
* `KeyedProfile`, `TomlProfiles`, `ConfigProfiles`
-/

set_option autoImplicit false

namespace Cargo.Util

open Cargo.Core Cargo.Math

/-- A number or a truth value, as for `debug`. -/
inductive U32OrBool
  | u32 (n : ℕ)
  | bool (b : Bool)
  deriving DecidableEq

/-- The settings of a profile. -/
structure ProfileSettings where
  optLevel : Option String := none
  lto : Option StringOrBool := none
  codegenUnits : Option ℕ := none
  debug : Option U32OrBool := none
  debugAssertions : Option Bool := none
  rpath : Option Bool := none
  panic : Option String := none
  overflowChecks : Option Bool := none
  incremental : Option Bool := none
  deriving DecidableEq

/-- What an override is for. -/
inductive ProfilePackageSpec
  | spec (spec : Core.PackageIdSpec Version)
  /-- `"*"` -/
  | all
  deriving DecidableEq

/-- A profile, with its overrides in the order of their keys. -/
inductive TomlProfile
  | mk (settings : ProfileSettings)
      (overrides : Option (List (ProfilePackageSpec × TomlProfile)))
      (buildOverride : Option TomlProfile)

namespace TomlProfile

def settings : TomlProfile → ProfileSettings
  | mk settings _ _ => settings

def overrides : TomlProfile → Option (List (ProfilePackageSpec × TomlProfile))
  | mk _ overrides _ => overrides

def buildOverride : TomlProfile → Option TomlProfile
  | mk _ _ buildOverride => buildOverride

/-- What an override may not have. -/
def validateOverride (profile : TomlProfile) : Except ManifestError Unit :=
  if profile.overrides.isSome ∨ profile.buildOverride.isSome then
    .error (.other "Profile overrides cannot be nested.")
  else if profile.settings.panic.isSome then
    .error (.other "`panic` may not be specified in a profile override.")
  else if profile.settings.lto.isSome then
    .error (.other "`lto` may not be specified in a profile override.")
  else if profile.settings.rpath.isSome then
    .error (.other "`rpath` may not be specified in a profile override.")
  else .ok ()

/-- Checks a profile by its name, and gives the warnings. -/
def validate (profile : TomlProfile) (name : String) (features : Features) :
    Except ManifestError (List String) := do
  match profile.buildOverride with
  | some override => do
    features.require .profileOverrides
    override.validateOverride
  | none => .ok ()
  match profile.overrides with
  | some overrideMap => do
    features.require .profileOverrides
    overrideMap.forM fun entry => entry.2.validateOverride
  | none => .ok ()
  -- overrides are for these two profiles only
  if name ≠ "dev" ∧ name ≠ "release" ∧
      (profile.overrides.isSome ∨ profile.buildOverride.isSome) then
    .error (.other ("Profile overrides may only be specified for " ++
      "`dev` or `release` profile, not `" ++ name ++ "`."))
  else if name = "doc" then .ok ["profile `doc` is deprecated and has no effect"]
  else if (name = "test" ∨ name = "bench") ∧ profile.settings.panic.isSome then
    .ok ["`panic` setting is ignored for `" ++ name ++ "` profile"]
  else .ok []

/-- No override has two entries. -/
def DistinctKeys (profile : TomlProfile) : Prop := ∀ o ∈ profile.overrides, Assoc.Keys o

end TomlProfile

/-- A profile whose overrides are a map. -/
abbrev KeyedProfile : Type := { profile : TomlProfile // profile.DistinctKeys }

/-- Checks a profile if there is one. -/
def validateProfile (profile : Option KeyedProfile) (name : String) (features : Features) :
    Except ManifestError (List String) :=
  match profile with
  | some profile => profile.val.validate name features
  | none => .ok []

/-- The profiles of a manifest. -/
structure TomlProfiles where
  test : Option KeyedProfile
  doc : Option KeyedProfile
  bench : Option KeyedProfile
  dev : Option KeyedProfile
  release : Option KeyedProfile

def TomlProfiles.validate (profiles : TomlProfiles) (features : Features) :
    Except ManifestError (List String) := do
  let test ← validateProfile profiles.test "test" features
  let doc ← validateProfile profiles.doc "doc" features
  let bench ← validateProfile profiles.bench "bench" features
  let dev ← validateProfile profiles.dev "dev" features
  let release ← validateProfile profiles.release "release" features
  .ok (test ++ doc ++ bench ++ dev ++ release)

/-- The profiles of the configuration. -/
structure ConfigProfiles where
  dev : Option KeyedProfile
  release : Option KeyedProfile

def ConfigProfiles.validate (profiles : ConfigProfiles) (features : Features) :
    Except ManifestError (List String) := do
  let dev ← (validateProfile profiles.dev "dev" features).mapError fun _ =>
    .other "config profile `profile.dev` is not valid"
  let release ← (validateProfile profiles.release "release" features).mapError fun _ =>
    .other "config profile `profile.release` is not valid"
  .ok (dev ++ release)

end Cargo.Util
