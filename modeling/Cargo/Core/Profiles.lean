import Cargo.Util.Toml.Profile
import Cargo.Util.LevDistance
import Mathlib.Data.List.MinMax

/-!
# Profiles

The settings that a unit is compiled with. They start from built-in ones and are overwritten by
the manifest and then by the configuration; each of these overwrites with its own settings, the
override for build scripts, the one for all packages that are no members, and the one for the
package. That no package has two overrides is checked for all packages of a workspace at once.

## Main definitions

* `CompileMode`, `UnitFor` — what is done with a unit, and for what
* `Profile`, `ProfileMaker`, `Profiles`
* `mergeProfile`, `mergeToml`, `Profiles.getProfile`
* `Profiles.validatePackages`
-/

set_option autoImplicit false

namespace Cargo.Compiler

/-- What is done with a unit. -/
inductive CompileMode
  | test
  | build
  | check (test : Bool)
  | bench
  | doc (deps : Bool)
  | doctest
  | runCustomBuild
  deriving DecidableEq

/-- Is this a test of any kind? -/
def CompileMode.isAnyTest : CompileMode → Bool
  | test | bench | check true | doctest => true
  | _ => false

end Cargo.Compiler

namespace Cargo.Core

open Cargo.Util Cargo.Compiler

/-- What a unit is for. -/
structure UnitFor where
  /-- It is a build script or a dependency of one. -/
  customBuild : Bool
  /-- It may be compiled with a panic strategy. -/
  panicOk : Bool
  deriving DecidableEq

/-- The setting for link-time optimization. -/
inductive Lto
  | bool (b : Bool)
  | named (name : String)
  deriving DecidableEq

/-- The settings of a compile. -/
structure Profile where
  name : String := ""
  optLevel : String := "0"
  lto : Lto := .bool false
  codegenUnits : Option ℕ := none
  debuginfo : Option ℕ := none
  debugAssertions : Bool := false
  overflowChecks : Bool := false
  rpath : Bool := false
  incremental : Bool := false
  panic : Option String := none
  deriving DecidableEq

namespace Profile

def defaultDev : Profile where
  name := "dev"
  debuginfo := some 2
  debugAssertions := true
  overflowChecks := true
  incremental := true

def defaultRelease : Profile where
  name := "release"
  optLevel := "3"

def defaultTest : Profile := { defaultDev with name := "test" }

def defaultBench : Profile := { defaultRelease with name := "bench" }

def defaultDoc : Profile := { defaultDev with name := "doc" }

end Profile

/-- A profile overwritten with the settings that a table has. -/
def mergeProfile (profile : Profile) (toml : ProfileSettings) : Profile where
  name := profile.name
  optLevel :=
    match toml.optLevel with
    | some optLevel => optLevel
    | none => profile.optLevel
  lto :=
    match toml.lto with
    | some (.bool b) => .bool b
    | some (.string n) => .named n
    | none => profile.lto
  codegenUnits := if toml.codegenUnits.isSome then toml.codegenUnits else profile.codegenUnits
  debuginfo :=
    match toml.debug with
    | some (.u32 debug) => some debug
    | some (.bool true) => some 2
    | some (.bool false) => none
    | none => profile.debuginfo
  debugAssertions :=
    match toml.debugAssertions with
    | some debugAssertions => debugAssertions
    | none => profile.debugAssertions
  rpath :=
    match toml.rpath with
    | some rpath => rpath
    | none => profile.rpath
  panic :=
    match toml.panic with
    | some panic => some panic
    | none => profile.panic
  overflowChecks :=
    match toml.overflowChecks with
    | some overflowChecks => overflowChecks
    | none => profile.overflowChecks
  incremental :=
    match toml.incremental with
    | some incremental => incremental
    | none => profile.incremental

variable {crate : UrlCrate}

/-- What goes wrong with profiles. -/
inductive ProfileError (crate : UrlCrate)
  /-- "multiple profile overrides in profile `..` match package `..`", with the specs found -/
  | multipleOverrides (profile : String) (id : PackageId (SourceId crate))
      (specs : List (PackageIdSpec Version))
  /-- `assert!`: "package `..` matched multiple profile overrides" -/
  | matchedMultiple (id : PackageId (SourceId crate))
  /-- An index was out of bounds. -/
  | outOfBounds
  deriving DecidableEq

/-- What is printed on a spec that matches no package. -/
inductive ProfileWarning (crate : UrlCrate)
  /-- "profile override spec `..` did not match any packages", perhaps with "Did you mean" -/
  | noPackages (spec : PackageIdSpec Version) (suggestion : Option String)
  /-- "version or URL in profile override spec `..` does not match any of the packages" -/
  | noVersion (spec : PackageIdSpec Version) (ids : List (PackageId (SourceId crate)))
  deriving DecidableEq

/-- The overrides for a package. -/
def matchingOverrides (overrides : List (ProfilePackageSpec × TomlProfile))
    (id : PackageId (SourceId crate)) : List TomlProfile :=
  overrides.filterMap fun (key, specProfile) =>
    match key with
    | .all => none
    | .spec s => if s.matches id then some specProfile else none

/-- `if let Some(ref toml) = toml { merge_profile(profile, toml) }` -/
def mergeSome (profile : Profile) (toml : Option TomlProfile) : Profile :=
  match toml with
  | some toml => mergeProfile profile toml.settings
  | none => profile

/-- A profile overwritten with a table and its overrides. -/
def mergeToml (pkgId : Option (PackageId (SourceId crate))) (isMember : Bool) (unitFor : UnitFor)
    (profile : Profile) (toml : TomlProfile) : Except (ProfileError crate) Profile :=
  let profile := mergeProfile profile toml.settings
  -- later tables win: first the one for build scripts, then `*`, then the package
  let profile := if unitFor.customBuild then mergeSome profile toml.buildOverride else profile
  match toml.overrides with
  | none => .ok profile
  | some overrides =>
    let profile := if !isMember then mergeSome profile (overrides.lookup .all) else profile
    match pkgId with
    | none => .ok profile
    | some id =>
      match matchingOverrides overrides id with
      | [] => .ok profile
      | [specProfile] => .ok (mergeProfile profile specProfile.settings)
      -- an assertion in the code, which `validate_packages` should rule out
      | _ :: _ :: _ => .error (.matchedMultiple id)

/-- The hierarchy of overrides of a profile. -/
structure ProfileMaker where
  /-- The hard-coded settings. -/
  default : Profile
  /-- The profile of the manifest. -/
  toml : Option KeyedProfile
  /-- The profile of the configuration. -/
  config : Option KeyedProfile

/-- `if let Some(ref toml) = toml { merge_toml(..) }` -/
def mergeOption (pkgId : Option (PackageId (SourceId crate))) (isMember : Bool)
    (unitFor : UnitFor) (profile : Profile) (toml : Option KeyedProfile) :
    Except (ProfileError crate) Profile :=
  match toml with
  | some toml => mergeToml pkgId isMember unitFor profile toml.val
  | none => .ok profile

def ProfileMaker.getProfile (maker : ProfileMaker) (pkgId : Option (PackageId (SourceId crate)))
    (isMember : Bool) (unitFor : UnitFor) : Except (ProfileError crate) Profile := do
  let profile ← mergeOption pkgId isMember unitFor maker.default maker.toml
  mergeOption pkgId isMember unitFor profile maker.config

/-! ### Checking the overrides -/

/-- The specs of the overrides. -/
def overrideSpecs (overrides : List (ProfilePackageSpec × TomlProfile)) :
    List (PackageIdSpec Version) :=
  overrides.filterMap fun (key, _) =>
    match key with
    | .all => none
    | .spec s => some s

/-- Goes through the packages and collects the specs that match one. -/
def findMatches (name : String) (overrides : List (ProfilePackageSpec × TomlProfile))
    (packages : List (PackageId (SourceId crate))) :
    Except (ProfileError crate) (List (PackageIdSpec Version)) :=
  packages.foldlM (fun found id =>
    match (overrideSpecs overrides).filter fun spec => spec.matches id with
    | [] => .ok found
    | [spec] => .ok (spec :: found)
    | specs => .error (.multipleOverrides name id specs)) []

/-- The warning on a spec that matched no package. -/
def missingSpec (packages : List (PackageId (SourceId crate))) (spec : PackageIdSpec Version) :
    Except (ProfileError crate) (ProfileWarning crate) :=
  let nameMatches := packages.filter fun id => id.name.toList = spec.name
  if nameMatches.isEmpty then
    match packages.mapM fun id =>
        (levDistance spec.name id.name.toList).map fun d => (d, id.name) with
    | none => .error .outOfBounds
    | some distances =>
      let suggestion := (distances.filter fun p => p.1 < 4).argmin Prod.fst
      .ok (.noPackages spec (suggestion.map Prod.snd))
  else .ok (.noVersion spec nameMatches)

namespace ProfileMaker

def validatePackagesToml (maker : ProfileMaker) (packages : List (PackageId (SourceId crate)))
    (toml : Option KeyedProfile) (warnUnmatched : Bool) :
    Except (ProfileError crate) (List (ProfileWarning crate)) :=
  match toml.bind fun toml => toml.val.overrides with
  | none => .ok []
  | some overrides => do
    -- verify that a package doesn't match multiple overrides
    let found ← findMatches maker.default.name overrides packages
    if !warnUnmatched then .ok []
    else
      -- verify every override matches at least one package
      ((overrideSpecs overrides).filter fun spec => spec ∉ found).mapM (missingSpec packages)

def validatePackages (maker : ProfileMaker) (packages : List (PackageId (SourceId crate))) :
    Except (ProfileError crate) (List (ProfileWarning crate)) := do
  let warnings ← maker.validatePackagesToml packages maker.toml true
  let warnings' ← maker.validatePackagesToml packages maker.config false
  .ok (warnings ++ warnings')

end ProfileMaker

/-- All profiles. -/
structure Profiles where
  dev : ProfileMaker
  release : ProfileMaker
  test : ProfileMaker
  bench : ProfileMaker
  doc : ProfileMaker

namespace Profiles

/-- The profiles of a manifest and of the configuration, with the warnings about them. -/
def new (profiles : Option TomlProfiles) (configProfiles : ConfigProfiles)
    (features : Features) : Except ManifestError (Profiles × List String) := do
  let warnings ←
    match profiles with
    | some profiles => profiles.validate features
    | none => .ok []
  let warnings' ← configProfiles.validate features
  .ok ({
    dev := ⟨.defaultDev, profiles.bind (·.dev), configProfiles.dev⟩
    release := ⟨.defaultRelease, profiles.bind (·.release), configProfiles.release⟩
    test := ⟨.defaultTest, profiles.bind (·.test), none⟩
    bench := ⟨.defaultBench, profiles.bind (·.bench), none⟩
    doc := ⟨.defaultDoc, profiles.bind (·.doc), none⟩ }, warnings ++ warnings')

/-- The profile that a mode uses. -/
def maker (profiles : Profiles) (mode : CompileMode) (release : Bool) : ProfileMaker :=
  match mode with
  | .test => if release then profiles.bench else profiles.test
  | .build | .check _ | .doctest | .runCustomBuild =>
    if release then profiles.release else profiles.dev
  | .bench => profiles.bench
  | .doc _ => profiles.doc

/-- The profile of a target. -/
def getProfile (profiles : Profiles) (id : PackageId (SourceId crate)) (isMember : Bool)
    (unitFor : UnitFor) (mode : CompileMode) (release : Bool) :
    Except (ProfileError crate) Profile := do
  let profile ← (profiles.maker mode release).getProfile (some id) isMember unitFor
  -- no `panic` for tests and benches, or any of their dependencies
  if !unitFor.panicOk || mode.isAnyTest then .ok { profile with panic := none }
  else .ok profile

/-- The stripped-down profile for running a build script. -/
def getProfileRunCustomBuild (forUnitProfile : Profile) : Profile where
  debuginfo := forUnitProfile.debuginfo
  optLevel := forUnitProfile.optLevel

/-- A profile for no package in particular. -/
def baseProfile (profiles : Profiles) (release : Bool) : Except (ProfileError crate) Profile :=
  let unitFor : UnitFor := { customBuild := false, panicOk := true }
  if release then profiles.release.getProfile none true unitFor
  else profiles.dev.getProfile none true unitFor

/-- Checks for overrides for packages that are not there, and for several for one package. -/
def validatePackages (profiles : Profiles) (packages : List (PackageId (SourceId crate))) :
    Except (ProfileError crate) (List (ProfileWarning crate)) := do
  let dev ← profiles.dev.validatePackages packages
  let release ← profiles.release.validatePackages packages
  let test ← profiles.test.validatePackages packages
  let bench ← profiles.bench.validatePackages packages
  let doc ← profiles.doc.validatePackages packages
  .ok (dev ++ release ++ test ++ bench ++ doc)

end Profiles

end Cargo.Core
