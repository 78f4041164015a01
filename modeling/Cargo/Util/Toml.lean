import Cargo.Core.SourceId
import Cargo.Core.Summary
import Cargo.Core.Workspace
import Cargo.Util.Credentials

/-!
# Manifests as they are written

The tables of a `Cargo.toml`, with all the spellings that have been accepted at some time, and
what `cargo publish` makes of them: paths are dropped, names of registries are replaced by their
indexes, and there is one spelling left.

## Main definitions

* `TomlDependency`, `TomlTarget`, `TomlProject`, `TomlPlatform`, `TomlManifest`
* `Feature`, `Features` — the features of cargo that a manifest turns on
* `ManifestError` — why a manifest is not accepted
* `ManifestEnv` — what is used to read one
* `TomlManifest.prepareForPublish`
-/

set_option autoImplicit false

namespace Cargo.Util

open Cargo.Core

/-! ### Tables -/

/-- A table, in the order of its keys. -/
abbrev Table (V : Type) : Type :=
  List (String × V)

structure DetailedTomlDependency where
  version : Option String := none
  registry : Option String := none
  registryIndex : Option String := none
  path : Option String := none
  git : Option String := none
  branch : Option String := none
  tag : Option String := none
  rev : Option String := none
  features : Option (List String) := none
  optional : Option Bool := none
  defaultFeatures : Option Bool := none
  /-- `default_features` -/
  defaultFeatures2 : Option Bool := none
  package : Option String := none
  deriving DecidableEq

inductive TomlDependency
  | simple (version : String)
  | detailed (d : DetailedTomlDependency)
  deriving DecidableEq

structure TomlTarget where
  name : Option String := none
  crateType : Option (List String) := none
  /-- `crate_type` -/
  crateType2 : Option (List String) := none
  path : Option Path := none
  test : Option Bool := none
  doctest : Option Bool := none
  bench : Option Bool := none
  doc : Option Bool := none
  plugin : Option Bool := none
  procMacro : Option Bool := none
  /-- `proc_macro` -/
  procMacro2 : Option Bool := none
  harness : Option Bool := none
  requiredFeatures : Option (List String) := none
  edition : Option String := none

/-- The `target` tables. -/
structure TomlPlatform where
  dependencies : Option (Table TomlDependency)
  buildDependencies : Option (Table TomlDependency)
  /-- `build_dependencies` -/
  buildDependencies2 : Option (Table TomlDependency)
  devDependencies : Option (Table TomlDependency)
  /-- `dev_dependencies` -/
  devDependencies2 : Option (Table TomlDependency)

inductive StringOrBool
  | string (s : String)
  | bool (b : Bool)
  deriving DecidableEq

inductive VecStringOrBool
  | vecString (v : List String)
  | bool (b : Bool)
  deriving DecidableEq

/-- The `package` or `project` section. -/
structure TomlProject where
  edition : Option String
  name : String
  version : Version
  authors : Option (List String)
  build : Option StringOrBool
  metabuild : Option (List String)
  links : Option String
  exclude : Option (List String)
  include_ : Option (List String)
  publish : Option VecStringOrBool
  publishLockfile : Option Bool
  workspace : Option String
  imATeapot : Option Bool
  autobins : Option Bool
  autoexamples : Option Bool
  autotests : Option Bool
  autobenches : Option Bool
  namespacedFeatures : Option Bool
  defaultRun : Option String
  description : Option String
  homepage : Option String
  documentation : Option String
  readme : Option String
  keywords : Option (List String)
  categories : Option (List String)
  license : Option String
  licenseFile : Option String
  repository : Option String
  metadata : Option Toml

structure TomlWorkspace where
  members : Option (List String)
  defaultMembers : Option (List String)
  exclude : Option (List String)

/-- A manifest. The tables of the profiles are a parameter. -/
structure TomlManifest (F : Type) where
  cargoFeatures : Option (List String)
  package : Option TomlProject
  project : Option TomlProject
  profile : Option F
  lib : Option TomlTarget
  bin : Option (List TomlTarget)
  example_ : Option (List TomlTarget)
  test : Option (List TomlTarget)
  bench : Option (List TomlTarget)
  dependencies : Option (Table TomlDependency)
  devDependencies : Option (Table TomlDependency)
  /-- `dev_dependencies` -/
  devDependencies2 : Option (Table TomlDependency)
  buildDependencies : Option (Table TomlDependency)
  /-- `build_dependencies` -/
  buildDependencies2 : Option (Table TomlDependency)
  features : Option (Table (List String))
  target : Option (Table TomlPlatform)
  replace : Option (Table TomlDependency)
  patch : Option (Table (Table TomlDependency))
  workspace : Option TomlWorkspace
  badges : Option (Table (Table String))

/-! ### Features of cargo -/

inductive Edition
  | edition2015
  | edition2018
  deriving DecidableEq, Repr

inductive Feature
  | testDummyStable
  | testDummyUnstable
  | alternativeRegistries
  | edition
  | renameDependency
  | publishLockfile
  | profileOverrides
  | namespacedFeatures
  | defaultRun
  | metabuild
  deriving DecidableEq, Repr

/-- A package id specification, as far as it is looked at. -/
structure PackageIdSpec where
  name : String
  version : Option Version
  url : Option Url

/-- Why a manifest is not accepted. -/
inductive ManifestError
  /-- unknown cargo feature -/
  | unknownFeature (feature : String)
  /-- the cargo feature has already been activated -/
  | alreadyActivated (feature : String)
  /-- the cargo feature requires a nightly version of Cargo -/
  | requiresNightly (feature : String)
  /-- feature is required -/
  | featureRequired (feature : Feature)
  /-- no `package` section found -/
  | noPackage
  /-- package name cannot be an empty string -/
  | emptyName
  /-- Invalid character in package name -/
  | invalidCharacter (c : Char) (name : String)
  /-- supported edition values are `2015` or `2018` -/
  | unknownEdition (edition : String)
  /-- library target names cannot contain hyphens -/
  | hyphenInLibrary (name : String)
  /-- can't find library, rename file to `src/lib.rs` or specify lib.path -/
  | noLibrary (name : String)
  /-- lib.plugin and lib.proc-macro cannot both be true -/
  | pluginAndProcMacro
  /-- target names cannot be empty -/
  | emptyTargetName (kind : String)
  /-- target name is required -/
  | targetNameRequired (kind section_ : String)
  /-- found duplicate name, but all targets must have a unique name -/
  | duplicateTarget (kind name : String)
  /-- the binary target name is forbidden -/
  | forbiddenName (name : String)
  /-- can't find target, specify path -/
  | noTargetPath (kind name : String)
  /-- cannot specify both `metabuild` and `build` -/
  | metabuildAndBuild
  /-- metabuild package must be specified in `build-dependencies` -/
  | metabuildDependency (name : String)
  /-- dependency specification is ambiguous. Only one of `git` or `registry` is allowed. -/
  | gitAndRegistry (name : String)
  /-- dependency specification is ambiguous. Only one of `registry` or `registry-index` is
  allowed. -/
  | registryAndIndex (name : String)
  /-- Registry URLs may not contain credentials -/
  | credentials
  /-- No index found for registry -/
  | noIndex (registry : String)
  /-- invalid url -/
  | invalidUrl (text : Text)
  /-- cannot specify both [replace] and [patch] -/
  | replaceAndPatch
  /-- replacements cannot specify a version requirement -/
  | versionOfReplacement (spec : PackageIdSpec)
  /-- replacements must specify a version to replace -/
  | noVersionToReplace (spec : PackageIdSpec)
  /-- Dependency has different source paths depending on the build target. -/
  | differentSources (name : String)
  /-- an error of `Summary::new` -/
  | summary (e : SummaryError)
  /-- cannot configure both `package.workspace` and `[workspace]` -/
  | workspaceTwice
  /-- what a function that is a parameter says -/
  | other (text : String)

namespace Feature

/-- The name in `cargo-features`. -/
def name : Feature → String
  | testDummyStable => "test-dummy-stable"
  | testDummyUnstable => "test-dummy-unstable"
  | alternativeRegistries => "alternative-registries"
  | edition => "edition"
  | renameDependency => "rename-dependency"
  | publishLockfile => "publish-lockfile"
  | profileOverrides => "profile-overrides"
  | namespacedFeatures => "namespaced-features"
  | defaultRun => "default-run"
  | metabuild => "metabuild"

def all : List Feature :=
  [testDummyStable, testDummyUnstable, alternativeRegistries, edition, renameDependency,
    publishLockfile, profileOverrides, namespacedFeatures, defaultRun, metabuild]

def isStable : Feature → Bool
  | testDummyStable | edition | renameDependency => true
  | _ => false

end Feature

/-- The features that a manifest turns on. -/
abbrev Features : Type :=
  List Feature

namespace Features

def add (nightly : Bool) (features : Features) (name : String) : Except ManifestError Features :=
  match Feature.all.find? (·.name = name) with
  | none => .error (.unknownFeature name)
  | some feature =>
    if feature ∈ features then .error (.alreadyActivated name)
    else if !feature.isStable && !nightly then .error (.requiresNightly name)
    else .ok (feature :: features)

def new (nightly : Bool) (names : List String) : Except ManifestError Features :=
  names.foldlM (add nightly) []

def require (features : Features) (feature : Feature) : Except ManifestError Unit :=
  if feature.isStable ∨ feature ∈ features then .ok () else .error (.featureRequired feature)

/-- Only a manifest that uses something has to turn it on. -/
def requireIf (features : Features) (used : Bool) (feature : Feature) :
    Except ManifestError Unit :=
  if used then features.require feature else .ok ()

end Features

/-! ### What is used to read a manifest -/

/-- An entry of a directory. -/
structure DirEntry where
  fileName : String
  isDir : Bool

/-- The directory of a package. -/
structure Layout where
  root : Path
  exists_ : Path → Bool
  isFile : Path → Bool
  readDir : Path → List DirEntry

/-- What is used to read a manifest: the configuration, the crates that parse texts, and the
package the manifest is for. -/
structure ManifestEnv (crate : UrlCrate) (R F G : Type) where
  nightly : Bool
  /-- `Config::get_string` -/
  getString : String → Except ManifestError (Option String)
  /-- `SourceId::crates_io` -/
  cratesIo : Except ManifestError (SourceId crate)
  cratesIoIndex : Url
  /-- The url has a username or a password. -/
  hasCredentials : Url → Bool
  isAlphanumeric : Char → Bool
  parseReq : String → String → Except ManifestError R
  anyReq : R
  exactReq : Version → R
  parsePlatform : String → Except ManifestError Platform
  parseSpec : String → Except ManifestError PackageIdSpec
  /-- `Profiles::new` -/
  newProfiles : Option F → Features → Except ManifestError G
  /-- The source of the package. -/
  sourceId : SourceId crate
  /-- The url of a path below the package, after it has been normalized. -/
  pathUrl : String → Except ManifestError Url
  layout : Layout

/-- `to_url` of a text. -/
def toUrl (crate : UrlCrate) (text : String) : Except ManifestError Url :=
  (crate.parse text.toList).mapError .invalidUrl

/-- A source of a kind at a url. -/
def newSource {crate : UrlCrate} (kind : Kind) (url : Url) :
    Except ManifestError (SourceId crate) :=
  (SourceId.new kind url).mapError .invalidUrl

namespace ManifestEnv

variable {crate : UrlCrate} {R F G : Type} (env : ManifestEnv crate R F G)

def getRegistryIndex (registry : String) : Except ManifestError Url := do
  match ← env.getString ("registries." ++ registry ++ ".index") with
  | none => .error (.noIndex registry)
  | some index =>
    let url ← toUrl crate index
    if env.hasCredentials url then .error .credentials else .ok url

/-- The source of an alternative registry, which keeps the name of the registry. -/
def altRegistry (key : String) : Except ManifestError (SourceId crate) := do
  let url ← env.getRegistryIndex key
  let id ← newSource .registry url
  return { id with name := some key.toList }

end ManifestEnv

/-! ### Publishing -/

section Publish

variable {crate : UrlCrate} {R F G : Type} (env : ManifestEnv crate R F G)

/-- The name of a registry is replaced by its index. -/
def DetailedTomlDependency.elaborateRegistry (d : DetailedTomlDependency) :
    Except ManifestError DetailedTomlDependency :=
  match d.registry with
  | some registry => do
    let src ← env.altRegistry registry
    return { d with registry := none, registryIndex := some (String.ofList src.url.asStr) }
  | none => .ok d

def mapDependency : TomlDependency → Except ManifestError TomlDependency
  | .detailed d => do
    let d ← DetailedTomlDependency.elaborateRegistry env { d with path := none }
    return .detailed d
  | .simple s => .ok (.detailed { version := some s })

/-- All entries of a table. -/
def mapTable {V W : Type} (f : V → Except ManifestError W) (table : Table V) :
    Except ManifestError (Table W) :=
  table.mapM fun entry => do
    let value ← f entry.2
    return (entry.1, value)

/-- A table that may be missing. -/
def mapOption {V W : Type} (f : V → Except ManifestError W) :
    Option V → Except ManifestError (Option W)
  | none => .ok none
  | some v => do
    let w ← f v
    return some w

def mapDeps (deps : Option (Table TomlDependency)) :
    Except ManifestError (Option (Table TomlDependency)) :=
  mapOption (mapTable (mapDependency env)) deps

def TomlPlatform.prepareForPublish (p : TomlPlatform) : Except ManifestError TomlPlatform := do
  let dependencies ← mapDeps env p.dependencies
  let devDependencies ← mapDeps env (p.devDependencies.or p.devDependencies2)
  let buildDependencies ← mapDeps env (p.buildDependencies.or p.buildDependencies2)
  return {
    dependencies
    devDependencies
    devDependencies2 := none
    buildDependencies
    buildDependencies2 := none }

/-- There has to be a `package` or `project` section. -/
def sectionOf (section_ : Option TomlProject) : Except ManifestError TomlProject :=
  match section_ with
  | some project => .ok project
  | none => .error .noPackage

theorem sectionOf_eq_ok {o : Option TomlProject} {project : TomlProject} :
    sectionOf o = .ok project ↔ o = some project := by
  cases o <;> simp [sectionOf]

/-- The manifest that is uploaded. -/
def TomlManifest.prepareForPublish (m : TomlManifest F) :
    Except ManifestError (TomlManifest F) := do
  let package ← sectionOf (m.package.or m.project)
  let dependencies ← mapDeps env m.dependencies
  let devDependencies ← mapDeps env (m.devDependencies.or m.devDependencies2)
  let buildDependencies ← mapDeps env (m.buildDependencies.or m.buildDependencies2)
  let target ← mapOption (mapTable (TomlPlatform.prepareForPublish env)) m.target
  return {
    package := some { package with workspace := none }
    project := none
    profile := m.profile
    lib := m.lib
    bin := m.bin
    example_ := m.example_
    test := m.test
    bench := m.bench
    dependencies
    devDependencies
    devDependencies2 := none
    buildDependencies
    buildDependencies2 := none
    features := m.features
    target
    replace := none
    patch := none
    workspace := none
    badges := m.badges
    cargoFeatures := m.cargoFeatures }

end Publish

end Cargo.Util
