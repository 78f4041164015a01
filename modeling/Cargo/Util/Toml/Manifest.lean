import Cargo.Util.Toml.Targets

/-!
# Reading a manifest

How the tables of a `Cargo.toml` become a manifest. Each section and each key can be spelled in
more than one way, and most of what is read can be refused: the order of the checks is the order
in which they are made.

## Main definitions

* `DetailedTomlDependency.toDependency` — one entry of a dependency table
* `TomlManifest.readDependencies` — all of them
* `checkSources` — a name stands for one source
* `toRealManifest`

## Main results

* `toRealManifest_eq_ok` — what has been read of a manifest that is accepted
-/

set_option autoImplicit false

namespace Cargo.Util

open Cargo.Core Cargo.Math

variable {crate : UrlCrate} {R F G : Type} (env : ManifestEnv crate R F G)

/-! ### Dependencies -/

namespace DetailedTomlDependency

variable (d : DetailedTomlDependency)

/-- The first of the keys that is there. -/
def gitReference : GitReference :=
  match d.branch, d.tag, d.rev with
  | some branch, _, _ => .branch branch.toList
  | none, some tag, _ => .tag tag.toList
  | none, none, some rev => .rev rev.toList
  | none, none, none => .branch "master".toList

/-- The registry in which the dependency is looked up, whatever its source. -/
def registryId (features : Features) : Except ManifestError (SourceId crate) :=
  match d.registry with
  | some registry => do
    features.require .alternativeRegistries
    env.altRegistry registry
  | none => env.cratesIo

def newSourceId (nameInToml : String) : Except ManifestError (SourceId crate) :=
  match d.git, d.path, d.registry, d.registryIndex with
  | some _, _, some _, _ => .error (.gitAndRegistry nameInToml)
  | some _, _, none, some _ => .error (.gitAndRegistry nameInToml)
  | none, _, some _, some _ => .error (.registryAndIndex nameInToml)
  | some git, _, none, none => do
    let loc ← toUrl crate git
    newSource (.git d.gitReference) loc
  | none, some path, _, _ =>
    if env.sourceId.isPath then do
      let url ← env.pathUrl path
      newSource .path url
    else .ok env.sourceId
  | none, none, some registry, none => env.altRegistry registry
  | none, none, none, some registryIndex => do
    let url ← toUrl crate registryIndex
    newSource .registry url
  | none, none, none, none => env.cratesIo

def versionReq (pkgName : String) : Except ManifestError R :=
  match d.version with
  | some version => env.parseReq pkgName version
  | none => .ok env.anyReq

def toDependency (features : Features) (platform : Option Platform) (kind : DepKind)
    (nameInToml : String) : Except ManifestError (Dependency (SourceId crate) R) := do
  let registryId ← d.registryId env features
  let newSourceId ← d.newSourceId env nameInToml
  let req ← d.versionReq env (d.package.getD nameInToml)
  features.requireIf d.package.isSome .renameDependency
  return {
    name := d.package.getD nameInToml
    sourceId := newSourceId
    registryId := some registryId
    req
    specifiedReq := d.version.isSome
    kind
    onlyMatchName := false
    explicitNameInToml := d.package.map fun _ => nameInToml
    optional := d.optional.getD false
    defaultFeatures := (d.defaultFeatures.or d.defaultFeatures2).getD true
    features := d.features.getD []
    platform }

end DetailedTomlDependency

namespace TomlDependency

/-- A version alone is a table with only the version. -/
def detail : TomlDependency → DetailedTomlDependency
  | .simple version => { version := some version }
  | .detailed d => d

def toDependency (dep : TomlDependency) (features : Features) (platform : Option Platform)
    (kind : DepKind) (name : String) : Except ManifestError (Dependency (SourceId crate) R) :=
  dep.detail.toDependency env features platform kind name

end TomlDependency

/-! ### All dependencies -/

section Dependencies

variable (features : Features)

def processDependencies (platform : Option Platform) (kind : DepKind)
    (newDeps : Option (Table TomlDependency)) :
    Except ManifestError (List (Dependency (SourceId crate) R)) :=
  (newDeps.getD []).mapM fun entry => entry.2.toDependency env features platform kind entry.1

/-- The tables of one target. -/
def processPlatform (entry : String × TomlPlatform) :
    Except ManifestError (List (Dependency (SourceId crate) R)) := do
  let platform ← env.parsePlatform entry.1
  let normal ← processDependencies env features platform .normal entry.2.dependencies
  let build ← processDependencies env features platform .build
    (entry.2.buildDependencies.or entry.2.buildDependencies2)
  let dev ← processDependencies env features platform .development
    (entry.2.devDependencies.or entry.2.devDependencies2)
  return normal ++ build ++ dev

def TomlManifest.readDependencies (m : TomlManifest F) :
    Except ManifestError (List (Dependency (SourceId crate) R)) := do
  let normal ← processDependencies env features none .normal m.dependencies
  let dev ← processDependencies env features none .development
    (m.devDependencies.or m.devDependencies2)
  let build ← processDependencies env features none .build
    (m.buildDependencies.or m.buildDependencies2)
  let targets ← (m.target.getD []).mapM (processPlatform env features)
  return normal ++ dev ++ build ++ targets.flatten

/-- The platform of the last target is not reset before replacements and patches are read. -/
def TomlManifest.lastPlatform (m : TomlManifest F) : Except ManifestError (Option Platform) :=
  mapOption (fun entry => env.parsePlatform entry.1) (m.target.getD []).getLast?

def replaceOne (platform : Option Platform) (entry : String × TomlDependency) :
    Except ManifestError (PackageIdSpec × Dependency (SourceId crate) R) := do
  let parsed ← env.parseSpec entry.1
  let spec := { parsed with url := parsed.url.or (some env.cratesIoIndex) }
  if entry.2.detail.version.isSome then .error (.versionOfReplacement spec)
  let dep ← entry.2.toDependency env features platform .normal spec.name
  match spec.version with
  | none => .error (.noVersionToReplace spec)
  | some version => return (spec, { dep with req := env.exactReq version })

def TomlManifest.readReplace (m : TomlManifest F) :
    Except ManifestError (List (PackageIdSpec × Dependency (SourceId crate) R)) := do
  if m.patch.isSome ∧ m.replace.isSome then .error .replaceAndPatch
  let platform ← m.lastPlatform env
  (m.replace.getD []).mapM (replaceOne env features platform)

/-- The url that is patched. -/
def patchUrl (url : String) : Except ManifestError Url :=
  if url = "crates-io" then .ok env.cratesIoIndex else toUrl crate url

def patchOne (platform : Option Platform) (entry : String × Table TomlDependency) :
    Except ManifestError (Url × List (Dependency (SourceId crate) R)) := do
  let url ← patchUrl env entry.1
  let deps ← processDependencies env features platform .normal (some entry.2)
  return (url, deps)

/-- What is patched. -/
abbrev Patch (crate : UrlCrate) (R : Type) : Type :=
  Finmap fun _ : Url => List (Dependency (SourceId crate) R)

/-- The last entry for a url counts. -/
def TomlManifest.readPatch (m : TomlManifest F) : Except ManifestError (Patch crate R) := do
  let platform ← m.lastPlatform env
  let patches ← (m.patch.getD []).mapM (patchOne env features platform)
  return patches.foldl (fun patch entry => patch.insert entry.1 entry.2) ∅

end Dependencies

section Sources

variable (seen : Finmap fun _ : String => SourceId crate) (dep : Dependency (SourceId crate) R)

/-- A dependency has the source that its name has had before. -/
def checkSource : Except ManifestError (Finmap fun _ : String => SourceId crate) :=
  match seen.lookup dep.nameInToml with
  | some prev =>
    if prev.eq dep.sourceId then .ok (seen.insert dep.nameInToml dep.sourceId)
    else .error (.differentSources dep.nameInToml)
  | none => .ok (seen.insert dep.nameInToml dep.sourceId)

end Sources

/-- Each name has a single source, whatever the kind and the platform. -/
def checkSources (deps : List (Dependency (SourceId crate) R)) : Except ManifestError Unit := do
  let _ ← deps.foldlM checkSource ∅

/-! ### The package -/

def checkName (packageName : String) : Except ManifestError Unit :=
  if packageName = "" then .error .emptyName
  else
    match packageName.toList.find? fun c => !(env.isAlphanumeric c || c = '_' || c = '-') with
    | some c => .error (.invalidCharacter c packageName)
    | none => .ok ()

def readEdition (features : Features) (edition : Option String) : Except ManifestError Edition :=
  match edition with
  | some edition => do
    features.require .edition
    parseEdition edition
  | none => .ok .edition2015

def readPublish (features : Features) (publish : Option VecStringOrBool) :
    Except ManifestError (Option (List String)) :=
  match publish with
  | some (.vecString registries) => do
    features.require .alternativeRegistries
    return some registries
  | some (.bool false) => .ok (some [])
  | some (.bool true) => .ok none
  | none => .ok none

def readPublishLockfile (features : Features) (publishLockfile : Option Bool) :
    Except ManifestError Bool :=
  match publishLockfile with
  | some b => do
    features.require .publishLockfile
    return b
  | none => .ok false

def readWorkspace (root : Path) (workspace : Option TomlWorkspace) (pointer : Option String) :
    Except ManifestError WorkspaceConfig :=
  match workspace, pointer with
  | some config, none =>
    .ok (.root {
      rootDir := root
      members := config.members.map (·.map pathOfString)
      defaultMembers := config.defaultMembers.map (·.map pathOfString)
      exclude := (config.exclude.getD []).map pathOfString })
  | none, root => .ok (.member (root.map pathOfString))
  | some _, some _ => .error .workspaceTwice

def featureTable (features : Option (Table (List String))) :
    Finmap fun _ : String => List String :=
  ((features.getD []).map fun entry => (⟨entry.1, entry.2⟩ : Σ _ : String, List String)).toFinmap

structure ManifestMetadata where
  authors : List String
  keywords : List String
  categories : List String
  license : Option String
  licenseFile : Option String
  description : Option String
  readme : Option String
  homepage : Option String
  repository : Option String
  documentation : Option String
  badges : Table (Table String)
  links : Option String

/-- What has been read of a manifest. -/
structure Manifest (crate : UrlCrate) (R F G : Type) where
  summary : Summary (SourceId crate) R
  targets : List Target
  links : Option String
  exclude : List String
  include_ : List String
  metadata : ManifestMetadata
  customMetadata : Option Toml
  profiles : G
  publish : Option (List String)
  publishLockfile : Bool
  replace : List (PackageIdSpec × Dependency (SourceId crate) R)
  patch : Patch crate R
  workspace : WorkspaceConfig
  original : TomlManifest F
  features : Features
  edition : Edition
  imATeapot : Option Bool
  defaultRun : Option String
  metabuild : Option (List String)

namespace Manifest

variable (r : Manifest crate R F G)

def featureGate : Except ManifestError Unit := do
  r.features.requireIf r.imATeapot.isSome .testDummyUnstable
  r.features.requireIf r.defaultRun.isSome .defaultRun

end Manifest

def TomlProject.manifestMetadata (project : TomlProject) (m : TomlManifest F) :
    ManifestMetadata where
  authors := project.authors.getD []
  keywords := project.keywords.getD []
  categories := project.categories.getD []
  license := project.license
  licenseFile := project.licenseFile
  description := project.description
  readme := project.readme
  homepage := project.homepage
  repository := project.repository
  documentation := project.documentation
  badges := m.badges.getD []
  links := project.links

/-- The `project` section goes first here. -/
def toRealManifest (m : TomlManifest F) : Except ManifestError (Manifest crate R F G) := do
  let features ← Features.new env.nightly (m.cargoFeatures.getD [])
  let project ← sectionOf (m.project.or m.package)
  let packageName := trim project.name
  checkName env packageName
  let edition ← readEdition features project.edition
  features.requireIf project.metabuild.isSome .metabuild
  let targets ← targets env.layout features m packageName edition project.build project.metabuild
  let deps ← m.readDependencies env features
  let replace ← m.readReplace env features
  let patch ← m.readPatch env features
  checkSources deps
  features.requireIf project.namespacedFeatures.isSome .namespacedFeatures
  let summary ← (Summary.new ⟨project.name, project.version, env.sourceId⟩ deps
    (featureTable m.features) project.links (project.namespacedFeatures.getD false)).mapError
    .summary
  let workspace ← readWorkspace env.layout.root m.workspace project.workspace
  let profiles ← env.newProfiles m.profile features
  let publish ← readPublish features project.publish
  let publishLockfile ← readPublishLockfile features project.publishLockfile
  let manifest : Manifest crate R F G := {
    summary
    targets
    links := project.links
    exclude := project.exclude.getD []
    include_ := project.include_.getD []
    metadata := project.manifestMetadata m
    customMetadata := project.metadata
    profiles
    publish
    publishLockfile
    replace
    patch
    workspace
    original := m
    features
    edition
    imATeapot := project.imATeapot
    defaultRun := project.defaultRun
    metabuild := project.metabuild }
  manifest.featureGate
  return manifest

/-! ### What has been read -/

/-- The manifest `m` is accepted with the section `project`, and read as `r`. -/
structure Reads (m : TomlManifest F) (project : TomlProject) (r : Manifest crate R F G) :
    Prop where
  features : Features.new env.nightly (m.cargoFeatures.getD []) = .ok r.features
  project_eq : m.project.or m.package = some project
  name : checkName env (trim project.name) = .ok ()
  edition : readEdition r.features project.edition = .ok r.edition
  metabuild : r.features.requireIf project.metabuild.isSome .metabuild = .ok ()
  targets : targets env.layout r.features m (trim project.name) r.edition project.build
    project.metabuild = .ok r.targets
  dependencies : m.readDependencies env r.features = .ok r.summary.dependencies
  replace : m.readReplace env r.features = .ok r.replace
  patch : m.readPatch env r.features = .ok r.patch
  sources : checkSources r.summary.dependencies = .ok ()
  namespaced : r.features.requireIf project.namespacedFeatures.isSome .namespacedFeatures =
    .ok ()
  summary : Summary.new ⟨project.name, project.version, env.sourceId⟩ r.summary.dependencies
    (featureTable m.features) project.links (project.namespacedFeatures.getD false) =
    .ok r.summary
  workspace : readWorkspace env.layout.root m.workspace project.workspace = .ok r.workspace
  profiles : env.newProfiles m.profile r.features = .ok r.profiles
  publish : readPublish r.features project.publish = .ok r.publish
  publishLockfile : readPublishLockfile r.features project.publishLockfile =
    .ok r.publishLockfile
  rest : r = { r with
    links := project.links
    exclude := project.exclude.getD []
    include_ := project.include_.getD []
    metadata := project.manifestMetadata m
    customMetadata := project.metadata
    original := m
    imATeapot := project.imATeapot
    defaultRun := project.defaultRun
    metabuild := project.metabuild }
  gate : r.featureGate = .ok ()

variable {env}

/-- A manifest is accepted when all of its parts are, in whatever order they are checked. -/
theorem toRealManifest_eq_ok {m : TomlManifest F} {r : Manifest crate R F G} :
    toRealManifest env m = .ok r ↔ ∃ project, Reads env m project r := by
  constructor
  · intro h
    unfold toRealManifest at h
    -- in the order of the source
    obtain ⟨features, hfeatures, h⟩ := bind_eq_ok.mp h
    obtain ⟨project, hproject, h⟩ := bind_eq_ok.mp h
    obtain ⟨_, hname, h⟩ := bind_eq_ok.mp h
    obtain ⟨edition, hedition, h⟩ := bind_eq_ok.mp h
    obtain ⟨_, hmetabuild, h⟩ := bind_eq_ok.mp h
    obtain ⟨targets, htargets, h⟩ := bind_eq_ok.mp h
    obtain ⟨deps, hdeps, h⟩ := bind_eq_ok.mp h
    obtain ⟨replace, hreplace, h⟩ := bind_eq_ok.mp h
    obtain ⟨patch, hpatch, h⟩ := bind_eq_ok.mp h
    obtain ⟨_, hsources, h⟩ := bind_eq_ok.mp h
    obtain ⟨_, hnamespaced, h⟩ := bind_eq_ok.mp h
    obtain ⟨summary, hsummary, h⟩ := bind_eq_ok.mp h
    obtain ⟨workspace, hworkspace, h⟩ := bind_eq_ok.mp h
    obtain ⟨profiles, hprofiles, h⟩ := bind_eq_ok.mp h
    obtain ⟨publish, hpublish, h⟩ := bind_eq_ok.mp h
    obtain ⟨lockfile, hlockfile, h⟩ := bind_eq_ok.mp h
    obtain ⟨_, hgate, h⟩ := bind_eq_ok.mp h
    cases h
    have hsummary := mapError_eq_ok.mp hsummary
    obtain ⟨-, -, -, rfl, -⟩ := Summary.new_eq_ok.mp hsummary
    exact ⟨project, {
      features := hfeatures, project_eq := sectionOf_eq_ok.mp hproject, name := hname,
      edition := hedition, metabuild := hmetabuild, targets := htargets, dependencies := hdeps,
      replace := hreplace, patch := hpatch, sources := hsources, namespaced := hnamespaced,
      summary := hsummary, workspace := hworkspace, profiles := hprofiles, publish := hpublish,
      publishLockfile := hlockfile, rest := rfl, gate := hgate }⟩
  · rintro ⟨project, h⟩
    have hgate := h.gate
    rw [h.rest] at hgate
    have hrest := h.rest
    unfold toRealManifest
    refine bind_eq_ok.mpr ⟨_, h.features, bind_eq_ok.mpr ⟨_, sectionOf_eq_ok.mpr h.project_eq,
      bind_eq_ok.mpr ⟨_, h.name, bind_eq_ok.mpr ⟨_, h.edition, bind_eq_ok.mpr ⟨_, h.metabuild,
      bind_eq_ok.mpr ⟨_, h.targets, bind_eq_ok.mpr ⟨_, h.dependencies, bind_eq_ok.mpr ⟨_,
      h.replace, bind_eq_ok.mpr ⟨_, h.patch, bind_eq_ok.mpr ⟨_, h.sources, bind_eq_ok.mpr ⟨_,
      h.namespaced, bind_eq_ok.mpr ⟨_, mapError_eq_ok.mpr h.summary, bind_eq_ok.mpr ⟨_,
      h.workspace, bind_eq_ok.mpr ⟨_, h.profiles, bind_eq_ok.mpr ⟨_, h.publish, bind_eq_ok.mpr
      ⟨_, h.publishLockfile, bind_eq_ok.mpr ⟨_, hgate, ?_⟩⟩⟩⟩⟩⟩⟩⟩⟩⟩⟩⟩⟩⟩⟩⟩⟩
    exact congrArg Except.ok hrest.symm

end Cargo.Util
