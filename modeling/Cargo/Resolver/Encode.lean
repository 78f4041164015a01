import Cargo.Core.SourceId.Text
import Cargo.Resolver.Resolve

/-!
# Lock files

A resolve is written to a lock file and read from it again. Not everything is written: of packages
from paths the source is left out, of the edges what they stand for, and the checksums go into the
metadata under texts that name their packages. What is left out is put together again from the
workspace.

## Main definitions

* `EncodableResolve`, `LockFile` — the contents of a lock file, and their texts
* `encodeResolve`, `EncodableResolve.intoResolve`
* `write`, `read` — both with the texts
* `buildPathDeps` — the sources of the packages of a workspace by their names
-/

set_option autoImplicit false

namespace Cargo.Resolver.Encode

open Cargo.Core Cargo.Math Cargo.Util

variable {S R : Type} [DecidableEq S]

/-- What goes wrong with lock files. -/
inductive LockError (S : Type)
  /-- "package `..` is specified twice in the lockfile" -/
  | twice (name : String)
  /-- "invalid encoding of checksum in lockfile" -/
  | invalidChecksum (message : Text)
  /-- A source or a package id could not be read. -/
  | invalid (message : Text)
  /-- A version could not be read. -/
  | version (message : Text)
  /-- `checksums()[id]`, which is not there -/
  | noChecksum (id : PackageId S)
  /-- `assert!(pkg.dependencies.is_none())` -/
  | replacedDependencies (id : PackageId S)
  /-- The recursion is deeper than was allowed for. -/
  | depth

/-- What lock files rest on. Sources are compared as everywhere in the resolver; their texts say
more, namely the precise revision. -/
structure LockEnv (S : Type) where
  isPath : S → Bool
  /-- `SourceId::to_url` -/
  toUrl : S → Text
  /-- `with_precise(None)`, and then `to_url` -/
  toUrlImprecise : S → Text
  /-- `SourceId::from_url` -/
  fromUrl : Text → Except Text S
  /-- `semver::Version::to_string` -/
  showVersion : Version → String
  /-- `to_semver` -/
  parseVersion : String → Except Text Version

/-! ### The contents -/

/-- A package id as a lock file has it. -/
structure EncodablePackageId (S : Type) where
  name : String
  version : String
  source : Option S
  deriving DecidableEq

/-- A package as a lock file has it. -/
structure EncodableDependency (S : Type) where
  name : String
  version : String
  source : Option S
  dependencies : Option (List (EncodablePackageId S))
  replace : Option (EncodablePackageId S)

abbrev Metadata := Finmap fun _ : String => String

structure EncodableResolve (S : Type) where
  package : Option (List (EncodableDependency S))
  /-- `root` is optional to allow backward compatibility. -/
  root : Option (EncodableDependency S)
  metadata : Option Metadata
  /-- `patch.unused` -/
  unused : List (EncodableDependency S)

namespace EncodablePackageId

/-- The package id as a text. -/
def display (env : LockEnv S) (id : EncodablePackageId S) : Text :=
  id.name.toList ++ ' ' :: id.version.toList ++
    match id.source with
    | some s => " (".toList ++ env.toUrlImprecise s ++ ")".toList
    | none => []

/-- The text up to the first space, and what comes after it. -/
def splitSpace (t : Text) : Text × Option Text :=
  (t.takeWhile (· ≠ ' '), (t.dropWhile (· ≠ ' ')).tail?)

/-- Reads a package id. -/
def fromStr (env : LockEnv S) (t : Text) : Except Text (EncodablePackageId S) :=
  let (name, rest) := splitSpace t
  match rest with
  | none => .error "invalid serialized PackageId".toList
  | some rest =>
    let (version, source) := splitSpace rest
    match source with
    | none => .ok ⟨String.ofList name, String.ofList version, none⟩
    | some s =>
      if s.head? = some '(' ∧ s.getLast? = some ')' then
        (env.fromUrl s.tail.dropLast).map fun s =>
          ⟨String.ofList name, String.ofList version, some s⟩
      else .error "invalid serialized PackageId".toList

end EncodablePackageId

/-- What a lock file calls a package. -/
def EncodableDependency.encId (pkg : EncodableDependency S) : EncodablePackageId S :=
  ⟨pkg.name, pkg.version, pkg.source⟩

/-! ### Writing -/

section Encode

variable (env : LockEnv S)

/-- Sources that are paths are not written. -/
def encodeSource (s : S) : Option S := if env.isPath s then none else some s

def encodablePackageId (id : PackageId S) : EncodablePackageId S :=
  ⟨id.name, env.showVersion id.version, encodeSource env id.sourceId⟩

/-- A package with what it depends on, or with what replaces it. -/
def encodableResolveNode (edgeOrder : HashOrder (PackageId S)) (resolve : Resolve S R)
    (id : PackageId S) : EncodableDependency S :=
  let (replace, deps) :=
    -- an entry that is replaced has no dependencies
    match resolve.replacement id with
    | some id => (some (encodablePackageId env id), none)
    | none =>
      let ids := (edgeOrder.of id).enum (resolve.depsNotReplaced id)
      (none, some (ids.map (encodablePackageId env)))
  { name := id.name
    version := env.showVersion id.version
    source := encodeSource env id.sourceId
    dependencies := deps
    replace := replace }

/-- A patch that was not used. -/
def encodableUnused (id : PackageId S) : EncodableDependency S where
  name := id.name
  version := env.showVersion id.version
  source := encodeSource env id.sourceId
  dependencies := none
  replace := none

/-- What the keys of checksums begin with. -/
def checksumPrefix : Text := "checksum ".toList

/-- What the checksum of a package is under. -/
def checksumKey (id : PackageId S) : String :=
  String.ofList (checksumPrefix ++ (encodablePackageId env id).display env)

/-- The checksum of a package that is not from a path is put into the metadata. -/
def addChecksum (resolve : Resolve S R) (metadata : Metadata) (id : PackageId S) :
    Except (LockError S) Metadata :=
  match resolve.checksums.lookup id with
  | none => .error (.noChecksum id)
  | some checksum => .ok (metadata.insert (checksumKey env id) (checksum.getD "<none>"))

/-- The contents of the lock file, with packages and their dependencies in these orders. -/
def encodeResolve (sorted edgeOrder : HashOrder (PackageId S)) (resolve : Resolve S R) :
    Except (LockError S) (EncodableResolve S) := do
  let ids := sorted.enum resolve.graph.nodes.keys
  let metadata ← (ids.filter fun id => !env.isPath id.sourceId).foldlM (addChecksum env resolve)
    resolve.metadata
  .ok
    { package := some (ids.map (encodableResolveNode env edgeOrder resolve))
      root := none
      metadata := if metadata = ∅ then none else some metadata
      unused := resolve.unusedPatches.map (encodableUnused env) }

end Encode

/-! ### Reading -/

section Decode

variable (env : LockEnv S) (pathDeps : Finmap fun _ : String => S)

/-- The packages that are there, by what the lock file calls them. -/
abbrev LivePkgs (S : Type) := Finmap fun _ : EncodablePackageId S =>
  PackageId S × EncodableDependency S

/-- `PackageId::new` for a package, with a source from the workspace if it has none. If there is no
source, then the package is no longer there. -/
def packageId (pkg : EncodableDependency S) : Except (LockError S) (Option (PackageId S)) :=
  match pkg.source.or (pathDeps.lookup pkg.name) with
  | none => .ok none
  | some source => do
    let version ← (env.parseVersion pkg.version).mapError .version
    .ok (some ⟨pkg.name, version, source⟩)

/-- One package after the other, unless it has been seen before. -/
def addLive (st : LivePkgs S × Finset (EncodablePackageId S)) (pkg : EncodableDependency S) :
    Except (LockError S) (LivePkgs S × Finset (EncodablePackageId S)) :=
  if pkg.encId ∈ st.2 then .error (.twice pkg.name)
  else do
    match ← packageId env pathDeps pkg with
    | none => .ok (st.1, insert pkg.encId st.2)
    | some id => .ok (st.1.insert pkg.encId (id, pkg), insert pkg.encId st.2)

/-- The package that is called this. -/
def lookupId (live : LivePkgs S) (encId : EncodablePackageId S) : Option (PackageId S) :=
  (live.lookup encId).map Prod.fst

/-- The entries of a map in some order. -/
def LivePkgs.values (ho : HashOrder (EncodablePackageId S)) (live : LivePkgs S) :
    List (PackageId S × EncodableDependency S) :=
  (ho.enum live.keys).filterMap live.lookup

/-- Links a package to those of its dependencies that are there. -/
def linkDeps (live : LivePkgs S) (g : PackageGraph S R)
    (entry : PackageId S × EncodableDependency S) : PackageGraph S R :=
  match entry.2.dependencies with
  | none => g
  | some deps => deps.foldl (fun g edge =>
      match lookupId live edge with
      | some toDependOn => g.link entry.1 toDependOn id
      | none => g) g

/-- Notes what a package is replaced by. -/
def addReplacement (live : LivePkgs S) (replacements : Finmap fun _ : PackageId S => PackageId S)
    (entry : PackageId S × EncodableDependency S) :
    Except (LockError S) (Finmap fun _ : PackageId S => PackageId S) :=
  match entry.2.replace with
  | none => .ok replacements
  | some replace =>
    if entry.2.dependencies.isSome then .error (.replacedDependencies entry.1)
    else
      match lookupId live replace with
      | some replaceId => .ok (replacements.insert entry.1 replaceId)
      | none => .ok replacements

/-- Is this the key of a checksum? -/
def isChecksumKey (k : String) : Bool := checksumPrefix.isPrefixOf k.toList

/-- A checksum, if its package is there. -/
def readChecksum (live : LivePkgs S) (metadata : Metadata)
    (checksums : Finmap fun _ : PackageId S => Option String) (k : String) :
    Except (LockError S) (Finmap fun _ : PackageId S => Option String) := do
  let encId ← (EncodablePackageId.fromStr env (k.toList.drop checksumPrefix.length)).mapError
    .invalidChecksum
  match lookupId live encId with
  | none => .ok checksums
  | some id =>
    let v := (metadata.lookup k).getD ""
    .ok (checksums.insert id (if v = "<none>" then none else some v))

/-- A patch that was not used, if it is there. -/
def addUnused (unusedPatches : List (PackageId S)) (pkg : EncodableDependency S) :
    Except (LockError S) (List (PackageId S)) := do
  match ← packageId env pathDeps pkg with
  | none => .ok unusedPatches
  | some id => .ok (unusedPatches ++ [id])

/-- Reads the contents of a lock file. -/
def EncodableResolve.intoResolve (ho : HashOrder (EncodablePackageId S))
    (self : EncodableResolve S) : Except (LockError S) (Resolve S R) := do
  -- `root` is what lock files used to have for the root package
  let packages := self.root.toList ++ self.package.getD []
  let (live, _) ← packages.foldlM (addLive env pathDeps) (∅, ∅)
  let values := live.values ho
  let g : PackageGraph S R := values.foldl (fun g entry => g.add entry.1) Graph.new
  let g := values.foldl (linkDeps live) g
  let replacements ← values.foldlM (addReplacement live) ∅
  let metadata := self.metadata.getD ∅
  -- the checksums are keys of the metadata, from which they are taken
  let toRemove := ((SetOrder.ascending String).enum metadata.keys).filter isChecksumKey
  let checksums ← toRemove.foldlM (readChecksum env live metadata) ∅
  let unusedPatches ← self.unused.foldlM (addUnused env pathDeps) []
  .ok
    { graph := g
      replacements := replacements
      features := ∅
      checksums := checksums
      metadata := toRemove.foldl (fun metadata k => metadata.erase k) metadata
      unusedPatches := unusedPatches }

end Decode

/-! ### Texts -/

/-- A package with its texts. -/
structure LockPackage where
  name : String
  version : String
  source : Option Text
  dependencies : Option (List Text)
  replace : Option Text
  deriving DecidableEq

/-- A lock file with its texts. -/
structure LockFile where
  package : Option (List LockPackage)
  root : Option LockPackage
  metadata : Option Metadata
  unused : List LockPackage
  deriving DecidableEq

section Texts

variable (env : LockEnv S)

/-- `emit_package`: dependencies are left out if there are none. -/
def emitPackage (pkg : EncodableDependency S) : LockPackage where
  name := pkg.name
  version := pkg.version
  source := pkg.source.map env.toUrl
  dependencies := (pkg.dependencies.filter fun deps => !deps.isEmpty).map fun deps =>
    deps.map (EncodablePackageId.display env)
  replace := pkg.replace.map (EncodablePackageId.display env)

def EncodableResolve.emit (self : EncodableResolve S) : LockFile where
  package := self.package.map fun packages => packages.map (emitPackage env)
  root := self.root.map (emitPackage env)
  metadata := self.metadata
  unused := self.unused.map (emitPackage env)

/-- Reads something that need not be there. -/
def readOption {A B : Type} (f : A → Except (LockError S) B) :
    Option A → Except (LockError S) (Option B)
  | none => .ok none
  | some a => (f a).map some

def readId (t : Text) : Except (LockError S) (EncodablePackageId S) :=
  (EncodablePackageId.fromStr env t).mapError .invalid

def LockPackage.parse (pkg : LockPackage) : Except (LockError S) (EncodableDependency S) := do
  let source ← readOption (fun t => (env.fromUrl t).mapError .invalid) pkg.source
  let dependencies ← readOption (fun deps => deps.mapM (readId env)) pkg.dependencies
  let replace ← readOption (readId env) pkg.replace
  .ok ⟨pkg.name, pkg.version, source, dependencies, replace⟩

def LockFile.parse (file : LockFile) : Except (LockError S) (EncodableResolve S) := do
  let package ← readOption (fun packages => packages.mapM (LockPackage.parse env)) file.package
  let root ← readOption (LockPackage.parse env) file.root
  let unused ← file.unused.mapM (LockPackage.parse env)
  .ok ⟨package, root, file.metadata, unused⟩

/-- The lock file of a resolve. -/
def write (sorted edgeOrder : HashOrder (PackageId S)) (resolve : Resolve S R) :
    Except (LockError S) LockFile :=
  (encodeResolve env sorted edgeOrder resolve).map (EncodableResolve.emit env)

/-- The resolve of a lock file. -/
def read (pathDeps : Finmap fun _ : String => S) (ho : HashOrder (EncodablePackageId S))
    (file : LockFile) : Except (LockError S) (Resolve S R) := do
  let resolve ← file.parse env
  resolve.intoResolve env pathDeps ho

end Texts

/-! ### Path dependencies -/

/-- A package of the workspace, as far as lock files are concerned. -/
structure PathPackage (S : Type) where
  name : String
  sourceId : S
  /-- The sources of the dependencies. -/
  dependencies : List S

/-- What `build_path_deps` starts from. -/
structure PathWorkspace (S : Type) where
  members : List (PathPackage S)
  /-- The sources of the patches and of the replacements of the root. -/
  patches : List S
  replaces : List S
  /-- `to_file_path`, and then `Workspace::load` of the manifest there -/
  load : S → Option (PathPackage S)

/-- The sources by name, and the sources that have been visited. -/
structure PathDeps (S : Type) where
  ret : Finmap fun _ : String => S
  visited : Finset S

/-- Notes a package and marks it as visited. -/
def PathDeps.visit (st : PathDeps S) (pkg : PathPackage S) : PathDeps S :=
  ⟨st.ret.insert pkg.name pkg.sourceId, insert pkg.sourceId st.visited⟩

section PathDeps

variable (env : LockEnv S) (ws : PathWorkspace S)

/-- Notes a path dependency and what it depends on. The depth is bounded by `fuel`. -/
def buildDep : ℕ → PathDeps S → S → Except (LockError S) (PathDeps S)
  | 0, _, _ => .error .depth
  | fuel + 1, st, id =>
    if id ∈ st.visited ∨ env.isPath id = false then .ok st
    else
      match ws.load id with
      | none => .ok st
      | some pkg => pkg.dependencies.foldlM (buildDep fuel) (st.visit pkg)

/-- `build_pkg`: notes the path dependencies of a package. -/
def buildPkg (fuel : ℕ) (st : PathDeps S) (pkg : PathPackage S) :
    Except (LockError S) (PathDeps S) :=
  pkg.dependencies.foldlM (buildDep env ws fuel) st

/-- The sources of the path packages of a workspace by their names. -/
def buildPathDeps (fuel : ℕ) : Except (LockError S) (Finmap fun _ : String => S) := do
  let members := ws.members.filter fun p => env.isPath p.sourceId
  let st := members.foldl PathDeps.visit ⟨∅, ∅⟩
  let st ← members.foldlM (buildPkg env ws fuel) st
  let st ← ws.patches.foldlM (buildDep env ws fuel) st
  let st ← ws.replaces.foldlM (buildDep env ws fuel) st
  .ok st.ret

end PathDeps

end Cargo.Resolver.Encode
