import Cargo.Math.Iteration

/-!
# Workspaces

A workspace is a set of packages that are built together. Its root manifest lists members and
excluded directories; the path dependencies of members are members too. `find_members` gathers
them, depth first, in a list that also tells it where it has been.

The manifests are read through a cache that is left out: reading one twice gives the same.

## Main definitions

* `Path`, `normalizePath`, `ancestors`
* `WorkspaceRootConfig.isExcluded`
* `findRoot` — the root of the workspace that a manifest belongs to
* `findPathDeps`, `findMembers` — the members of a workspace
-/

set_option autoImplicit false

namespace Cargo.Core

open Cargo.Math

/-! ### Paths -/

/-- A component of a path. -/
inductive Component
  | rootDir
  | curDir
  | parentDir
  | normal (name : String)
  deriving DecidableEq, Repr

/-- A path, given by its components. -/
abbrev Path := List Component

namespace Path

/-- `components`: only at the beginning of a path is `.` a component. -/
def components (self : Path) : Path :=
  self.take 1 ++ (self.drop 1).filter (· ≠ .curDir)

/-- `join`: an absolute path replaces the one that it is joined to. -/
def join (self path : Path) : Path :=
  if path.head? = some .rootDir then path.components else (self ++ path).components

/-- `==`: paths are compared by their components. -/
def eq (self other : Path) : Bool :=
  self.components = other.components

/-- `parent`: the path without its final component, if there is one. -/
def parent (self : Path) : Option Path :=
  match self.components.getLast? with
  | none | some .rootDir => none
  | some _ => some self.components.dropLast

/-- `starts_with`. -/
def startsWith (self base : Path) : Bool :=
  base.components.isPrefixOf self.components

/-- `ends_with`. -/
def endsWith (self child : Path) : Bool :=
  child.components.isSuffixOf self.components

/-- `pop`: the path is left alone if it has no parent. -/
def pop (self : Path) : Path :=
  self.parent.getD self

example : join [.rootDir, .normal "w"] [.curDir, .normal "b"] =
    [.rootDir, .normal "w", .normal "b"] := by decide

end Path

/-- The path without `.` and `..`, as far as its text tells. -/
def normalizePath (path : Path) : Path :=
  path.foldl
    (fun ret component =>
      match component with
      | .rootDir => [.rootDir]
      | .curDir => ret
      | .parentDir => ret.pop
      | .normal c => ret ++ [.normal c])
    []

example : normalizePath [.rootDir, .normal "a", .parentDir, .curDir, .normal "b"] =
    [.rootDir, .normal "b"] := by decide

/-- The elements of a list up to one at which to stop. -/
def upTo (stopAt : Option Path) : List Path → List Path
  | [] => []
  | path :: rest => if stopAt.any path.eq then [path] else path :: upTo stopAt rest

/-- The path, its parent, the parent of that and so on. -/
def ancestors (stopAt : Option Path) (path : Path) : List Path :=
  upTo stopAt <| path.components.inits.reverse.filter fun q =>
    decide (q ≠ [] ∨ path.head? ≠ some .rootDir)

/-- The name of a manifest. -/
def cargoToml : Path := [.normal "Cargo.toml"]

/-! ### Manifests -/

/-- What the root manifest says about the workspace. -/
structure WorkspaceRootConfig where
  rootDir : Path
  members : Option (List Path)
  defaultMembers : Option (List Path)
  exclude : List Path

/-- What a manifest says about its workspace. -/
inductive WorkspaceConfig
  | root (config : WorkspaceRootConfig)
  | member (root : Option Path)

/-- What a manifest is read as: a package with the directories of its path dependencies, or the
root of a workspace that is no package. -/
inductive MaybePackage
  | package (config : WorkspaceConfig) (pathDependencies : List Path)
  | virtual (config : WorkspaceConfig)

/-- What the manifest says about its workspace. -/
def MaybePackage.workspaceConfig : MaybePackage → WorkspaceConfig
  | .package config _ => config
  | .virtual config => config

/-- The directories of the path dependencies. -/
def MaybePackage.pathDependencies : MaybePackage → List Path
  | .package _ deps => deps
  | .virtual _ => []

/-- Whether there is no package in the manifest. -/
def MaybePackage.isVirtual : MaybePackage → Bool
  | .package _ _ => false
  | .virtual _ => true

/-- Why the members are not found. -/
inductive WorkspaceError
  /-- A manifest cannot be read. -/
  | load (path : Path) (message : String)
  /-- "could not parse pattern" or "unable to match path to pattern". -/
  | glob (path : Path) (message : String)
  /-- "root of a workspace inferred but wasn't a root". -/
  | notRoot (path : Path)
  /-- "package is listed in workspace's default-members but is not a member". -/
  | notMember (path : Path)
  /-- `ManifestError`: what went wrong for a dependency of this manifest. -/
  | manifest (path : Path) (cause : WorkspaceError)
  /-- The recursion went deeper than there are manifests. -/
  | depth

/-- What there is on disk. -/
structure FileSystem where
  /-- `read_manifest`. -/
  readManifest : Path → Except String MaybePackage
  pathExists : Path → Bool
  /-- The paths that match a pattern. -/
  glob : Path → Except String (List Path)
  home : Path
  /-- `__CARGO_TEST_ROOT`. -/
  stopAt : Option Path

/-- Read a manifest. -/
def FileSystem.load (fs : FileSystem) (manifestPath : Path) : Except WorkspaceError MaybePackage :=
  (fs.readManifest manifestPath).mapError (.load manifestPath)

namespace WorkspaceRootConfig

/-- The path is below one that is listed as a member. -/
def explicitMember (self : WorkspaceRootConfig) (manifestPath : Path) : Bool :=
  match self.members with
  | some members => members.any fun mem => manifestPath.startsWith (self.rootDir.join mem)
  | none => false

/-- The path is below an excluded one, and below none that is listed as a member. -/
def isExcluded (self : WorkspaceRootConfig) (manifestPath : Path) : Bool :=
  let excluded := self.exclude.any fun ex => manifestPath.startsWith (self.rootDir.join ex)
  !self.explicitMember manifestPath && excluded

/-- The paths that the patterns stand for; one that nothing matches stands for itself. -/
def membersPaths (self : WorkspaceRootConfig) (fs : FileSystem) (globs : List Path) :
    Except WorkspaceError (List Path) := do
  let expandedList ← globs.mapM fun glob => do
    let pathbuf := self.rootDir.join glob
    let expandedPaths ← (fs.glob pathbuf).mapError (.glob pathbuf)
    .ok (if expandedPaths.isEmpty then [pathbuf] else expandedPaths)
  .ok expandedList.flatten

end WorkspaceRootConfig

/-- Whether the manifest excludes a path from its workspace. -/
def MaybePackage.excludes (self : MaybePackage) (manifestPath : Path) : Bool :=
  match self.workspaceConfig with
  | .root rootConfig => rootConfig.isExcluded manifestPath
  | .member _ => false

/-! ### The root -/

/-- The root that a manifest names itself. -/
def readRootPointer (memberManifest rootLink : Path) : Path :=
  normalizePath ((memberManifest.pop.join rootLink).join cargoToml)

/-- The loop of `find_root` over the directories above. -/
def findRootAbove (fs : FileSystem) (manifestPath : Path) :
    List Path → Except WorkspaceError (Option Path)
  | [] => .ok none
  | path :: rest =>
    if path.endsWith [.normal "target", .normal "package"] then .ok none
    else
      let ancesManifestPath := path.join cargoToml
      -- the search does not leave the home of cargo
      let next := if fs.home.eq path then .ok none else findRootAbove fs manifestPath rest
      if fs.pathExists ancesManifestPath then do
        match (← fs.load ancesManifestPath).workspaceConfig with
        | .root ancesRootConfig =>
          if ancesRootConfig.isExcluded manifestPath then next else .ok (some ancesManifestPath)
        | .member (some pathToRoot) => .ok (some (readRootPointer ancesManifestPath pathToRoot))
        | .member none => next
      else next

/-- The root of the workspace that a manifest belongs to. -/
def findRoot (fs : FileSystem) (manifestPath : Path) : Except WorkspaceError (Option Path) := do
  match (← fs.load manifestPath).workspaceConfig with
  | .root _ => .ok (some manifestPath)
  | .member (some pathToRoot) => .ok (some (readRootPointer manifestPath pathToRoot))
  | .member none => findRootAbove fs manifestPath ((ancestors fs.stopAt manifestPath).drop 2)

/-! ### The members -/

/-- A workspace before its members are found. -/
structure Workspace where
  currentManifest : Path
  rootManifest : Option Path

/-- The directory of the root manifest. -/
def rootOf (rootManifest : Path) : Path :=
  rootManifest.pop

/-- Whether the manifest is come by as a path dependency and lies outside the workspace: neither
below the root nor with a pointer to it. -/
def isForeign (fs : FileSystem) (rootManifest : Path) (isPathDep : Bool) (manifestPath : Path) :
    Except WorkspaceError Bool :=
  if isPathDep && !manifestPath.pop.startsWith (rootOf rootManifest) then
    (findRoot fs manifestPath).map fun root => !root.any (Path.eq rootManifest)
  else .ok false

/-- Put a manifest and all that it leads to at the end of the members. The first number bounds
the depth of the recursion; each level adds one manifest more. -/
def findPathDeps (fs : FileSystem) (rootManifest : Path) :
    ℕ → Bool → Path → List Path → Except WorkspaceError (List Path)
  | 0, _, _, _ => .error .depth
  | fuel + 1, isPathDep, manifestPath, members =>
    -- the early exits, in the order of the source
    let manifestPath := normalizePath manifestPath
    if manifestPath ∈ members then .ok members
    else do
      let foreign ← isForeign fs rootManifest isPathDep manifestPath
      if foreign then .ok members
      else
        let root ← fs.load rootManifest
        if root.excludes manifestPath then .ok members
        else
          let pkg ← fs.load manifestPath
          pkg.pathDependencies.foldlM
            (fun members dir =>
              (findPathDeps fs rootManifest fuel true (dir.join cargoToml) members).mapError
                (.manifest manifestPath))
            (members ++ [manifestPath])

/-- The default members, which have to be among the members. -/
def checkDefaultMembers (members default : List Path) : Except WorkspaceError (List Path) :=
  default.mapM fun path =>
    let manifestPath := normalizePath (path.join cargoToml)
    if manifestPath ∈ members then .ok manifestPath else .error (.notMember path)

/-- The default members: those that are listed, or else all members of a virtual workspace, or else
the current package. -/
def findDefaultMembers (fs : FileSystem) (ws : Workspace) (members : List Path) :
    Option (List Path) → Except WorkspaceError (List Path)
  | some default => checkDefaultMembers members default
  | none => do
    let current ← fs.load ws.currentManifest
    .ok (if current.isVirtual then members else [ws.currentManifest])

/-- The members of a workspace and its default members. -/
def findMembers (fs : FileSystem) (fuel : ℕ) (ws : Workspace) :
    Except WorkspaceError (List Path × List Path) :=
  match ws.rootManifest with
  | none => .ok ([ws.currentManifest], [ws.currentManifest])
  | some rootManifest => do
    match (← fs.load rootManifest).workspaceConfig with
    | .member _ => .error (.notRoot rootManifest)
    | .root rootConfig =>
      let membersPaths ← rootConfig.membersPaths fs (rootConfig.members.getD [])
      let defaultMembersPaths ← rootConfig.defaultMembers.mapM (rootConfig.membersPaths fs)
      let members ← membersPaths.foldlM
        (fun members path => findPathDeps fs rootManifest fuel false (path.join cargoToml) members)
        []
      -- the default members are judged before the root manifest is visited
      let defaultMembers ← findDefaultMembers fs ws members defaultMembersPaths
      let members ← findPathDeps fs rootManifest fuel false rootManifest members
      .ok (members, defaultMembers)

end Cargo.Core
