import Cargo.Core.Workspace.Members

/-!
# Default members

`find_members` compares the default members with the members that it has found so far, and it
does so before it looks at the root manifest. What only the root manifest leads to, itself
included, is taken for no member then.

## Main definitions

* `FileSystem.withoutDefaults` — the workspace without its list of default members
* `DefaultList` — a workspace with a list of default members
* `Rejects` — `find_members` rejects the list

## Main results

* `rejects_iff` — what the list is compared with
* `judged_iff` — when this is the same as comparing it with the members
-/

set_option autoImplicit false

namespace Cargo.Core

open Cargo.Math

/-! ### Without default members -/

/-- The same without default members. -/
def WorkspaceConfig.dropDefaults : WorkspaceConfig → WorkspaceConfig
  | .root config => .root { config with defaultMembers := none }
  | .member pointer => .member pointer

/-- The same without default members. -/
def MaybePackage.dropDefaults : MaybePackage → MaybePackage
  | .package config deps => .package config.dropDefaults deps
  | .virtual config => .virtual config.dropDefaults

/-- The root manifest lists no default members. -/
def FileSystem.withoutDefaults (fs : FileSystem) (rootManifest : Path) : FileSystem :=
  { fs with
    readManifest := fun p => (fs.readManifest p).map fun pkg =>
      if p = rootManifest then pkg.dropDefaults else pkg }

/-- A workspace whose root manifest has a list of default members, and the paths that its lists
stand for. -/
structure DefaultList (fs : FileSystem) (ws : Workspace) where
  rootManifest : Path
  root : MaybePackage
  config : WorkspaceRootConfig
  globs : List Path
  /-- The members that are listed. -/
  paths : List Path
  /-- The default members that are listed. -/
  default : List Path
  rootManifest_eq : ws.rootManifest = some rootManifest
  root_eq : fs.load rootManifest = .ok root
  config_eq : root.workspaceConfig = .root config
  globs_eq : config.defaultMembers = some globs
  paths_eq : config.membersPaths fs (config.members.getD []) = .ok paths
  default_eq : config.membersPaths fs globs = .ok default

/-- `find_members` rejects the list of default members. -/
def Rejects (fs : FileSystem) (fuel : ℕ) (ws : Workspace) : Prop :=
  ∃ path, findMembers fs fuel ws = .error (.notMember path)

section

variable {fs : FileSystem} {rootManifest : Path}

theorem readManifest_withoutDefaults (p : Path) :
    (fs.withoutDefaults rootManifest).readManifest p = (fs.readManifest p).map fun pkg =>
      if p = rootManifest then pkg.dropDefaults else pkg := rfl

theorem workspaceConfig_dropDefaults (pkg : MaybePackage) :
    pkg.dropDefaults.workspaceConfig = pkg.workspaceConfig.dropDefaults := by
  cases pkg with
  | package config deps => rfl
  | virtual config => rfl

theorem reordered_dropDefaults (pkg : MaybePackage) : pkg.Reordered pkg.dropDefaults := by
  have hconfig : ∀ c : WorkspaceConfig, c.Reordered c.dropDefaults := by
    intro c
    cases c with
    | root config => exact .root ⟨rfl, rfl, Iff.rfl, List.Perm.refl _⟩
    | member root => exact .member root
  cases pkg with
  | package config deps => exact .package (hconfig config) (List.Perm.refl _)
  | virtual config => exact .virtual (hconfig config)

theorem reordered_refl (pkg : MaybePackage) : pkg.Reordered pkg := by
  have hconfig : ∀ c : WorkspaceConfig, c.Reordered c := by
    intro c
    cases c with
    | root config => exact .root ⟨rfl, rfl, Iff.rfl, List.Perm.refl _⟩
    | member root => exact .member root
  cases pkg with
  | package config deps => exact .package (hconfig config) (List.Perm.refl _)
  | virtual config => exact .virtual (hconfig config)

/-- Nothing that the walk looks at is different. -/
theorem reordered_withoutDefaults (fs : FileSystem) (rootManifest : Path) :
    fs.Reordered (fs.withoutDefaults rootManifest) := by
  refine ⟨rfl, rfl, rfl, rfl, fun p => ?_⟩
  rw [readManifest_withoutDefaults]
  cases hread : fs.readManifest p with
  | error message => exact .inl ⟨message, rfl, rfl⟩
  | ok pkg =>
    refine .inr ⟨pkg, if p = rootManifest then pkg.dropDefaults else pkg, rfl, rfl, ?_⟩
    split
    · exact reordered_dropDefaults pkg
    · exact reordered_refl pkg

theorem load_withoutDefaults (p : Path) :
    (fs.withoutDefaults rootManifest).load p = (fs.load p).map fun pkg =>
      if p = rootManifest then pkg.dropDefaults else pkg := by
  rw [FileSystem.load, FileSystem.load, readManifest_withoutDefaults]
  cases fs.readManifest p with
  | error message => rfl
  | ok pkg => rfl

theorem pathDependencies_dropDefaults (pkg : MaybePackage) (p : Path) :
    (if p = rootManifest then pkg.dropDefaults else pkg).pathDependencies =
      pkg.pathDependencies := by
  split
  · cases pkg with
    | package config deps => rfl
    | virtual config => rfl
  · rfl

/-- The walk is the same without default members. -/
theorem findPathDeps_withoutDefaults (rootManifest' : Path) (fuel : ℕ) (isPathDep : Bool)
    (manifestPath : Path) (members : List Path) :
    findPathDeps (fs.withoutDefaults rootManifest) rootManifest' fuel isPathDep manifestPath
      members = findPathDeps fs rootManifest' fuel isPathDep manifestPath members := by
  have hsame := reordered_withoutDefaults fs rootManifest
  induction fuel generalizing isPathDep manifestPath members with
  | zero => rfl
  | succ fuel ih =>
    have hforeign : isForeign (fs.withoutDefaults rootManifest) rootManifest' isPathDep
        (normalizePath manifestPath) =
        isForeign fs rootManifest' isPathDep (normalizePath manifestPath) := by
      rw [isForeign, isForeign, hsame.findRoot]
    rw [findPathDeps, findPathDeps, hforeign]
    simp only [ih]
    rw [load_withoutDefaults, load_withoutDefaults]
    cases hroot : fs.load rootManifest' with
    | error e => rfl
    | ok root =>
      have hexcludes : (if rootManifest' = rootManifest then root.dropDefaults else root).excludes
          (normalizePath manifestPath) = root.excludes (normalizePath manifestPath) := by
        split
        · exact (reordered_dropDefaults root).excludes _
        · rfl
      simp only [Except.map, bind, Except.bind, hexcludes]
      cases fs.load (normalizePath manifestPath) with
      | error e => rfl
      | ok pkg => simp only [pathDependencies_dropDefaults]

/-! ### The comparison -/

theorem checkDefaultMembers_cases (members default : List Path) :
    (∃ path ∈ default, manifestIn path ∉ members) ∧
        (∃ path, checkDefaultMembers members default = .error (.notMember path)) ∨
      (∀ path ∈ default, manifestIn path ∈ members) ∧
        ∃ result, checkDefaultMembers members default = .ok result := by
  induction default with
  | nil => exact .inr ⟨nofun, [], rfl⟩
  | cons path default ih =>
    rw [checkDefaultMembers, List.mapM_cons, ← checkDefaultMembers]
    dsimp only
    by_cases hmem : normalizePath (path.join cargoToml) ∈ members
    · rw [if_pos hmem]
      rcases ih with ⟨⟨path', hpath', hnot⟩, path'', hcheck⟩ | ⟨hall, result, hcheck⟩
      · refine .inl ⟨⟨path', List.mem_cons_of_mem _ hpath', hnot⟩, path'', ?_⟩
        rw [hcheck]
        rfl
      · refine .inr ⟨fun path' hpath' => ?_, normalizePath (path.join cargoToml) :: result, ?_⟩
        · rcases List.mem_cons.mp hpath' with rfl | hpath'
          · exact hmem
          · exact hall path' hpath'
        · rw [hcheck]
          rfl
    · rw [if_neg hmem]
      exact .inl ⟨⟨path, List.mem_cons_self, hmem⟩, path, rfl⟩

/-- What is found without default members is what is found with them, before and after the list is
looked at. -/
theorem DefaultList.exists_first {ws : Workspace} (s : DefaultList fs ws) {fuel : ℕ}
    {members default : List Path}
    (h : findMembers (fs.withoutDefaults s.rootManifest) fuel ws = .ok (members, default)) :
    ∃ first,
      s.paths.foldlM (fun members path =>
        findPathDeps fs s.rootManifest fuel false (path.join cargoToml) members) [] = .ok first ∧
      findPathDeps fs s.rootManifest fuel false s.rootManifest first = .ok members := by
  obtain ⟨found⟩ := exists_found s.rootManifest_eq h
  have hroot := found.root_eq
  rw [load_withoutDefaults, s.root_eq] at hroot
  simp only [Except.map, if_true, Except.ok.injEq] at hroot
  have hconfig := found.config_eq
  rw [← hroot, workspaceConfig_dropDefaults, s.config_eq] at hconfig
  simp only [WorkspaceConfig.dropDefaults, WorkspaceConfig.root.injEq] at hconfig
  have hpaths := found.paths_eq
  rw [← hconfig] at hpaths
  have heq : s.paths = found.paths := Except.ok.inj (s.paths_eq.symm.trans hpaths)
  refine ⟨found.first, ?_, ?_⟩
  · rw [heq, ← found.first_eq]
    simp only [findPathDeps_withoutDefaults]
  · rw [← findPathDeps_withoutDefaults]
    exact found.members_eq

/-- The list is compared with what the listed members lead to. -/
theorem rejects_iff {ws : Workspace} (s : DefaultList fs ws) {fuel : ℕ}
    {members default : List Path}
    (h : findMembers (fs.withoutDefaults s.rootManifest) fuel ws = .ok (members, default)) :
    (Rejects fs fuel ws ↔
        ∃ path ∈ s.default, ¬IsListedMember fs s.rootManifest s.paths (manifestIn path)) ∧
      ∀ p, p ∈ members ↔ IsMember fs s.rootManifest s.paths p := by
  obtain ⟨first, hfirst, hmembers⟩ := s.exists_first h
  have hwalk : (terrain fs s.rootManifest).Walk (listed s.paths) [] first :=
    walk_of_foldlM (fun members path members' hcall => findPathDeps_walk hcall) hfirst
  have hfind : findMembers fs fuel ws =
      checkDefaultMembers first s.default >>= fun default => .ok (members, default) := by
    rw [findMembers, s.rootManifest_eq]
    simp only [s.root_eq, bind, Except.bind, s.config_eq, s.paths_eq, s.globs_eq, Option.mapM_some,
      Functor.map, Except.map, s.default_eq, hfirst, findDefaultMembers, hmembers]
  refine ⟨?_, fun p => (hwalk.append (findPathDeps_walk hmembers)).mem_iff⟩
  rw [Rejects, hfind]
  simp only [IsListedMember, ← hwalk.mem_iff]
  rcases checkDefaultMembers_cases first s.default with
    ⟨hnot, path, hcheck⟩ | ⟨hall, result, hcheck⟩
  · rw [hcheck]
    exact ⟨fun _ => hnot, fun _ => ⟨path, rfl⟩⟩
  · rw [hcheck]
    constructor
    · rintro ⟨path, hpath⟩
      cases hpath
    · rintro ⟨path, hpath, hnot⟩
      exact absurd (hall path hpath) hnot

end

/-- The list of default members is judged by the members of the workspace exactly if it is not the
case that all of them are members, some of them by the root manifest only. -/
theorem judged_iff (fs : FileSystem) (ws : Workspace) (s : DefaultList fs ws) (fuel : ℕ)
    (members default : List Path)
    (h : findMembers (fs.withoutDefaults s.rootManifest) fuel ws = .ok (members, default)) :
    (Rejects fs fuel ws ↔ ∃ path ∈ s.default, manifestIn path ∉ members) ↔
      ¬((∀ path ∈ s.default, IsMember fs s.rootManifest s.paths (manifestIn path)) ∧
        ∃ path ∈ s.default, ¬IsListedMember fs s.rootManifest s.paths (manifestIn path)) := by
  obtain ⟨hrejects, hmembers⟩ := rejects_iff s h
  simp only [hrejects, hmembers]
  -- what the listed members lead to is a member
  have hsub : ∀ p, IsListedMember fs s.rootManifest s.paths p →
      IsMember fs s.rootManifest s.paths p :=
    fun p => Terrain.Gathered.mono fun _ hmem => List.mem_append_left _ hmem
  constructor
  · rintro hiff ⟨hall, hsome⟩
    obtain ⟨path, hpath, hnot⟩ := hiff.mp hsome
    exact hnot (hall path hpath)
  · intro hexcept
    constructor
    · intro hsome
      by_contra hnone
      exact hexcept ⟨fun path hpath => not_not.mp fun hnot => hnone ⟨path, hpath, hnot⟩, hsome⟩
    · rintro ⟨path, hpath, hnot⟩
      exact ⟨path, hpath, fun hlisted => hnot (hsub _ hlisted)⟩

/-! ### A package at the root -/

/-- A root package without dependencies, with these members and default members. -/
def rootDisk (members : Option (List Path)) (default : List Path) : FileSystem :=
  diskOf [
    (rootBelow, .package (.root
      { rootDir := [.rootDir, .normal "w"]
        members
        defaultMembers := some default
        exclude := [] }) []),
    (manifestBelow "a", .package (.member none) [])]

/-- The workspace of the root package. -/
def rootWorkspace : Workspace := ⟨rootBelow, some rootBelow⟩

/-- A listed member as the default member. -/
def listedDefault :
    DefaultList (rootDisk (some [[.normal "a"]]) [[.normal "a"]]) rootWorkspace where
  rootManifest := rootBelow
  root := _
  config := _
  globs := _
  paths := _
  default := _
  rootManifest_eq := rfl
  root_eq := rfl
  config_eq := rfl
  globs_eq := rfl
  paths_eq := rfl
  default_eq := rfl

/-- A listed member is judged as it should be. -/
theorem judged_iff_listed :
    Rejects (rootDisk (some [[.normal "a"]]) [[.normal "a"]]) 3 rootWorkspace ↔
      ∃ path ∈ listedDefault.default, manifestIn path ∉ [manifestBelow "a", rootBelow] := by
  apply (judged_iff _ rootWorkspace listedDefault 3 [manifestBelow "a", rootBelow] [rootBelow]
    rfl).mpr
  rintro ⟨-, path, hpath, hnot⟩
  cases List.mem_singleton.mp hpath
  refine hnot (.start (k := false) (List.mem_singleton.mpr rfl) ⟨nofun, ?_⟩)
  rintro ⟨root, hroot, hexcludes⟩
  cases hroot
  cases hexcludes

/-- The root package cannot be listed as its own default member, although it is a member. -/
theorem root_default_rejected :
    Rejects (rootDisk none [[.curDir]]) 3 rootWorkspace ∧
      findMembers ((rootDisk none [[.curDir]]).withoutDefaults rootBelow) 3 rootWorkspace =
        .ok ([rootBelow], [rootBelow]) ∧
      manifestIn [.rootDir, .normal "w"] ∈ [rootBelow] :=
  ⟨⟨[.rootDir, .normal "w"], rfl⟩, rfl, by decide⟩

end Cargo.Core
