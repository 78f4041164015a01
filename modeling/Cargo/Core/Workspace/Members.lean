import Cargo.Core.Workspace
import Cargo.Math.Gather
import Mathlib.Data.Finset.Card

/-!
# The members of a workspace

The walk of `find_members` adds the manifests that it comes by unless they are excluded, or come
by as path dependencies and not part of the workspace. It goes through the listed members first
and through the root manifest last.

## Main definitions

* `terrain` — which manifests may join, and what they lead to
* `IsMember` — the manifests that the list of members and the root lead to
* `FileSystem.Reordered` — the lists in the manifests have other orders

## Main results

* `findPathDeps_walk` — one call is a walk
* `findPathDeps_failsAs` — the recursion is no deeper than there are manifests
* `findMembers_closure` — the members are the least set
-/

set_option autoImplicit false

namespace Cargo.Core

open Cargo.Math

/-- The manifest in a directory. -/
def manifestIn (dir : Path) : Path :=
  normalizePath (dir.join cargoToml)

/-- A manifest below the root of the workspace, or whose own root it is. -/
def Inside (fs : FileSystem) (rootManifest p : Path) : Prop :=
  p.pop.startsWith (rootOf rootManifest) = true ∨
    ∃ root, findRoot fs p = .ok (some root) ∧ rootManifest.eq root = true

/-- The root manifest excludes the path. -/
def Excluded (fs : FileSystem) (rootManifest p : Path) : Prop :=
  ∃ root, fs.load rootManifest = .ok root ∧ root.excludes p = true

/-- A manifest may join unless it is excluded; a path dependency has to be inside. It leads to its
path dependencies. -/
def terrain (fs : FileSystem) (rootManifest : Path) : Terrain Bool Path where
  admits isPathDep p := (isPathDep = true → Inside fs rootManifest p) ∧ ¬Excluded fs rootManifest p
  next p :=
    match fs.load p with
    | .ok pkg => pkg.pathDependencies.map fun dir => (true, manifestIn dir)
    | .error _ => []

/-- The manifests of the listed members. -/
def listed (paths : List Path) : List (Bool × Path) :=
  paths.map fun path => (false, manifestIn path)

/-- The least set that has the listed members and the root manifest, unless they are excluded, and
with every package those of its path dependencies that are inside and not excluded. -/
def IsMember (fs : FileSystem) (rootManifest : Path) (paths : List Path) (p : Path) : Prop :=
  (terrain fs rootManifest).Gathered (listed paths ++ [(false, normalizePath rootManifest)]) p

/-- What the listed members alone lead to. -/
def IsListedMember (fs : FileSystem) (rootManifest : Path) (paths : List Path) (p : Path) : Prop :=
  (terrain fs rootManifest).Gathered (listed paths) p

/-! ### One call -/

section

variable {fs : FileSystem} {rootManifest : Path}

/-- Calls of `find_path_deps` one after the other, each of which is a walk. -/
theorem walk_of_foldlM {t : Terrain Bool Path} {α : Type} {place : α → Bool × Path}
    {f : List Path → α → Except WorkspaceError (List Path)}
    (hf : ∀ members a members', f members a = .ok members' → t.Walk [place a] members members')
    {l : List α} {members members' : List Path} (h : l.foldlM f members = .ok members') :
    t.Walk (l.map place) members members' := by
  induction l generalizing members with
  | nil =>
    cases h
    exact .nil _
  | cons a l ih =>
    rw [List.foldlM_cons] at h
    obtain ⟨mid, hmid, h⟩ := bind_eq_ok.mp h
    exact (hf members a mid hmid).append (ih h)

/-- What a path dependency is checked for. -/
theorem isForeign_eq_ok {isPathDep : Bool} {p : Path} {foreign : Bool}
    (h : isForeign fs rootManifest isPathDep p = .ok foreign) :
    foreign = false ↔ (isPathDep = true → Inside fs rootManifest p) := by
  rw [isForeign] at h
  split at h
  · rename_i hcheck
    rw [Bool.and_eq_true, Bool.not_eq_true'] at hcheck
    cases hroot : findRoot fs p with
    | error e =>
      rw [hroot] at h
      cases h
    | ok root =>
      rw [hroot] at h
      cases h
      cases root <;> simp [Inside, hcheck.1, hcheck.2, hroot]
  · rename_i hcheck
    cases h
    rw [Bool.and_eq_true, Bool.not_eq_true', not_and, Bool.not_eq_false] at hcheck
    simp only [true_iff]
    exact fun hdep => .inl (hcheck hdep)

/-- A call that succeeds is a walk. -/
theorem findPathDeps_walk {fuel : ℕ} {isPathDep : Bool} {manifestPath : Path}
    {members members' : List Path}
    (h : findPathDeps fs rootManifest fuel isPathDep manifestPath members = .ok members') :
    (terrain fs rootManifest).Walk [(isPathDep, normalizePath manifestPath)] members members' := by
  induction fuel generalizing isPathDep manifestPath members members' with
  | zero => cases h
  | succ fuel ih =>
    rw [findPathDeps] at h
    split at h
    · rename_i hmem
      cases h
      exact .met hmem (.nil _)
    rename_i hnew
    obtain ⟨foreign, hforeign, h⟩ := bind_eq_ok.mp h
    have hinside := isForeign_eq_ok hforeign
    split at h
    · rename_i hyes
      cases h
      -- a path dependency that belongs to another workspace
      refine .refused hnew (fun hadmits => ?_) (.nil _)
      rw [hinside.mpr hadmits.1] at hyes
      cases hyes
    rename_i hno
    obtain ⟨root, hroot, h⟩ := bind_eq_ok.mp h
    split at h
    · rename_i hexcluded
      cases h
      exact .refused hnew (fun hadmits => hadmits.2 ⟨root, hroot, hexcluded⟩) (.nil _)
    rename_i hincluded
    obtain ⟨pkg, hpkg, h⟩ := bind_eq_ok.mp h
    refine .joined hnew ⟨hinside.mp (Bool.eq_false_iff.mpr hno), ?_⟩ ?_ (.nil _)
    · rintro ⟨root', hroot', hexcluded⟩
      cases hroot.symm.trans hroot'
      exact hincluded hexcluded
    · have hnext : (terrain fs rootManifest).next (normalizePath manifestPath) =
          pkg.pathDependencies.map fun dir => (true, manifestIn dir) := by
        simp [terrain, hpkg]
      rw [hnext]
      exact walk_of_foldlM (fun members dir members' hcall => ih (mapError_eq_ok.mp hcall)) h

/-! ### Termination -/

/-- The recursion was cut off. -/
def WorkspaceError.isDepth : WorkspaceError → Bool
  | .depth => true
  | .manifest _ cause => cause.isDepth
  | _ => false

theorem load_failsAs (p : Path) : FailsAs (fun e => e.isDepth = false) (fs.load p) := by
  intro e he
  rw [FileSystem.load] at he
  cases hread : fs.readManifest p with
  | ok pkg =>
    rw [hread] at he
    cases he
  | error message =>
    rw [hread] at he
    cases he
    rfl

theorem findRootAbove_failsAs (manifestPath : Path) (dirs : List Path) :
    FailsAs (fun e => e.isDepth = false) (findRootAbove fs manifestPath dirs) := by
  induction dirs with
  | nil => exact failsAs_ok none
  | cons path rest ih =>
    have hnext : FailsAs (fun e => WorkspaceError.isDepth e = false)
        (if fs.home.eq path then .ok none else findRootAbove fs manifestPath rest) := by
      split
      · exact failsAs_ok none
      · exact ih
    rw [findRootAbove]
    split
    · exact failsAs_ok none
    · dsimp only
      split
      · refine (load_failsAs _).bind fun pkg _ => ?_
        split
        · split
          · exact hnext
          · exact failsAs_ok _
        · exact failsAs_ok _
        · exact hnext
      · exact hnext

theorem findRoot_failsAs (manifestPath : Path) :
    FailsAs (fun e => e.isDepth = false) (findRoot fs manifestPath) := by
  refine (load_failsAs manifestPath).bind fun pkg _ => ?_
  split
  · exact failsAs_ok _
  · exact failsAs_ok _
  · exact findRootAbove_failsAs _ _

theorem isForeign_failsAs (isPathDep : Bool) (manifestPath : Path) :
    FailsAs (fun e => e.isDepth = false) (isForeign fs rootManifest isPathDep manifestPath) := by
  rw [isForeign]
  split
  · intro e he
    cases hroot : findRoot fs manifestPath with
    | ok root =>
      rw [hroot] at he
      cases he
    | error e' =>
      rw [hroot] at he
      cases he
      exact findRoot_failsAs manifestPath e hroot
  · exact failsAs_ok _

/-- The recursion is no deeper than there are manifests that have not joined. -/
theorem findPathDeps_failsAs {files : Finset Path}
    (hfiles : ∀ p pkg, fs.load p = .ok pkg → p ∈ files) {fuel : ℕ} {isPathDep : Bool}
    {manifestPath : Path} {members : List Path}
    (hfuel : (files.filter (· ∉ members)).card < fuel) :
    FailsAs (fun e => e.isDepth = false)
      (findPathDeps fs rootManifest fuel isPathDep manifestPath members) := by
  induction fuel generalizing isPathDep manifestPath members with
  | zero => omega
  | succ fuel ih =>
    rw [findPathDeps]
    split
    · exact failsAs_ok _
    rename_i hnew
    refine (isForeign_failsAs isPathDep _).bind fun foreign _ => ?_
    split
    · exact failsAs_ok _
    refine (load_failsAs rootManifest).bind fun root _ => ?_
    split
    · exact failsAs_ok _
    refine (load_failsAs _).bind fun pkg hpkg => ?_
    -- the manifest that joins is one less to come
    have hless : (files.filter (· ∉ members ++ [normalizePath manifestPath])).card <
        (files.filter (· ∉ members)).card := by
      apply Finset.card_lt_card
      refine Finset.ssubset_iff_subset_ne.mpr ⟨fun p hp => ?_, fun heq => ?_⟩
      · rw [Finset.mem_filter] at hp ⊢
        exact ⟨hp.1, fun hmem => hp.2 (List.mem_append_left _ hmem)⟩
      · have hmem : normalizePath manifestPath ∈ files.filter (· ∉ members) :=
          Finset.mem_filter.mpr ⟨hfiles _ pkg hpkg, hnew⟩
        rw [← heq, Finset.mem_filter] at hmem
        exact hmem.2 (List.mem_append_right _ (List.mem_singleton.mpr rfl))
    refine failsAs_foldlM_of
      (P := fun members' => members ++ [normalizePath manifestPath] ⊆ members')
      (List.Subset.refl _) ?_
    intro members' hsub dir _
    refine ⟨FailsAs.mapError (ih ?_) fun e he => he, fun members'' hcall => ?_⟩
    · have hle : (files.filter (· ∉ members')).card ≤
          (files.filter (· ∉ members ++ [normalizePath manifestPath])).card := by
        apply Finset.card_le_card
        intro p hp
        rw [Finset.mem_filter] at hp ⊢
        exact ⟨hp.1, fun hmem => hp.2 (hsub hmem)⟩
      omega
    · exact List.Subset.trans hsub (findPathDeps_walk (mapError_eq_ok.mp hcall)).subset

/-! ### All members -/

/-- How `find_members` comes to its result. -/
structure Found (fs : FileSystem) (fuel : ℕ) (ws : Workspace) (rootManifest : Path)
    (members default : List Path) where
  root : MaybePackage
  config : WorkspaceRootConfig
  paths : List Path
  /-- The members before the root manifest is looked at. -/
  first : List Path
  root_eq : fs.load rootManifest = .ok root
  config_eq : root.workspaceConfig = .root config
  paths_eq : config.membersPaths fs (config.members.getD []) = .ok paths
  first_eq : paths.foldlM (fun members path =>
    findPathDeps fs rootManifest fuel false (path.join cargoToml) members) [] = .ok first
  members_eq : findPathDeps fs rootManifest fuel false rootManifest first = .ok members

theorem exists_found {fuel : ℕ} {ws : Workspace} {members default : List Path}
    (hroot : ws.rootManifest = some rootManifest)
    (h : findMembers fs fuel ws = .ok (members, default)) :
    Nonempty (Found fs fuel ws rootManifest members default) := by
  rw [findMembers, hroot] at h
  obtain ⟨root, hload, h⟩ := bind_eq_ok.mp h
  split at h
  · cases h
  · rename_i config hconfig
    obtain ⟨paths, hpaths, h⟩ := bind_eq_ok.mp h
    obtain ⟨defaultPaths, -, h⟩ := bind_eq_ok.mp h
    obtain ⟨first, hfirst, h⟩ := bind_eq_ok.mp h
    obtain ⟨default', -, h⟩ := bind_eq_ok.mp h
    obtain ⟨members', hmembers, h⟩ := bind_eq_ok.mp h
    cases h
    exact ⟨⟨root, config, paths, first, hload, hconfig, hpaths, hfirst, hmembers⟩⟩

/-- The whole of `find_members` is a walk through the listed members and then the root. -/
theorem Found.walk {fuel : ℕ} {ws : Workspace} {members default : List Path}
    (h : Found fs fuel ws rootManifest members default) :
    (terrain fs rootManifest).Walk (listed h.paths) [] h.first ∧
      (terrain fs rootManifest).Walk (listed h.paths ++ [(false, normalizePath rootManifest)]) []
        members := by
  have hfirst : (terrain fs rootManifest).Walk (listed h.paths) [] h.first :=
    walk_of_foldlM (fun members path members' hcall => findPathDeps_walk hcall) h.first_eq
  exact ⟨hfirst, hfirst.append (findPathDeps_walk h.members_eq)⟩

theorem membersPaths_failsAs (config : WorkspaceRootConfig) (globs : List Path) :
    FailsAs (fun e => e.isDepth = false) (config.membersPaths fs globs) := by
  refine (failsAs_mapM (fun glob => ?_) globs).bind fun expanded _ => failsAs_ok _
  refine FailsAs.bind (fun e he => ?_) fun expanded _ => failsAs_ok _
  cases hglob : fs.glob (config.rootDir.join glob) with
  | ok paths =>
    rw [hglob] at he
    cases he
  | error message =>
    rw [hglob] at he
    cases he
    rfl

theorem findDefaultMembers_failsAs (ws : Workspace) (members : List Path)
    (default : Option (List Path)) :
    FailsAs (fun e => e.isDepth = false) (findDefaultMembers fs ws members default) := by
  cases default with
  | none => exact (load_failsAs _).bind fun current _ => failsAs_ok _
  | some default =>
    refine failsAs_mapM (fun path => ?_) default
    dsimp only
    split
    · exact failsAs_ok _
    · exact failsAs_error rfl

/-- Finding the members comes to an end. -/
theorem findMembers_failsAs {files : Finset Path}
    (hfiles : ∀ p pkg, fs.load p = .ok pkg → p ∈ files) {fuel : ℕ} (hfuel : files.card < fuel)
    (ws : Workspace) : FailsAs (fun e => e.isDepth = false) (findMembers fs fuel ws) := by
  have hcall : ∀ rootManifest isPathDep p members, FailsAs (fun e => e.isDepth = false)
      (findPathDeps fs rootManifest fuel isPathDep p members) := by
    intro rootManifest isPathDep p members
    exact findPathDeps_failsAs hfiles (lt_of_le_of_lt (Finset.card_filter_le _ _) hfuel)
  rw [findMembers]
  split
  · exact failsAs_ok _
  · refine (load_failsAs _).bind fun root _ => ?_
    split
    · exact failsAs_error rfl
    · rename_i config _
      refine (membersPaths_failsAs _ _).bind fun paths _ => FailsAs.bind ?_ fun default _ => ?_
      · cases config.defaultMembers with
        | none => exact failsAs_ok _
        | some globs => exact (membersPaths_failsAs config globs).bind fun paths _ => failsAs_ok _
      · refine (failsAs_foldlM (fun members path => hcall _ _ _ _) paths []).bind fun first _ => ?_
        refine (findDefaultMembers_failsAs ws first default).bind fun default' _ => ?_
        exact (hcall _ _ _ _).bind fun members _ => failsAs_ok _

end

/-! ### The order of the lists -/

/-- The members are listed in another order. -/
structure WorkspaceRootConfig.Reordered (c c' : WorkspaceRootConfig) : Prop where
  rootDir : c'.rootDir = c.rootDir
  exclude : c'.exclude = c.exclude
  isNone : c'.members = none ↔ c.members = none
  members : (c.members.getD []).Perm (c'.members.getD [])

/-- The manifests differ in the order of lists only. -/
inductive WorkspaceConfig.Reordered : WorkspaceConfig → WorkspaceConfig → Prop
  | root {c c' : WorkspaceRootConfig} (h : c.Reordered c') : Reordered (.root c) (.root c')
  | member (root : Option Path) : Reordered (.member root) (.member root)

/-- The manifests differ in the order of lists only. -/
inductive MaybePackage.Reordered : MaybePackage → MaybePackage → Prop
  | package {c c' : WorkspaceConfig} {deps deps' : List Path} (h : c.Reordered c')
    (hdeps : deps.Perm deps') : Reordered (.package c deps) (.package c' deps')
  | virtual {c c' : WorkspaceConfig} (h : c.Reordered c') : Reordered (.virtual c) (.virtual c')

/-- In the manifests of a file system, members and dependencies are listed in another order. -/
structure FileSystem.Reordered (fs fs' : FileSystem) : Prop where
  pathExists : fs'.pathExists = fs.pathExists
  glob : fs'.glob = fs.glob
  home : fs'.home = fs.home
  stopAt : fs'.stopAt = fs.stopAt
  manifest : ∀ p, (∃ message, fs.readManifest p = .error message ∧
    fs'.readManifest p = .error message) ∨
    ∃ pkg pkg', fs.readManifest p = .ok pkg ∧ fs'.readManifest p = .ok pkg' ∧ pkg.Reordered pkg'

section

variable {fs fs' : FileSystem} {rootManifest : Path}

theorem WorkspaceRootConfig.Reordered.symm {c c' : WorkspaceRootConfig} (h : c.Reordered c') :
    c'.Reordered c :=
  ⟨h.rootDir.symm, h.exclude.symm, h.isNone.symm, h.members.symm⟩

theorem WorkspaceConfig.Reordered.symm {c c' : WorkspaceConfig} (h : c.Reordered c') :
    c'.Reordered c := by
  cases h with
  | root h => exact .root h.symm
  | member root => exact .member root

theorem MaybePackage.Reordered.symm {pkg pkg' : MaybePackage} (h : pkg.Reordered pkg') :
    pkg'.Reordered pkg := by
  cases h with
  | package h hdeps => exact .package h.symm hdeps.symm
  | virtual h => exact .virtual h.symm

theorem FileSystem.Reordered.symm (h : fs.Reordered fs') : fs'.Reordered fs := by
  refine ⟨h.pathExists.symm, h.glob.symm, h.home.symm, h.stopAt.symm, fun p => ?_⟩
  rcases h.manifest p with ⟨message, he, he'⟩ | ⟨pkg, pkg', hpkg, hpkg', hsame⟩
  · exact .inl ⟨message, he', he⟩
  · exact .inr ⟨pkg', pkg, hpkg', hpkg, hsame.symm⟩

/-- Both manifests are roots, or they have the same root. -/
theorem MaybePackage.Reordered.workspaceConfig {pkg pkg' : MaybePackage} (h : pkg.Reordered pkg') :
    (∃ c c', pkg.workspaceConfig = .root c ∧ pkg'.workspaceConfig = .root c' ∧ c.Reordered c') ∨
      ∃ root, pkg.workspaceConfig = .member root ∧ pkg'.workspaceConfig = .member root := by
  have hconfig : pkg.workspaceConfig.Reordered pkg'.workspaceConfig := by
    cases h with
    | package h _ => exact h
    | virtual h => exact h
  generalize pkg.workspaceConfig = c at hconfig ⊢
  generalize pkg'.workspaceConfig = c' at hconfig ⊢
  cases hconfig with
  | root h => exact .inl ⟨_, _, rfl, rfl, h⟩
  | member root => exact .inr ⟨root, rfl, rfl⟩

/-- Both loads fail with the same error, or both succeed. -/
theorem FileSystem.Reordered.load (h : fs.Reordered fs') (p : Path) :
    (∃ e, fs.load p = .error e ∧ fs'.load p = .error e) ∨
      ∃ pkg pkg', fs.load p = .ok pkg ∧ fs'.load p = .ok pkg' ∧ pkg.Reordered pkg' := by
  rcases h.manifest p with ⟨message, he, he'⟩ | ⟨pkg, pkg', hpkg, hpkg', hsame⟩
  · exact .inl ⟨.load p message, by rw [FileSystem.load, he]; rfl,
      by rw [FileSystem.load, he']; rfl⟩
  · exact .inr ⟨pkg, pkg', by rw [FileSystem.load, hpkg]; rfl, by rw [FileSystem.load, hpkg']; rfl,
      hsame⟩

/-- Exclusion does not depend on the order in which members are listed. -/
theorem WorkspaceRootConfig.Reordered.isExcluded {c c' : WorkspaceRootConfig}
    (h : c.Reordered c') (p : Path) : c'.isExcluded p = c.isExcluded p := by
  have hmembers : c'.explicitMember p = c.explicitMember p := by
    have hperm := h.members
    rw [WorkspaceRootConfig.explicitMember, WorkspaceRootConfig.explicitMember, h.rootDir]
    cases hc : c.members with
    | none => rw [h.isNone.mpr hc]
    | some members =>
      cases hc' : c'.members with
      | none => cases (h.isNone.mp hc').symm.trans hc
      | some members' =>
        rw [hc, hc'] at hperm
        exact hperm.symm.any_eq
  rw [WorkspaceRootConfig.isExcluded, WorkspaceRootConfig.isExcluded, h.exclude, hmembers,
    h.rootDir]

/-- The root of a manifest does not depend on the order of lists. -/
theorem FileSystem.Reordered.findRootAbove (h : fs.Reordered fs') (manifestPath : Path)
    (dirs : List Path) :
    Core.findRootAbove fs' manifestPath dirs = Core.findRootAbove fs manifestPath dirs := by
  induction dirs with
  | nil => rfl
  | cons path rest ih =>
    rw [Core.findRootAbove, Core.findRootAbove, h.pathExists, h.home, ih]
    dsimp only
    rcases h.load (path.join cargoToml) with ⟨e, he, he'⟩ | ⟨pkg, pkg', hpkg, hpkg', hsame⟩
    · rw [he, he']
    · rw [hpkg, hpkg']
      simp only [bind, Except.bind]
      rcases hsame.workspaceConfig with ⟨c, c', hc, hc', hconfig⟩ | ⟨root, hc, hc'⟩
      · simp only [hc, hc', hconfig.isExcluded]
      · rw [hc, hc']

theorem FileSystem.Reordered.findRoot (h : fs.Reordered fs') (manifestPath : Path) :
    Core.findRoot fs' manifestPath = Core.findRoot fs manifestPath := by
  rw [Core.findRoot, Core.findRoot, h.stopAt]
  rcases h.load manifestPath with ⟨e, he, he'⟩ | ⟨pkg, pkg', hpkg, hpkg', hsame⟩
  · rw [he, he']
    rfl
  · rw [hpkg, hpkg']
    simp only [bind, Except.bind, h.findRootAbove]
    rcases hsame.workspaceConfig with ⟨c, c', hc, hc', -⟩ | ⟨root, hc, hc'⟩
    · rw [hc, hc']
    · rw [hc, hc']

theorem MaybePackage.Reordered.excludes {pkg pkg' : MaybePackage} (h : pkg.Reordered pkg')
    (p : Path) : pkg'.excludes p = pkg.excludes p := by
  rw [MaybePackage.excludes, MaybePackage.excludes]
  rcases h.workspaceConfig with ⟨c, c', hc, hc', hconfig⟩ | ⟨root, hc, hc'⟩
  · rw [hc, hc']
    exact hconfig.isExcluded p
  · rw [hc, hc']

theorem MaybePackage.Reordered.pathDependencies {pkg pkg' : MaybePackage}
    (h : pkg.Reordered pkg') : pkg.pathDependencies.Perm pkg'.pathDependencies := by
  cases h with
  | package _ hdeps => exact hdeps
  | virtual _ => exact List.Perm.refl _

/-- The same manifests may join. -/
theorem FileSystem.Reordered.admits (h : fs.Reordered fs') {isPathDep : Bool} {p : Path}
    (hp : (terrain fs rootManifest).admits isPathDep p) :
    (terrain fs' rootManifest).admits isPathDep p := by
  refine ⟨fun hdep => ?_, fun hexcluded => hp.2 ?_⟩
  · rcases hp.1 hdep with hbelow | ⟨root, hroot, hsame⟩
    · exact .inl hbelow
    · exact .inr ⟨root, (h.findRoot p).trans hroot, hsame⟩
  · obtain ⟨root', hroot', hexcludes⟩ := hexcluded
    rcases h.load rootManifest with ⟨e, -, he'⟩ | ⟨pkg, pkg', hpkg, hpkg', hsame⟩
    · cases hroot'.symm.trans he'
    · cases hroot'.symm.trans hpkg'
      exact ⟨pkg, hpkg, (hsame.excludes p).symm.trans hexcludes⟩

theorem FileSystem.Reordered.next (h : fs.Reordered fs') {p : Path} {q : Bool × Path}
    (hq : q ∈ (terrain fs rootManifest).next p) : q ∈ (terrain fs' rootManifest).next p := by
  rw [terrain] at hq ⊢
  dsimp only at hq ⊢
  rcases h.load p with ⟨e, he, -⟩ | ⟨pkg, pkg', hpkg, hpkg', hsame⟩
  · rw [he] at hq
    cases hq
  · rw [hpkg] at hq
    rw [hpkg']
    exact (hsame.pathDependencies.map _).mem_iff.mp hq

/-- What has to be gathered does not depend on the order of lists. -/
theorem FileSystem.Reordered.gathered (h : fs.Reordered fs') {starts starts' : List (Bool × Path)}
    (hstarts : starts ⊆ starts') {p : Path}
    (hp : (terrain fs rootManifest).Gathered starts p) :
    (terrain fs' rootManifest).Gathered starts' p := by
  induction hp with
  | start hmem hadmits => exact .start (hstarts hmem) (h.admits hadmits)
  | next _ hmem hadmits ih => exact .next ih (h.next hmem) (h.admits hadmits)

/-- The patterns stand for the same paths. -/
theorem WorkspaceRootConfig.Reordered.membersPaths {c c' : WorkspaceRootConfig}
    (hfs : fs.Reordered fs') (h : c.Reordered c') {paths paths' : List Path}
    (hpaths : c.membersPaths fs (c.members.getD []) = .ok paths)
    (hpaths' : c'.membersPaths fs' (c'.members.getD []) = .ok paths') : paths ⊆ paths' := by
  obtain ⟨lists, hlists, hflat⟩ := bind_eq_ok.mp hpaths
  obtain ⟨lists', hlists', hflat'⟩ := bind_eq_ok.mp hpaths'
  cases hflat
  cases hflat'
  intro p hp
  obtain ⟨l, hl, hpl⟩ := List.mem_flatten.mp hp
  obtain ⟨glob, hglob, hbody⟩ := (mem_of_mapM_ok hlists l).mp hl
  refine List.mem_flatten.mpr ⟨l, (mem_of_mapM_ok hlists' l).mpr ⟨glob, ?_, ?_⟩, hpl⟩
  · exact h.members.mem_iff.mp hglob
  · rw [h.rootDir, hfs.glob]
    exact hbody

/-- The members are the least set that has the listed ones and the root and is closed, each once;
they do not depend on the order of lists. The recursion comes to an end. -/
theorem findMembers_closure (fs : FileSystem) (files : Finset Path)
    (hfiles : ∀ p pkg, fs.load p = .ok pkg → p ∈ files) (ws : Workspace) :
    (∀ fuel, files.card < fuel →
      FailsAs (fun e => e.isDepth = false) (findMembers fs fuel ws)) ∧
    ∀ rootManifest, ws.rootManifest = some rootManifest → ∀ fuel members default,
      findMembers fs fuel ws = .ok (members, default) →
      members.Nodup ∧
      (∃ root config paths, fs.load rootManifest = .ok root ∧
        root.workspaceConfig = .root config ∧
        config.membersPaths fs (config.members.getD []) = .ok paths ∧
        ∀ p, p ∈ members ↔ IsMember fs rootManifest paths p) ∧
      ∀ fs', fs.Reordered fs' → ∀ fuel' members' default',
        findMembers fs' fuel' ws = .ok (members', default') → members.Perm members' := by
  refine ⟨fun fuel hfuel => findMembers_failsAs hfiles hfuel ws, ?_⟩
  intro rootManifest hroot fuel members default h
  obtain ⟨found⟩ := exists_found hroot h
  have hnodup := found.walk.2.nodup List.nodup_nil
  refine ⟨hnodup, ⟨found.root, found.config, found.paths, found.root_eq, found.config_eq,
    found.paths_eq, fun p => found.walk.2.mem_iff⟩, ?_⟩
  intro fs' hfs fuel' members' default' h'
  obtain ⟨found'⟩ := exists_found hroot h'
  have hnodup' := found'.walk.2.nodup List.nodup_nil
  -- both runs read the same root manifest, up to the order of its lists
  have hconfig : found.config.Reordered found'.config := by
    rcases hfs.load rootManifest with ⟨e, he, -⟩ | ⟨pkg, pkg', hpkg, hpkg', hsame⟩
    · cases found.root_eq.symm.trans he
    · cases found.root_eq.symm.trans hpkg
      cases found'.root_eq.symm.trans hpkg'
      rcases hsame.workspaceConfig with ⟨c, c', hc, hc', hconfig⟩ | ⟨root, hc, -⟩
      · cases found.config_eq.symm.trans hc
        cases found'.config_eq.symm.trans hc'
        exact hconfig
      · cases found.config_eq.symm.trans hc
  have hstarts : ∀ {paths paths' : List Path}, paths ⊆ paths' →
      listed paths ++ [(false, normalizePath rootManifest)] ⊆
        listed paths' ++ [(false, normalizePath rootManifest)] := by
    intro paths paths' hsub
    exact List.append_subset.mpr ⟨List.subset_append_of_subset_left _ (List.map_subset _ hsub),
      List.subset_append_right _ _⟩
  rw [List.perm_ext_iff_of_nodup hnodup hnodup']
  intro p
  rw [found.walk.2.mem_iff, found'.walk.2.mem_iff]
  constructor
  · exact hfs.gathered (hstarts (hconfig.membersPaths hfs found.paths_eq found'.paths_eq))
  · exact hfs.symm.gathered
      (hstarts (hconfig.symm.membersPaths hfs.symm found'.paths_eq found.paths_eq))

end

/-! ### Two members that depend on each other -/

/-- A file system with these manifests only. -/
def diskOf (manifests : List (Path × MaybePackage)) : FileSystem where
  readManifest p :=
    (manifests.find? fun e => decide (e.1 = p)).elim (.error "no such file") fun e => .ok e.2
  pathExists p := manifests.any fun e => decide (e.1 = p)
  glob _ := .ok []
  home := [.rootDir, .normal "home"]
  stopAt := none

theorem mem_of_load_diskOf {manifests : List (Path × MaybePackage)} {p : Path}
    {pkg : MaybePackage} (h : (diskOf manifests).load p = .ok pkg) :
    p ∈ (manifests.map Prod.fst).toFinset := by
  have hread := mapError_eq_ok.mp h
  simp only [diskOf] at hread
  cases hfind : manifests.find? fun e => decide (e.1 = p) with
  | none =>
    rw [hfind] at hread
    cases hread
  | some e =>
    have hp : e.1 = p := by simpa using List.find?_some hfind
    rw [List.mem_toFinset]
    exact List.mem_map.mpr ⟨e, List.mem_of_find?_eq_some hfind, hp⟩

/-- The manifest in a directory below the root directory. -/
def manifestBelow (dir : String) : Path :=
  [.rootDir, .normal "w", .normal dir, .normal "Cargo.toml"]

/-- The root manifest. -/
def rootBelow : Path := [.rootDir, .normal "w", .normal "Cargo.toml"]

/-- A virtual workspace with the member `a`, which depends on `b`, which depends on `a`. -/
def cyclicDisk : FileSystem :=
  diskOf [
    (rootBelow, .virtual (.root
      { rootDir := [.rootDir, .normal "w"]
        members := some [[.normal "a"]]
        defaultMembers := none
        exclude := [] })),
    (manifestBelow "a", .package (.member none) [[.rootDir, .normal "w", .normal "b"]]),
    (manifestBelow "b", .package (.member none) [[.rootDir, .normal "w", .normal "a"]])]

/-- The workspace has both packages, and its root manifest. -/
theorem findMembers_closure_cyclic :
    [manifestBelow "a", manifestBelow "b", rootBelow].Nodup ∧
      ∃ root config paths, cyclicDisk.load rootBelow = .ok root ∧
        root.workspaceConfig = .root config ∧
        config.membersPaths cyclicDisk (config.members.getD []) = .ok paths ∧
        ∀ p, p ∈ [manifestBelow "a", manifestBelow "b", rootBelow] ↔
          IsMember cyclicDisk rootBelow paths p := by
  obtain ⟨hnodup, hclosure, -⟩ := (findMembers_closure cyclicDisk _
    (fun p pkg => mem_of_load_diskOf) ⟨rootBelow, some rootBelow⟩).2 rootBelow rfl 4
    [manifestBelow "a", manifestBelow "b", rootBelow]
    [manifestBelow "a", manifestBelow "b"] rfl
  exact ⟨hnodup, hclosure⟩

end Cargo.Core
