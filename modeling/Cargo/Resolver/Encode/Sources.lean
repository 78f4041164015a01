import Cargo.Core.IdOrder
import Cargo.Core.PackageIdSpec.Normalized
import Cargo.Core.SourceId.RoundTrip
import Cargo.Resolver.Encode.PathDeps

/-!
# The texts of sources in a lock file

Sources are told apart by what is hashed of them, since two sources are equal when they hash alike.
A lock file has the text of some source id for each of them, and a source is found again if this
source id is read back from its text, with its precise revision and without.

## Main definitions

* `SourceKey`, `sourceEnv` — lock files with the texts of source ids
* `fooWorkspace` — a package that depends on another one in a registry

## Main results

* `found_of_roundTrips` — packages are found if their sources are read back
-/

set_option autoImplicit false

namespace Cargo.Resolver.Encode

open Cargo.Core Cargo.Math Cargo.Util

/-- What tells sources apart. -/
abbrev SourceKey := Kind × Text

section Sources

variable {crate : UrlCrate}

/-- Lock files with the texts of source ids, where `spell` gives the source id that a source is
written as. -/
def sourceEnv (spell : SourceKey → SourceId crate) (showVersion : Version → String)
    (parseVersion : String → Except Text Version) : LockEnv SourceKey where
  isPath s := decide (s.1 = .path)
  toUrl s := (spell s).toUrl
  toUrlImprecise s := ((spell s).withPrecise none).toUrl
  fromUrl t := (SourceId.fromUrl t : Except Text (SourceId crate)).map SourceId.hash
  showVersion := showVersion
  parseVersion := parseVersion

theorem fromUrl_of_roundTrips {s : SourceId crate} (h : s.RoundTrips) :
    (SourceId.fromUrl s.toUrl : Except Text (SourceId crate)).map SourceId.hash = .ok s.hash := by
  obtain ⟨s', hs', hback⟩ := h
  rw [hs']
  exact congrArg Except.ok (SourceId.hash_eq_of_eq hback.eq)

variable {spell : SourceKey → SourceId crate} {showVersion : Version → String}
  {parseVersion : String → Except Text Version} {pathDeps : Finmap fun _ : String => SourceKey}

/-- A package is found again if its source is a path of the workspace or is read back. -/
theorem found_of_roundTrips {id : PackageId SourceKey} (hname : ' ' ∉ id.name.toList)
    (hversion : ' ' ∉ (showVersion id.version).toList)
    (hparse : parseVersion (showVersion id.version) = .ok id.version)
    (hpath : id.sourceId.1 = .path → pathDeps.lookup id.name = some id.sourceId)
    (hspell : (spell id.sourceId).hash = id.sourceId)
    (hsource : id.sourceId.1 ≠ .path →
      (spell id.sourceId).RoundTrips ∧ ((spell id.sourceId).withPrecise none).RoundTrips) :
    Found (sourceEnv spell showVersion parseVersion) pathDeps id where
  name := hname
  version := hversion
  parse_version := hparse
  path h := hpath (of_decide_eq_true h)
  source h := by
    have hread := fromUrl_of_roundTrips (hsource (of_decide_eq_false h)).1
    rw [hspell] at hread
    exact hread
  imprecise h := by
    have hread := fromUrl_of_roundTrips (hsource (of_decide_eq_false h)).2
    rw [show ((spell id.sourceId).withPrecise none).hash = (spell id.sourceId).hash from rfl,
      hspell] at hread
    exact hread

end Sources

/-! ### A workspace with a registry -/

section Foo

/-- The source with this kind and this url. -/
def plainSource (s : SourceKey) : SourceId normalizedUrls :=
  match SourceId.new s.1 ⟨s.2⟩ with
  | .ok source => source
  | .error _ => repoBranch []

/-- Lock files with versions of three digits and urls that are normalized already. -/
def plainEnv : LockEnv SourceKey :=
  sourceEnv plainSource (fun v => String.ofList (digitsStr v)) fun t => parseDigits t.toList

/-- A package of the workspace. -/
def foo : PackageId SourceKey := ⟨"foo", ⟨0, 1, 0, []⟩, (.path, "file:///foo".toList)⟩

/-- A package of a registry. -/
def bar : PackageId SourceKey :=
  ⟨"bar", ⟨1, 2, 3, []⟩, (.registry, "https://example.com/index".toList)⟩

/-- A package that `foo` depends on, next to it. -/
def baz : PathPackage SourceKey := ⟨"baz", (.path, "file:///baz".toList), [foo.sourceId]⟩

/-- The member of the workspace. -/
def fooPackage : PathPackage SourceKey := ⟨"foo", foo.sourceId, [bar.sourceId, baz.sourceId]⟩

/-- The workspace with one member. -/
def fooWorkspace : PathWorkspace SourceKey where
  members := [fooPackage]
  patches := []
  replaces := []
  load s :=
    if s = foo.sourceId then some fooPackage else if s = baz.sourceId then some baz else none

theorem loads_fooWorkspace {s : SourceKey} {pkg : PathPackage SourceKey}
    (h : fooWorkspace.Loads plainEnv s pkg) :
    (pkg = fooPackage ∨ pkg = baz) ∧ pkg.sourceId = s := by
  obtain ⟨-, h⟩ := h
  unfold fooWorkspace at h
  simp only at h
  split_ifs at h with hfoo hbaz
  · cases h
    exact ⟨.inl rfl, hfoo.symm⟩
  · cases h
    exact ⟨.inr rfl, hbaz.symm⟩

theorem fooWorkspace_consistent : fooWorkspace.Consistent plainEnv where
  loads _ _ h := (loads_fooWorkspace h).2
  members pkg hpkg _ := by
    obtain rfl := List.mem_singleton.mp hpkg
    rfl

theorem reach_fooWorkspace {pkg : PathPackage SourceKey} (h : fooWorkspace.Reach plainEnv pkg) :
    pkg = fooPackage ∨ pkg = baz := by
  cases h with
  | member hmem _ => exact .inl (List.mem_singleton.mp hmem)
  | root _ hload | dep _ _ hload => exact (loads_fooWorkspace hload).1

theorem fooWorkspace_names (p q : PathPackage SourceKey) (hp : fooWorkspace.Reach plainEnv p)
    (hq : fooWorkspace.Reach plainEnv q) (h : p.name = q.name) : p.sourceId = q.sourceId := by
  rcases reach_fooWorkspace hp with rfl | rfl <;> rcases reach_fooWorkspace hq with rfl | rfl
  · rfl
  · exact absurd h (by decide)
  · exact absurd h (by decide)
  · rfl

theorem source_fooWorkspace (pkg : PathPackage SourceKey) (h : fooWorkspace.Reach plainEnv pkg) :
    pkg.sourceId ∈ ({foo.sourceId, baz.sourceId} : Finset SourceKey) := by
  rcases reach_fooWorkspace h with rfl | rfl <;> decide

/-- Both packages are found, although they depend on each other. -/
theorem buildPathDeps_complete_foo : ∃ ret, buildPathDeps plainEnv fooWorkspace 3 = .ok ret ∧
    ∀ name s, ret.lookup name = some s ↔
      ∃ pkg, fooWorkspace.Reach plainEnv pkg ∧ pkg.name = name ∧ pkg.sourceId = s :=
  buildPathDeps_complete fooWorkspace_consistent fooWorkspace_names source_fooWorkspace (by decide)

theorem exists_pathDeps_foo : ∃ ret, buildPathDeps plainEnv fooWorkspace 3 = .ok ret :=
  buildPathDeps_ok fooWorkspace_consistent source_fooWorkspace (by decide)

theorem barSource_roundTrips : (plainSource bar.sourceId).RoundTrips := by
  have hparse : normalizedUrls.parse "https://example.com/index".toList =
      .ok ⟨"https://example.com/index".toList⟩ := by decide
  have hcanonical : canonicalizeUrl normalizedUrls ⟨"https://example.com/index".toList⟩ =
      .ok ⟨"https://example.com/index".toList⟩ := by decide
  obtain ⟨s, hs, -, -⟩ := SourceId.exists_new .registry hcanonical
  have hspell : plainSource bar.sourceId = s := by
    rw [plainSource, bar, hs]
  rw [hspell]
  exact roundTrips_registry normalizedUrls_readsUrls hparse hs

theorem found_foo {pathDeps : Finmap fun _ : String => SourceKey}
    (h : pathDeps.lookup "foo" = some foo.sourceId) : Found plainEnv pathDeps foo :=
  found_of_roundTrips (by decide) (by decide) (by decide) (fun _ => h) (by decide)
    fun hne => absurd rfl hne

theorem found_bar {pathDeps : Finmap fun _ : String => SourceKey} : Found plainEnv pathDeps bar :=
  found_of_roundTrips (by decide) (by decide) (by decide) (fun h => by cases h) (by decide)
    fun _ => ⟨barSource_roundTrips, barSource_roundTrips⟩

end Foo

end Cargo.Resolver.Encode
