import Cargo.Core.PackageId
import Cargo.Core.Url

/-!
# Source ids

A source id names the place packages come from. Its equality, its order and its hash are
three implementations of their own: git sources are equal when their canonical urls are,
while the order looks at the url first.

## Main definitions

* `GitReference`, `Kind` — which commit of a repository, which kind of source
* `SourceId` — a source; it carries that its canonical url is computed from its url
* `SourceId.eq`, `SourceId.cmp`, `SourceId.hash`
* `PackageId.eq`, `PackageId.cmp`, `PackageId.hash` — the same for packages
-/

set_option autoImplicit false

namespace Cargo.Core

/-- Information to find a specific commit in a git repository. -/
inductive GitReference
  | tag (s : Text)
  | branch (s : Text)
  | rev (s : Text)
  deriving DecidableEq, Repr

/-- The possible kinds of source. -/
inductive Kind
  | git (reference : GitReference)
  | path
  | registry
  | localRegistry
  | directory
  deriving DecidableEq, Repr

namespace GitReference

/-- The position of the variant, which a derived order compares first. -/
def variant : GitReference → ℕ
  | tag _ => 0
  | branch _ => 1
  | rev _ => 2

/-- The name of the tag, branch or revision. -/
def name : GitReference → Text
  | tag s => s
  | branch s => s
  | rev s => s

/-- The derived order. -/
def cmp (a b : GitReference) : Ordering :=
  (compare a.variant b.variant).then (compare a.name b.name)

end GitReference

namespace Kind

/-- The position of the variant, which a derived order compares first. -/
def variant : Kind → ℕ
  | git _ => 0
  | path => 1
  | registry => 2
  | localRegistry => 3
  | directory => 4

/-- The derived order. -/
def cmp : Kind → Kind → Ordering
  | git a, git b => a.cmp b
  | a, b => compare a.variant b.variant

end Kind

variable {crate : UrlCrate}

/-- Unique identifier for a source of packages. -/
structure SourceId (crate : UrlCrate) where
  url : Url
  /-- `git::canonicalize_url(url)` for the url field -/
  canonicalUrl : Url
  kind : Kind
  /-- The exact revision, for a git source. -/
  precise : Option Text
  /-- Name of the registry, for alternative registries. -/
  name : Option Text
  canonical_eq : canonicalizeUrl crate url = .ok canonicalUrl
  deriving DecidableEq

namespace SourceId

/-- Creates a source id from the kind and the url. The canonical url is computed, the precise
field is not set. -/
def new (kind : Kind) (url : Url) : Except Text (SourceId crate) :=
  match h : canonicalizeUrl crate url with
  | .error e => .error e
  | .ok canonical => .ok
      { url := url, canonicalUrl := canonical, kind := kind, precise := none, name := none,
        canonical_eq := h }

/-- Creates a source id from a git reference. -/
def forGit (url : Url) (reference : GitReference) : Except Text (SourceId crate) :=
  new (.git reference) url

/-- Creates a source id from a registry url. -/
def forRegistry (url : Url) : Except Text (SourceId crate) := new .registry url

/-- The same source with the given precise revision. -/
def withPrecise (s : SourceId crate) (v : Option Text) : SourceId crate :=
  { s with precise := v }

/-- Is this source from a filesystem path? -/
def isPath (s : SourceId crate) : Bool := decide (s.kind = .path)

/-- This source's git reference, if it is a git source. -/
def gitReference (s : SourceId crate) : Option GitReference :=
  match s.kind with
  | .git r => some r
  | _ => none

/-- The equality of sources. For git repositories, the canonical url is checked. -/
def eq (a b : SourceId crate) : Bool :=
  if a.kind ≠ b.kind then false
  else if a.url = b.url then true
  else
    match a.kind, b.kind with
    | .git r, .git r' => r = r' ∧ a.canonicalUrl = b.canonicalUrl
    | _, _ => false

/-- The order of sources: kinds, then urls, then the canonical urls of git sources. -/
def cmp (a b : SourceId crate) : Ordering :=
  (a.kind.cmp b.kind).then <| (a.url.cmp b.url).then <|
    match a.kind, b.kind with
    | .git r, .git r' => (r.cmp r').then (a.canonicalUrl.cmp b.canonicalUrl)
    | k, k' => k.cmp k'

/-- What is fed to the hasher: the kind, and the text of the canonical url for git sources
and of the url for others. -/
def hash (s : SourceId crate) : Kind × Text :=
  match s.kind with
  | .git _ => (s.kind, s.canonicalUrl.asStr)
  | _ => (s.kind, s.url.asStr)

theorem new_ok {kind : Kind} {url : Url} {s : SourceId crate} (h : new kind url = .ok s) :
    s.url = url ∧ s.kind = kind ∧ s.precise = none ∧ s.name = none := by
  unfold new at h
  split at h
  · cases h
  · cases h
    exact ⟨rfl, rfl, rfl, rfl⟩

/-- A source can be made of every url that has a canonical one. -/
theorem exists_new (kind : Kind) {url canonical : Url}
    (h : canonicalizeUrl crate url = .ok canonical) :
    ∃ s : SourceId crate, new kind url = .ok s ∧ s.url = url ∧ s.kind = kind := by
  refine ⟨{ url := url, canonicalUrl := canonical, kind := kind, precise := none, name := none,
            canonical_eq := h }, ?_, rfl, rfl⟩
  unfold new
  split
  · rename_i e he
    rw [h] at he
    cases he
  · rename_i canonical' h'
    rw [h] at h'
    cases h'
    rfl

/-- The canonical url is a function of the url. -/
theorem canonicalUrl_eq_of_url_eq {a b : SourceId crate} (h : a.url = b.url) :
    a.canonicalUrl = b.canonicalUrl := by
  have ha := a.canonical_eq
  rw [h, b.canonical_eq] at ha
  exact (Except.ok.inj ha).symm

end SourceId

namespace PackageId

/-- The equality of packages, field by field. -/
def eq (a b : PackageId (SourceId crate)) : Bool :=
  a.name = b.name ∧ a.version = b.version ∧ a.sourceId.eq b.sourceId

/-- The order of packages, field by field. -/
def cmp (a b : PackageId (SourceId crate)) : Ordering :=
  (compare a.name b.name).then <| (a.version.cmp b.version).then (a.sourceId.cmp b.sourceId)

/-- What is fed to the hasher. -/
def hash (a : PackageId (SourceId crate)) : String × Version × Kind × Text :=
  (a.name, a.version, a.sourceId.hash)

end PackageId

end Cargo.Core
