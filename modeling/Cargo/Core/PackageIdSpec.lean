import Cargo.Core.SourceId.Text
import Mathlib.Data.List.Infix

/-!
# Package id specs

On the command line a package is named by a spec: its name, perhaps with a version, or a url
whose last segment or fragment gives the name. A url may be written without its scheme, and
then counts as one of the scheme `cargo`. A spec that fits several packages is answered with
a list of specs to choose from.

## Main definitions

* `SpecEnv` — the crates and the character tables that specs are read with
* `PackageIdSpec`, `PackageIdSpec.parse`, `PackageIdSpec.toStr`
* `PackageIdSpec.matches`, `PackageIdSpec.query`, `PackageIdSpec.minimize`
* `SpecEnv.Documented` — what is documented of the crates
-/

set_option autoImplicit false

namespace Cargo.Core

/-- What specs are read and printed with: the url crate, the semver crate, and which
characters are letters or digits. -/
structure SpecEnv (V : Type) where
  crate : UrlCrate
  /-- `Version::parse` -/
  parseVersion : Text → Except Text V
  /-- `Version::to_string` -/
  versionStr : V → Text
  /-- `char::is_alphabetic` -/
  isAlphabetic : Char → Bool
  /-- `char::is_alphanumeric` -/
  isAlphanumeric : Char → Bool

/-- Some or all of the data required to identify a package. -/
structure PackageIdSpec (V : Type) where
  name : Text
  version : Option V
  url : Option Url
  deriving DecidableEq

/-- Why a text is no spec, or a spec has no text. -/
inductive SpecError
  | query (url : Url)
  | noPath (url : Url)
  | semver (part : Text)
  /-- What the semver crate says of the text behind a name. -/
  | version (error : Text)
  | invalidCharacter (spec : Text) (ch : Char)
  /-- `unwrap` on a value that is not there -/
  | panic
  deriving DecidableEq

/-- The text of an error. -/
def SpecError.message : SpecError → Text
  | .query url => "cannot have a query string in a pkgid: ".toList ++ url.asStr
  | .noPath url => "pkgid urls must have a path: ".toList ++ url.asStr
  | .semver part => "cannot parse '".toList ++ part ++ "' as a semver".toList
  | .version error => error
  | .invalidCharacter spec ch =>
    "invalid character in pkgid `".toList ++ spec ++ "`: `".toList ++ [ch] ++ "`".toList
  | .panic => "called `Option::unwrap()` on a `None` value".toList

namespace Url

/-- The text in front of the first colon. -/
def scheme (u : Url) : Text := u.asStr.takeWhile (· ≠ ':')

/-- `url.set_fragment(None)` -/
def withoutFragment (u : Url) : Url := ⟨u.asStr.takeWhile (· ≠ '#')⟩

end Url

/-- `path_segments().next_back()`. A path that does not start with a slash has no segments. -/
def UrlCrate.pathName (crate : UrlCrate) (u : Url) : Option Text :=
  if (crate.path u).head? = some '/' then some (crate.lastSegment u) else none

/-- `splitn(2, ':')` -/
def splitColon (t : Text) : Text × Option Text :=
  (t.takeWhile (· ≠ ':'), (t.dropWhile (· ≠ ':')).tail?)

theorem ne_of_mem_takeWhile {t : Text} {c x : Char} (h : x ∈ t.takeWhile (· ≠ c)) : x ≠ c := by
  simpa using List.mem_takeWhile_imp h

theorem colon_not_mem_splitColon (t : Text) : ':' ∉ (splitColon t).1 :=
  fun h => ne_of_mem_takeWhile h rfl

namespace SpecEnv

variable {V : Type} (env : SpecEnv V)

/-- The url that a spec is read as. Text that is no url may be one without its scheme. -/
def readUrl (spec : Text) : Option Url :=
  if '/' ∈ spec then
    match env.crate.parse spec with
    | .ok url => some url
    | .error _ =>
      if "://".toList <:+: spec then none
      else
        match env.crate.parse ("cargo://".toList ++ spec) with
        | .ok url => some url
        | .error _ => none
  else none

/-- `part.to_semver()` -/
def toSemver (part : Text) : Except SpecError V :=
  match env.parseVersion part with
  | .ok v => .ok v
  | .error _ => .error (.semver part)

/-- Name and version of a url, by its fragment and the last segment of its path. -/
def nameAndVersion (fragment : Option Text) (pathName : Text) :
    Except SpecError (Text × Option V) :=
  match fragment with
  | some fragment =>
    match splitColon fragment with
    | (name, some part) => do
      let version ← env.toSemver part
      .ok (name, some version)
    | (nameOrVersion, none) =>
      -- `nameOrVersion.chars().next().unwrap()`
      match nameOrVersion.head? with
      | none => .error .panic
      | some c =>
        if env.isAlphabetic c then .ok (nameOrVersion, none)
        else do
          let version ← env.toSemver nameOrVersion
          .ok (pathName, some version)
  | none => .ok (pathName, none)

/-- Tries to convert a url to a spec. -/
def fromUrl (url : Url) : Except SpecError (PackageIdSpec V) :=
  if url.query.isSome then .error (.query url)
  else
    match env.crate.pathName url.withoutFragment with
    | none => .error (.noPath url.withoutFragment)
    | some pathName => do
      let (name, version) ← env.nameAndVersion url.fragment pathName
      .ok { name := name, version := version, url := some url.withoutFragment }

/-- May a character stand in the name of a spec that is no url? -/
def nameChar (ch : Char) : Bool := env.isAlphanumeric ch || ch = '_' || ch = '-'

/-- A spec of the form `name` or `name:version`. -/
def parseName (spec : Text) : Except SpecError (PackageIdSpec V) := do
  let name := (splitColon spec).1
  let version ← match (splitColon spec).2 with
    | some version =>
      match env.parseVersion version with
      | .ok v => .ok (some v)
      | .error e => .error (.version e)
    | none => .ok none
  match name.find? fun ch => !env.nameChar ch with
  | some ch => .error (.invalidCharacter spec ch)
  | none => .ok { name := name, version := version, url := none }

/-- Parses a spec. -/
def parse (spec : Text) : Except SpecError (PackageIdSpec V) :=
  match env.readUrl spec with
  | some url => env.fromUrl url
  | none => env.parseName spec

/-- The url of a spec as it is printed: the scheme `cargo` is left out, and with it whatever
stands between it and the path apart from the host. -/
def urlStr (url : Url) : Except SpecError Text :=
  if url.scheme = "cargo".toList then
    match env.crate.hostStr url with
    | some host => .ok (host ++ env.crate.path url)
    | none => .error .panic
  else .ok url.asStr

/-- The version of a spec as it is printed. -/
def versionPart (printedName : Bool) (version : Option V) : Text :=
  match version with
  | some v => (if printedName then ':' else '#') :: env.versionStr v
  | none => []

/-- Prints a spec. -/
def toStr (spec : PackageIdSpec V) : Except SpecError Text :=
  match spec.url with
  | some url => do
    let text ← env.urlStr url
    match env.crate.pathName url with
    | none => .error .panic
    | some segment =>
      let printedName := decide (segment ≠ spec.name)
      .ok (text ++ (if printedName then '#' :: spec.name else []) ++
        env.versionPart printedName spec.version)
  | none => .ok (spec.name ++ env.versionPart true spec.version)

end SpecEnv

/-! ### Specs and packages -/

namespace PackageIdSpec

/-- The spec of a package, with version and url. -/
def fromPackageId {crate : UrlCrate} (id : PackageId (SourceId crate)) : PackageIdSpec Version where
  name := id.name.toList
  version := some id.version
  url := some id.sourceId.url

/-- Does a package match the spec? -/
def «matches» {crate : UrlCrate} (spec : PackageIdSpec Version) (id : PackageId (SourceId crate)) :
    Bool :=
  if spec.name ≠ id.name.toList then false
  else if spec.version.any (· ≠ id.version) then false
  else
    match spec.url with
    | some u => u = id.sourceId.url
    | none => true

end PackageIdSpec

/-- Why a query has no answer. -/
inductive QueryError (S : Type)
  | noPackages (spec : Text)
  /-- Several packages match, and there is a spec for each of them to choose from. -/
  | ambiguous (name spec : Text) (advice : List (PackageId S × Text))
  /-- A spec could not be printed. -/
  | panic
  deriving DecidableEq

/-- The text of an error. -/
def QueryError.message {S : Type} : QueryError S → Text
  | .noPackages spec =>
    "package id specification `".toList ++ spec ++ "` matched no packages".toList
  | .ambiguous name spec advice =>
    "There are multiple `".toList ++ name ++ "` packages in your project, and the ".toList ++
      "specification `".toList ++ spec ++ "` is ambiguous.\n".toList ++
      "Please re-run this command with `-p <spec>` where `<spec>` is one ".toList ++
      "of the following:".toList ++ advice.flatMap fun line => "\n  ".toList ++ line.2
  | .panic => SpecError.panic.message

namespace SpecEnv

variable (env : SpecEnv Version)

/-- The spec that is suggested for one of several packages that match. The version is enough
if it occurs once among them. -/
def suggestion (spec : PackageIdSpec Version) (ids : List (PackageId (SourceId env.crate)))
    (id : PackageId (SourceId env.crate)) : Except SpecError Text :=
  if (ids.filter fun other => other.version = id.version).length = 1 then
    .ok (spec.name ++ ':' :: env.versionStr id.version)
  else env.toStr (.fromPackageId id)

/-- A suggestion for each of the packages that match. -/
def minimize (spec : PackageIdSpec Version) (ids : List (PackageId (SourceId env.crate))) :
    Except SpecError (List (PackageId (SourceId env.crate) × Text)) :=
  ids.mapM fun id => do
    let text ← env.suggestion spec ids id
    .ok (id, text)

/-- The package that a spec names. -/
def query (spec : PackageIdSpec Version) (i : List (PackageId (SourceId env.crate))) :
    Except (QueryError (SourceId env.crate)) (PackageId (SourceId env.crate)) :=
  match i.filter spec.matches with
  -- the messages print the spec, which may panic
  | [] =>
    match env.toStr spec with
    | .ok text => .error (.noPackages text)
    | .error _ => .error .panic
  | [id] => .ok id
  | ids =>
    match env.toStr spec, env.minimize spec ids with
    | .ok text, .ok advice => .error (.ambiguous spec.name text advice)
    | _, _ => .error .panic

end SpecEnv

/-! ### What is documented of the crates -/

/-- The url of the scheme `cargo` that has this host and this path. -/
def cargoUrl (host path : Text) : Url := ⟨"cargo://".toList ++ host ++ path⟩

/-- What is documented of the url crate, of the semver crate and of characters. -/
structure SpecEnv.Documented {V : Type} (env : SpecEnv V) : Prop extends env.crate.ReadsUrls where
  /-- The fragment is what stands behind the first `#`. -/
  fragment_eq : ∀ t u, env.crate.parse t = .ok u →
    u.fragment = (t.dropWhile (· ≠ '#')).tail?.map fun f => encodeFragment (stripped f)
  /-- A url without its fragment is printed and parsed like any other. -/
  parse_withoutFragment : ∀ t u, env.crate.parse t = .ok u → env.crate.cannotBeABase u = false →
    env.crate.parse u.withoutFragment.asStr = .ok u.withoutFragment
  /-- A url is absolute: it starts with a scheme, which has no slash and no bracket. -/
  parse_scheme : ∀ t u, env.crate.parse t = .ok u →
    ':' ∈ t.takeWhile (· ≠ '/') ∧ t.head? ≠ some '['
  /-- A path with segments belongs to a url that can be a base, with its fragment or without. -/
  rooted : ∀ t u, env.crate.parse t = .ok u →
    (env.crate.path u.withoutFragment).head? = some '/' → env.crate.cannotBeABase u = false ∧
      env.crate.cannotBeABase u.withoutFragment = false
  path_infix : ∀ t u, env.crate.parse t = .ok u → env.crate.path u <:+: u.asStr
  slash_not_mem_lastSegment : ∀ u, '/' ∉ env.crate.lastSegment u
  /-- Only the host of an address in brackets has colons. -/
  host : ∀ t u host, env.crate.parse t = .ok u → env.crate.hostStr u = some host →
    '/' ∉ host ∧ host.getLast? ≠ some ':' ∧ (':' ∈ host → host.head? = some '[')
  /-- A url of the scheme `cargo` is one without its user and its port as well. -/
  parse_cargo : ∀ t u host, env.crate.parse t = .ok u → u.scheme = "cargo".toList →
    env.crate.hostStr u = some host → (env.crate.path u).head? = some '/' →
    env.crate.parse (cargoUrl host (env.crate.path u)).asStr =
        .ok (cargoUrl host (env.crate.path u)) ∧
      (cargoUrl host (env.crate.path u)).suffix = [] ∧
      env.crate.cannotBeABase (cargoUrl host (env.crate.path u)) = false
  /-- What is printed of a version is parsed as that version. -/
  parse_versionStr : ∀ t v, env.parseVersion t = .ok v →
    env.parseVersion (env.versionStr v) = .ok v
  slash_not_mem_version : ∀ t v, env.parseVersion t = .ok v → '/' ∉ t
  versionStr_chars : ∀ t v, env.parseVersion t = .ok v → ∀ c ∈ env.versionStr v,
    c.isAlphanum ∨ c = '.' ∨ c = '-' ∨ c = '+'
  versionStr_head : ∀ t v, env.parseVersion t = .ok v →
    ∃ c, (env.versionStr v).head? = some c ∧ c.isDigit
  isAlphabetic_ascii : ∀ c : Char, c.toNat < 128 → env.isAlphabetic c = c.isAlpha
  isAlphanumeric_ascii : ∀ c : Char, c.toNat < 128 → env.isAlphanumeric c = c.isAlphanum

end Cargo.Core
