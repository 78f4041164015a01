import Cargo.Core.PackageId
import Cargo.Util.Cfg

/-!
# Dependencies

A dependency as a manifest states it. Version requirements come from the `semver` crate;
all the resolver asks of one is whether it accepts a version.

## Main definitions

* `VersionReq` — types of version requirements
* `Dependency`, `Dependency.parse` — one dependency of a package
* `Dependency.matchesId` — which packages fulfil it
-/

set_option autoImplicit false

namespace Cargo.Core

open Cargo.Util

/-- Version requirements. -/
class VersionReq (R : Type) where
  /-- Whether a requirement accepts a version. -/
  accepts : R → Version → Bool

/-- A list of versions as the requirement that these versions fulfil. -/
instance listReq : VersionReq (List Version) := ⟨fun req version => decide (version ∈ req)⟩

/-- What a dependency is used for. -/
inductive DepKind
  | normal
  | development
  | build
  deriving DecidableEq, Repr

/-- The platforms a dependency is restricted to. -/
inductive Platform
  | name (s : String)
  | cfg (e : CfgExpr)
  deriving DecidableEq

/-- A dependency listed in a manifest. -/
structure Dependency (S R : Type) where
  name : String
  sourceId : S
  registryId : Option S
  req : R
  specifiedReq : Bool
  kind : DepKind
  onlyMatchName : Bool
  explicitNameInToml : Option String
  optional : Bool
  defaultFeatures : Bool
  features : List String
  platform : Option Platform
  deriving DecidableEq

namespace Dependency

variable {S R : Type}

/-- `parse_no_deprecated`: the dependency that a manifest states by its name and a
requirement, with the defaults for everything else. -/
def parse (name : String) (req : R) (sourceId : S) : Dependency S R where
  name
  sourceId
  registryId := none
  req
  specifiedReq := true
  kind := .normal
  onlyMatchName := false
  explicitNameInToml := none
  optional := false
  defaultFeatures := true
  features := []
  platform := none

/-- The name on the left-hand side in the manifest. -/
def nameInToml (dep : Dependency S R) : String := dep.explicitNameInToml.getD dep.name

/-- Whether users of the package see the dependency: all but development ones do. -/
def isTransitive (dep : Dependency S R) : Bool :=
  match dep.kind with
  | .normal | .build => true
  | .development => false

/-- Whether a package has the name and a version that the dependency asks for. -/
def matchesIgnoringSource [VersionReq R] (dep : Dependency S R) (id : PackageId S) : Bool :=
  decide (dep.name = id.name) && VersionReq.accepts dep.req id.version

/-- Whether a package can fulfil the dependency. -/
def matchesId [DecidableEq S] [VersionReq R] (dep : Dependency S R) (id : PackageId S) : Bool :=
  decide (dep.name = id.name) &&
    (dep.onlyMatchName ||
      (VersionReq.accepts dep.req id.version && decide (dep.sourceId = id.sourceId)))

/-- The slot in which the packages that fulfil the dependency are active. -/
def slot (dep : Dependency S R) : String × S := (dep.name, dep.sourceId)

end Dependency

end Cargo.Core
