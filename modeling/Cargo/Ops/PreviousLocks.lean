import Cargo.Math.Sweep
import Cargo.Resolver.Resolve

/-!
# Locking to the previous resolution

Before a new resolution starts, the packages of the previous one are registered as locked,
except those that have to be free to change: packages listed for an update, packages of a
source that a manifest has a new dependency on, and everything below either.

## Main definitions

* `Workspace` — the members, and the path packages on disk
* `addDeps` — a package and all its transitive dependencies
* `registerPreviousLocks`
-/

set_option autoImplicit false

namespace Cargo.Ops

open Cargo.Core Cargo.Math Cargo.Resolver

variable {S R : Type}

/-- A package with a path source, as its manifest has it. -/
structure PathPackage (S R : Type) where
  packageId : PackageId S
  dependencies : List (Dependency S R)
  deriving DecidableEq

/-- A workspace. The packages on disk are given by the path sources whose manifest loads; a
package id names one package. -/
structure Workspace (S R : Type) where
  members : List (PathPackage S R)
  disk : List (S × PathPackage S R)
  one_package : ∀ p ∈ members ++ disk.map Prod.snd, ∀ q ∈ members ++ disk.map Prod.snd,
    p.packageId = q.packageId → p = q

namespace Workspace

variable [DecidableEq S] (ws : Workspace S R)

/-- The package at a path source. -/
def pathPkg (id : S) : Option (PathPackage S R) := (ws.disk.find? (·.1 = id)).map Prod.snd

/-- Is the package a member? -/
def isMember (pkg : PathPackage S R) : Bool :=
  ws.members.any fun m => m.packageId = pkg.packageId

/-- An optional or development dependency of a package that is no member need not be in the
lock file. -/
def skips (member : PathPackage S R) (dep : Dependency S R) : Bool :=
  !ws.isMember member && (dep.optional || !dep.isTransitive)

/-- The path packages that a package puts on the worklist, the last one on top. -/
def pathDeps (member : PathPackage S R) : List (PathPackage S R) :=
  ((member.dependencies.filter fun dep => !ws.skips member dep).filterMap fun dep =>
    ws.pathPkg dep.sourceId).reverse

end Workspace

variable [DecidableEq S]

/-- Recursively add a package and all its transitive dependencies to a set. -/
def addDeps (ho : HashOrder (PackageId S)) (resolve : Resolve S R)
    (set : Finset (PackageId S)) (node : PackageId S) : Finset (PackageId S) :=
  collect (fun id => (ho.of id).enum (resolve.depsNotReplaced id))
    (resolve.graph.nodes.keys.card + 1) set node

section Register

variable [VersionReq R] (ho : HashOrder (PackageId S)) (ws : Workspace S R)
  (resolve : Resolve S R) (keep : PackageId S → Bool)

/-- One package of the first loop: everything below a package that is not kept, and a path
package that is not on disk any more. -/
def avoidNode (avoid : Finset (PackageId S)) (node : PackageId S) : Finset (PackageId S) :=
  if keep node then
    match ws.pathPkg node.sourceId with
    | some pkg => if pkg.packageId ≠ node then insert node avoid else avoid
    | none => avoid
  else addDeps ho resolve avoid node

/-- The first loop, over all packages of the previous resolution. -/
def avoidListed : Finset (PackageId S) :=
  (ho.enum resolve.graph.nodes.keys).foldl (avoidNode ho ws resolve keep) ∅

/-- Does a dependency of `member` poison its source: it is no path dependency, and nothing in
the previous resolution matches it? -/
def poisons (member : PathPackage S R) (dep : Dependency S R) : Bool :=
  !ws.skips member dep && (ws.pathPkg dep.sourceId).isNone &&
    !(ho.enum resolve.graph.nodes.keys).any fun id => dep.matchesIgnoringSource id

/-- The packages of the sources that `member` poisons. -/
def poisonedBy (member : PathPackage S R) : List (PackageId S) :=
  (member.dependencies.filter (poisons ho ws resolve member)).flatMap fun dep =>
    (ho.enum resolve.graph.nodes.keys).filter fun id => id.sourceId = dep.sourceId

/-- The second loop, over the members and their path dependencies. -/
def avoidPoisoned (avoid : Finset (PackageId S)) : Option (Finset (PackageId S)) :=
  worklist PathPackage.packageId ws.pathDeps
    (fun avoid member => (poisonedBy ho ws resolve member).foldl (addDeps ho resolve) avoid)
    (ws.members.length +
      pushesLeft PathPackage.packageId ws.pathDeps (ws.members ++ ws.disk.map Prod.snd) ∅)
    ws.members.reverse ∅ avoid

/-- The locks that are registered: each package that is kept, with those of its dependencies
that are. The result is `none` if the second loop did not come to its end. -/
def registerPreviousLocks : Option (List (PackageId S × List (PackageId S))) :=
  (avoidPoisoned ho ws resolve (avoidListed ho ws resolve keep)).map fun avoid =>
    let keep := fun id => keep id && decide (id ∉ avoid)
    ((ho.enum resolve.graph.nodes.keys).filter keep).map fun node =>
      (node, ((ho.of node).enum (resolve.depsNotReplaced node)).filter keep)

end Register

end Cargo.Ops
