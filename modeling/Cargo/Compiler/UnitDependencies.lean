import Cargo.Compiler.CustomBuild.BuildMap
import Cargo.Core.Profiles
import Cargo.Math.Explore
import Cargo.Resolver.ExternNames

/-!
# The graph of units

Packages depend on packages, but what is compiled are units: a target of a package in some mode,
for the host or for the target, with a profile. The graph of the packages is lowered to one of
units. A library comes before the binaries of its package, the run of a build script before both,
and the build script is compiled before it is run. At the end the runs of build scripts are
connected with those of the packages that they link to.

The graph is explored from the roots, with a table of the units that were entered. What a unit is
for tells which profiles its dependencies get, and is no part of the unit. Packages that are not at
hand are downloaded on the way: the exploration goes on without them, and when one has arrived it
starts again.

## Main definitions

* `Unit`, `BuildContext`, `Network`
* `computeDeps`, `computeDepsCustomBuild`, `computeDepsDoc`
* `depsOf`, `pass`, `buildUnitDependencies`
* `connectRunCustomBuildDeps`
-/

set_option autoImplicit false

namespace Cargo.Util

deriving instance DecidableEq for TargetSourcePath
deriving instance DecidableEq for Target

namespace Target

def isLib (target : Target) : Bool :=
  match target.kind with
  | .lib _ => true
  | _ => false

def linkable (target : Target) : Bool :=
  match target.kind with
  | .lib kinds => kinds.any Compiler.CustomBuild.linkable
  | _ => false

def isBin (target : Target) : Bool := decide (target.kind = .bin)

def isExample (target : Target) : Bool :=
  match target.kind with
  | .exampleBin | .exampleLib _ => true
  | _ => false

def isTest (target : Target) : Bool := decide (target.kind = .test)

def isBench (target : Target) : Bool := decide (target.kind = .bench)

def isCustomBuild (target : Target) : Bool := decide (target.kind = .customBuild)

end Target

end Cargo.Util

namespace Cargo.Core

namespace UnitFor

/-- No build script, procedural macro, plugin, test or benchmark. -/
def newNormal : UnitFor := ⟨false, true⟩

/-- A build script or a dependency of one. -/
def newBuild : UnitFor := ⟨true, false⟩

/-- A procedural macro, a plugin or a dependency of one. -/
def newCompiler : UnitFor := ⟨false, false⟩

/-- A test or benchmark, or a dependency of one. -/
def newTest : UnitFor := ⟨false, false⟩

def withForHost (unitFor : UnitFor) (forHost : Bool) : UnitFor :=
  ⟨unitFor.customBuild, unitFor.panicOk && !forHost⟩

end UnitFor

/-- A profile without its name. Profiles are compared, and so are units, by everything else. -/
def Profile.comparable (profile : Profile) : Profile := { profile with name := "" }

/-- Is the platform the one with this name and configuration? -/
def Platform.matches (platform : Platform) (name : String) (cfg : Option (List Util.Cfg)) : Bool :=
  match platform with
  | .name p => p = name
  | .cfg e =>
    match cfg with
    | some cfg => e.matches cfg
    | none => false

end Cargo.Core

namespace Cargo.Compiler

namespace CompileMode

def isCheck : CompileMode → Bool
  | check _ => true
  | _ => false

def isDoc : CompileMode → Bool
  | doc _ | doctest => true
  | _ => false

def isRunCustomBuild (mode : CompileMode) : Bool := decide (mode = runCustomBuild)

end CompileMode

/-- What is compiled for the host stays there. A target that is needed on the host goes there. -/
def CustomBuild.Kind.forTarget (kind : CustomBuild.Kind) (target : Util.Target) :
    CustomBuild.Kind :=
  match kind with
  | .host => .host
  | .target => if target.forHost then .host else .target

end Cargo.Compiler

namespace Cargo.Compiler.UnitDependencies

open Cargo.Core hiding Kind
open Cargo.Math Cargo.Resolver Cargo.Util
open Cargo.Compiler.CustomBuild (Kind)

/-- Something to compile, to document or to run. Units are compared without the names of their
profiles, so the profile here is one that is `comparable`. -/
structure Unit (crate : UrlCrate) where
  pkg : PackageId (SourceId crate)
  target : Target
  profile : Profile
  kind : Kind
  mode : CompileMode
  deriving DecidableEq

/-- What counts of a package. -/
structure Package where
  targets : List Target
  links : Option String

/-- What a build is about. The `package` of an id is what is read once it is at hand. -/
structure BuildContext (crate : UrlCrate) (R : Type) where
  resolve : Resolve (SourceId crate) R
  package : PackageId (SourceId crate) → Package
  isMember : PackageId (SourceId crate) → Bool
  profiles : Profiles
  /-- `build_config.release` -/
  release : Bool
  /-- `build_config.test()`: the command is `test` or `bench`. -/
  test : Bool
  /-- The triples of the host and of the target. -/
  triple : Kind → String
  /-- The configurations of the host and of the target, as far as the compiler prints them. -/
  cfg : Kind → Option (List Cfg)

inductive Error (crate : UrlCrate)
  /-- A profile could not be computed. -/
  | profile (e : ProfileError crate)
  /-- A package could not be had. -/
  | download (message : String)
  /-- `assert!(!deps.is_empty())` -/
  | unlisted (id : PackageId (SourceId crate))
  /-- `assert!(self.downloads.remaining() > 0)` -/
  | noneRemaining
  /-- The recursion is deeper, or the loop longer, than was allowed for. -/
  | depth

variable {crate : UrlCrate} {R : Type}

/-- Is the platform of a dependency the one that `kind` is about? -/
def BuildContext.depPlatformActivated (bcx : BuildContext crate R)
    (dep : Dependency (SourceId crate) R) (kind : Kind) : Bool :=
  match dep.platform with
  | none => true
  | some p => p.matches (bcx.triple kind) (bcx.cfg kind)

/-! ### The dependencies of a unit -/

/-- A unit, and what it is for. -/
abbrev Item (crate : UrlCrate) := Unit crate × UnitFor

/-- Choose the mode of a dependency. -/
def checkOrBuildMode (mode : CompileMode) (target : Target) : CompileMode :=
  match mode with
  | .check _ | .doc _ => if target.forHost then .build else .check false
  | _ => .build

def newUnit (bcx : BuildContext crate R) (pkg : PackageId (SourceId crate)) (target : Target)
    (unitFor : UnitFor) (kind : Kind) (mode : CompileMode) : Except (Error crate) (Unit crate) :=
  match bcx.profiles.getProfile pkg (bcx.isMember pkg) unitFor mode bcx.release with
  | .error e => .error (.profile e)
  | .ok profile => .ok { pkg, target, profile := profile.comparable, kind, mode }

/-- The run of the build script of a unit's package, if it has one. -/
def depBuildScript (bcx : BuildContext crate R) (unit : Unit crate) : Option (Unit crate) :=
  ((bcx.package unit.pkg).targets.find? Target.isCustomBuild).map fun t =>
    { pkg := unit.pkg
      target := t
      profile := Profiles.getProfileRunCustomBuild unit.profile
      kind := unit.kind
      mode := .runCustomBuild }

/-- The run of the build script as an item. -/
def buildScriptItems (bcx : BuildContext crate R) (unit : Unit crate) : List (Item crate) :=
  (depBuildScript bcx unit).toList.map fun run => (run, UnitFor.newBuild)

/-- The library of the unit's own package, if there is one that can be linked. -/
def maybeLib (bcx : BuildContext crate R) (unit : Unit crate) (unitFor : UnitFor) :
    Except (Error crate) (List (Item crate)) :=
  match (bcx.package unit.pkg).targets.find? Target.linkable with
  | none => .ok []
  | some t => do
    let lib ← newUnit bcx unit.pkg t unitFor (unit.kind.forTarget t) (checkOrBuildMode unit.mode t)
    .ok [(lib, unitFor)]

section Collect

variable {m : Type → Type} [Monad m] [MonadLiftT (Except (Error crate)) m]

/-- A dependency of a package. If it is used, is at hand and has a library, then it gives units. -/
def collectDep (bcx : BuildContext crate R) (get : PackageId (SourceId crate) → m Bool)
    (used : PackageId (SourceId crate) → List (Dependency (SourceId crate) R) →
      Except (Error crate) Bool)
    (units : PackageId (SourceId crate) → Target → Except (Error crate) (List (Item crate)))
    (ret : List (Item crate))
    (dep : PackageId (SourceId crate) × List (Dependency (SourceId crate) R)) :
    m (List (Item crate)) := do
  if ← used dep.1 dep.2 then
    if ← get dep.1 then
      match (bcx.package dep.1).targets.find? Target.isLib with
      | none => pure ret
      | some lib => do
        let new ← units dep.1 lib
        pure (ret ++ new)
    -- not downloaded yet: this pass goes on without it
    else pure ret
  else pure ret

/-- Go through the dependencies of a package. -/
def collectDeps (bcx : BuildContext crate R) (get : PackageId (SourceId crate) → m Bool)
    (used : PackageId (SourceId crate) → List (Dependency (SourceId crate) R) →
      Except (Error crate) Bool)
    (units : PackageId (SourceId crate) → Target → Except (Error crate) (List (Item crate)))
    (deps : List (PackageId (SourceId crate) × List (Dependency (SourceId crate) R))) :
    m (List (Item crate)) :=
  deps.foldlM (collectDep bcx get used units) []

/-- Is a dependency one of this unit? -/
def BuildContext.used (bcx : BuildContext crate R) (unit : Unit crate)
    (dep : Dependency (SourceId crate) R) : Bool :=
  -- a build script has the build dependencies, everything else has the others
  if unit.target.isCustomBuild ≠ decide (dep.kind = .build) then false
  -- what is not transitive is for tests and examples
  else if !dep.isTransitive && !unit.target.isTest && !unit.target.isExample &&
      !unit.mode.isAnyTest then false
  else if !bcx.depPlatformActivated dep unit.kind then false
  else !(dep.optional && decide (dep.nameInToml ∉ bcx.resolve.featuresOf unit.pkg))

/-- The library of a dependency. -/
def libUnit (bcx : BuildContext crate R) (unit : Unit crate) (unitFor : UnitFor)
    (pkg : PackageId (SourceId crate)) (lib : Target) :
    Except (Error crate) (List (Item crate)) := do
  let depUnitFor := unitFor.withForHost lib.forHost
  let unit ← newUnit bcx pkg lib depUnitFor (unit.kind.forTarget lib)
    (checkOrBuildMode unit.mode lib)
  .ok [(unit, depUnitFor)]

/-- The binaries that an integration test or a benchmark may run. -/
def testedBins (bcx : BuildContext crate R) (unit : Unit crate) :
    Except (Error crate) (List (Item crate)) :=
  ((bcx.package unit.pkg).targets.filter fun t =>
    t.isBin && (t.requiredFeatures.getD []).all fun f =>
      decide (f ∈ bcx.resolve.featuresOf unit.pkg)).mapM fun t => do
    let bin ← newUnit bcx unit.pkg t .newNormal (unit.kind.forTarget t) .build
    .ok (bin, UnitFor.newNormal)

/-- What has to be there to run a build script: the script. The scripts of dependencies come
later. -/
def computeDepsCustomBuild (bcx : BuildContext crate R) (unit : Unit crate) :
    Except (Error crate) (List (Item crate)) := do
  let script ← newUnit bcx unit.pkg unit.target .newBuild .host .build
  .ok [(script, UnitFor.newBuild)]

/-- The library of a dependency of something that is documented, and its documentation. -/
def docUnits (bcx : BuildContext crate R) (unit : Unit crate) (pkg : PackageId (SourceId crate))
    (lib : Target) : Except (Error crate) (List (Item crate)) := do
  let depUnitFor := UnitFor.newNormal.withForHost lib.forHost
  let libUnit ← newUnit bcx pkg lib depUnitFor (unit.kind.forTarget lib)
    (checkOrBuildMode unit.mode lib)
  if unit.mode = .doc true then do
    let docUnit ← newUnit bcx pkg lib depUnitFor (unit.kind.forTarget lib) unit.mode
    .ok [(libUnit, depUnitFor), (docUnit, depUnitFor)]
  else .ok [(libUnit, depUnitFor)]

/-- The library of its own package that a binary needs to be documented. -/
def docOwnLib (bcx : BuildContext crate R) (unit : Unit crate) :
    Except (Error crate) (List (Item crate)) :=
  if unit.target.isBin then maybeLib bcx unit .newNormal else .ok []

/-- What has to be there to document a unit. -/
def computeDepsDoc (bcx : BuildContext crate R) (get : PackageId (SourceId crate) → m Bool)
    (ho : HashOrder (PackageId (SourceId crate))) (unit : Unit crate) :
    m (List (Item crate)) := do
  let ret ← collectDeps bcx get
    (fun _ listed => .ok (listed.any fun dep =>
      decide (dep.kind = .normal) && bcx.depPlatformActivated dep unit.kind))
    (docUnits bcx unit) (bcx.resolve.deps ho unit.pkg)
  let own ← docOwnLib bcx unit
  pure (ret ++ buildScriptItems bcx unit ++ own)

/-- What has to be there for a unit, apart from the libraries of other packages. -/
def ownDeps (bcx : BuildContext crate R) (unit : Unit crate) (unitFor : UnitFor) :
    Except (Error crate) (List (Item crate)) :=
  if unit.target.isCustomBuild then .ok []
  else if unit.target.isLib && decide (unit.mode ≠ .doctest) then .ok (buildScriptItems bcx unit)
  else do
    let lib ← maybeLib bcx unit unitFor
    if !unit.mode.isCheck && unit.mode.isAnyTest && (unit.target.isTest || unit.target.isBench)
    then do
      let bins ← testedBins bcx unit
      .ok (buildScriptItems bcx unit ++ lib ++ bins)
    else .ok (buildScriptItems bcx unit ++ lib)

/-- What has to be there for a unit. Each dependency comes with what it is for. -/
def computeDeps (bcx : BuildContext crate R) (get : PackageId (SourceId crate) → m Bool)
    (ho : HashOrder (PackageId (SourceId crate))) (item : Item crate) : m (List (Item crate)) :=
  let (unit, unitFor) := item
  if unit.mode.isRunCustomBuild then liftM (computeDepsCustomBuild bcx unit)
  -- doctests have the dependencies of a test, not of documentation
  else if unit.mode.isDoc && !unit.mode.isAnyTest then computeDepsDoc bcx get ho unit
  else do
    let ret ← collectDeps bcx get
      (fun id listed =>
        if listed.isEmpty then .error (.unlisted id) else .ok (listed.any (bcx.used unit)))
      (libUnit bcx unit unitFor) (bcx.resolve.deps ho unit.pkg)
    let own ← ownDeps bcx unit unitFor
    pure (ret ++ own)

end Collect

/-! ### Downloads -/

/-- Where packages come from. -/
structure Network (crate : UrlCrate) where
  /-- `Downloads::start`: is the package at hand? If not, then its download begins. -/
  start : PackageId (SourceId crate) → Except (Error crate) Bool
  /-- `Downloads::wait`: which one of the downloads ends next. -/
  wait : ℕ → Finset (PackageId (SourceId crate)) →
    Except (Error crate) (PackageId (SourceId crate))
  wait_mem : ∀ n pending id, wait n pending = .ok id → id ∈ pending

/-- What has been downloaded. -/
structure Fetch (crate : UrlCrate) where
  pkgs : Finset (PackageId (SourceId crate))
  waitingOnDownload : Finset (PackageId (SourceId crate))
  /-- `downloads.remaining()` counts these. -/
  remaining : Finset (PackageId (SourceId crate))
  /-- How many downloads have ended. -/
  waits : ℕ

/-- Is a package at hand? If not, then its download begins. -/
def Fetch.get (net : Network crate) (id : PackageId (SourceId crate)) :
    StateT (Fetch crate) (Except (Error crate)) Bool := fun f =>
  if id ∈ f.pkgs then .ok (true, f)
  else if id ∈ f.waitingOnDownload then .ok (false, f)
  else do
    if ← net.start id then .ok (true, { f with pkgs := insert id f.pkgs })
    else
      .ok (false, { f with
        waitingOnDownload := insert id f.waitingOnDownload
        remaining := insert id f.remaining })

/-- Wait for downloads until there are few. -/
def Fetch.finishLoop (net : Network crate) : ℕ → Fetch crate → Except (Error crate) (Fetch crate)
  | 0, _ => .error .noneRemaining
  | n + 1, f => do
    let id ← net.wait f.waits f.remaining
    let f := { f with
      pkgs := insert id f.pkgs
      waitingOnDownload := f.waitingOnDownload.erase id
      remaining := f.remaining.erase id
      waits := f.waits + 1 }
    if f.remaining.card < 5 then .ok f else finishLoop net n f

/-- Completes at least one download. -/
def Fetch.finishSomeDownloads (net : Network crate) (f : Fetch crate) :
    Except (Error crate) (Fetch crate) :=
  f.finishLoop net f.remaining.card

/-! ### The graph -/

/-- What a root is for. -/
def rootUnitFor (bcx : BuildContext crate R) (unit : Unit crate) : UnitFor :=
  if unit.mode.isAnyTest || bcx.test then .newTest
  else if unit.target.isCustomBuild then .newBuild
  else if unit.target.forHost then .newCompiler
  else .newNormal

section Build

variable (bcx : BuildContext crate R) (net : Network crate)
  (ho : HashOrder (PackageId (SourceId crate)))

/-- The dependencies of a unit are put into the table, and then theirs, unless it has them. -/
def depsOf : ℕ → Item crate → Explored (Fetch crate) (Unit crate) →
    Except (Error crate) (Explored (Fetch crate) (Unit crate)) :=
  explore Prod.fst (fun item f => (computeDeps bcx (Fetch.get net) ho item).run f) .depth

/-- Explore from a root, after its package has been asked for. -/
def passFrom (fuel : ℕ) (s : Explored (Fetch crate) (Unit crate)) (unit : Unit crate) :
    Except (Error crate) (Explored (Fetch crate) (Unit crate)) := do
  let r ← (Fetch.get net unit.pkg).run s.rest
  depsOf bcx net ho fuel (unit, rootUnitFor bcx unit) ⟨r.2, s.table⟩

/-- Explore from all roots. -/
def pass (fuel : ℕ) (roots : List (Unit crate)) (f : Fetch crate) :
    Except (Error crate) (Explored (Fetch crate) (Unit crate)) :=
  roots.foldlM (passFrom bcx net ho fuel) ⟨f, ∅⟩

/-- Explore, and start again as long as there are packages to wait for. -/
def passes (fuel : ℕ) (roots : List (Unit crate)) : ℕ → Fetch crate →
    Except (Error crate) (SuccTable (Unit crate))
  | 0, _ => .error .depth
  | n + 1, f => do
    let s ← pass bcx net ho fuel roots f
    if 0 < s.rest.waitingOnDownload.card then do
      let f ← s.rest.finishSomeDownloads net
      passes fuel roots n f
    else .ok s.table

end Build

/-! ### Runs of build scripts -/

section Connect

variable (bcx : BuildContext crate R)

/-- What a table has for a unit. -/
def entries (deps : SuccTable (Unit crate)) (unit : Unit crate) : List (Unit crate) :=
  (deps.lookup unit).getD []

/-- What depends on a unit. -/
def reverseDeps (deps : SuccTable (Unit crate)) (unit : Unit crate) : Finset (Unit crate) :=
  deps.keys.filter fun parent => unit ∈ entries deps parent

/-- The runs that the run of a build script is to depend on: those of what its dependents depend
on and link to. -/
def toAdd (deps : SuccTable (Unit crate)) (unit : Unit crate) : Finset (Unit crate) :=
  (reverseDeps deps unit).biUnion fun parent =>
    (((entries deps parent).filter fun other =>
      decide (other.pkg ≠ unit.pkg) && other.target.linkable &&
        (bcx.package other.pkg).links.isSome).filterMap (depBuildScript bcx)).toFinset

/-- Let the runs of build scripts depend on each other. -/
def connectRunCustomBuildDeps (ho : HashOrder (Unit crate)) (deps : SuccTable (Unit crate)) :
    SuccTable (Unit crate) :=
  ((ho.enum deps.keys).filter fun unit => unit.mode.isRunCustomBuild).foldl
    (fun new unit =>
      new.insert unit (entries deps unit ++ (ho.of unit).enum (toAdd bcx deps unit))) deps

end Connect

/-- The graph of the units that are needed for the roots. Some packages have been had before. -/
def buildUnitDependencies (bcx : BuildContext crate R) (net : Network crate)
    (ho : HashOrder (PackageId (SourceId crate))) (ho' : HashOrder (Unit crate)) (fuel : ℕ)
    (roots : List (Unit crate)) (pkgs : Finset (PackageId (SourceId crate))) :
    Except (Error crate) (SuccTable (Unit crate)) := do
  let deps ← passes bcx net ho fuel roots fuel ⟨pkgs, ∅, ∅, 0⟩
  .ok (connectRunCustomBuildDeps bcx ho' deps)

end Cargo.Compiler.UnitDependencies
