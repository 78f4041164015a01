import Cargo.Compiler.JobQueue
import Cargo.Compiler.UnitDependencies
import Cargo.Math.Acyclic
import Cargo.Math.Visit

/-!
# Enqueueing the units

Once the graph of the units is known, it is visited from the roots. For each unit the work is made
that brings it up to date, what its package links to is checked, and the work is enqueued; then
come the units that it depends on. If only a plan of the build is asked for, then a unit is added
to the plan after all that it depends on, and names these by their positions.

What making the work reads and writes beside this is a parameter here. It may fail.

## Main definitions

* `Context.Links`, `Context.Links.validate` — the check that a native library is linked by one
  package only
* `BuildPlan`, `BuildPlan.add`
* `Context`, `Context.depTargets`, `Context.units`
* `Context.enter`, `Context.leave`, `Context.compile` — the visit
-/

set_option autoImplicit false

namespace Cargo.Compiler.UnitDependencies

open Cargo.Core hiding Kind
open Cargo.Math Cargo.Resolver Cargo.Util
open Cargo.Compiler.CustomBuild (Kind)

variable {crate : UrlCrate} {R W σ E : Type}

/-! ### Native libraries -/

/-- The packages that were checked, and which of them links each library. -/
structure Context.Links (crate : UrlCrate) where
  validated : Finset (PackageId (SourceId crate))
  links : Finmap fun _ : String => PackageId (SourceId crate)

inductive LinksError (crate : UrlCrate)
  /-- Two packages link to the library. Each comes with the packages that lead up from it. -/
  | multiple (lib : String) (prev pkg : List (PackageId (SourceId crate)))
  /-- Nothing says how to link to the library. -/
  | noBuildScript (pkg : PackageId (SourceId crate)) (lib : String)

/-- A package and what depends on it. -/
def describePath (display : PackageId (SourceId crate) → String) :
    List (PackageId (SourceId crate)) → String
  | [] => ""
  | pkg :: path => path.foldl
      (fun desc dep => desc ++ "\n    ... which is depended on by `" ++ display dep ++ "`")
      ("package `" ++ display pkg ++ "`")

def LinksError.message (display : PackageId (SourceId crate) → String) :
    LinksError crate → String
  | .multiple lib prev pkg =>
    "multiple packages link to native library `" ++ lib ++
      "`, but a native library can be linked only once\n\n" ++
      describePath display prev ++ "\nlinks to native library `" ++ lib ++ "`\n\n" ++
      describePath display pkg ++ "\nalso links to native library `" ++ lib ++ "`"
  | .noBuildScript pkg lib =>
    "package `" ++ display pkg ++ "` specifies that it links to `" ++ lib ++
      "` but does not have a custom build script"

namespace Context.Links

def new : Context.Links crate := ⟨∅, ∅⟩

/-- Check the package of a unit, unless it has been checked. -/
def validate (bcx : BuildContext crate R) (ho : HashOrder (PackageId (SourceId crate)))
    (self : Context.Links crate) (unit : Unit crate) :
    Except (LinksError crate) (Context.Links crate) :=
  if unit.pkg ∈ self.validated then .ok self
  else
    let self := { self with validated := insert unit.pkg self.validated }
    match (bcx.package unit.pkg).links with
    | none => .ok self
    | some lib =>
      match self.links.lookup lib with
      | some prev => .error (.multiple lib (bcx.resolve.graph.pathToTop ho prev)
          (bcx.resolve.graph.pathToTop ho unit.pkg))
      | none =>
        if (bcx.package unit.pkg).targets.any Target.isCustomBuild then
          .ok { self with links := self.links.insert lib unit.pkg }
        else .error (.noBuildScript unit.pkg lib)

end Context.Links

/-! ### Plans -/

/-- What a plan has to say of a unit, before it knows the command. -/
structure Invocation (crate : UrlCrate) where
  unit : Unit crate
  /-- The positions of the units that it depends on. -/
  deps : List ℕ

def Invocation.packageName (invocation : Invocation crate) : String := invocation.unit.pkg.name

def Invocation.packageVersion (invocation : Invocation crate) : Version :=
  invocation.unit.pkg.version

def Invocation.targetKind (invocation : Invocation crate) : TargetKind :=
  invocation.unit.target.kind

def Invocation.kind (invocation : Invocation crate) : Kind := invocation.unit.kind

/-- The invocations in order, and the position of each by the name of its unit. -/
structure BuildPlan (crate : UrlCrate) where
  invocationMap : Finmap fun _ : String => ℕ
  invocations : List (Invocation crate)

/-! ### The visit -/

inductive CompileError (crate : UrlCrate) (E : Type)
  | links (e : LinksError crate)
  /-- Making the work of a unit has failed. -/
  | work (e : E)
  /-- `self.unit_dependencies[unit]` -/
  | noDependencies
  /-- `self.invocation_map[&dep.buildkey()]` -/
  | noInvocation
  /-- The recursion is deeper than was allowed for. -/
  | depth

namespace BuildPlan

def new : BuildPlan crate := ⟨∅, []⟩

/-- The position of a unit. -/
def position (buildkey : Unit crate → String) (invocationMap : Finmap fun _ : String => ℕ)
    (dep : Unit crate) : Except (CompileError crate E) ℕ :=
  match invocationMap.lookup (buildkey dep) with
  | none => .error .noInvocation
  | some i => .ok i

/-- Add a unit with the units that it depends on. -/
def add (buildkey : Unit crate → String) (self : BuildPlan crate) (unit : Unit crate)
    (deps : List (Unit crate)) : Except (CompileError crate E) (BuildPlan crate) := do
  let id := self.invocations.length
  let invocationMap := self.invocationMap.insert (buildkey unit) id
  let deps ← deps.mapM (position buildkey invocationMap)
  .ok ⟨invocationMap, self.invocations ++ [⟨unit, deps⟩]⟩

end BuildPlan

/-- The two kinds of work of a unit. -/
structure Job (W : Type) where
  dirty : W
  fresh : W

/-- How the work of a unit is made. The state is whatever else the context keeps. -/
structure WorkMaker (crate : UrlCrate) (W σ E : Type) where
  noop : W
  /-- `then` -/
  andThen : W → W → W
  /-- `fingerprint::prepare_init` -/
  prepareInit : Unit crate → σ → Except E σ
  /-- `build_work`: the dirty work and the fresh one. -/
  buildWork : Unit crate → σ → Except E (Job W × σ)
  /-- `fingerprint::prepare_build_cmd` -/
  prepareBuildCmd : Unit crate → σ → Except E ((Freshness × Job W) × σ)
  /-- `fingerprint::prepare_target` -/
  prepareTarget : Unit crate → σ → Except E ((Freshness × Job W) × σ)
  rustc : Unit crate → σ → Except E (W × σ)
  rustdoc : Unit crate → σ → Except E (W × σ)
  linkTargets : Unit crate → Bool → σ → Except E (W × σ)
  /-- `exec.force_rebuild` -/
  forceRebuild : Unit crate → Bool

/-- What the visit reads. -/
structure Context (crate : UrlCrate) (R W σ E : Type) where
  bcx : BuildContext crate R
  unitDependencies : SuccTable (Unit crate)
  /-- The build scripts that are not run. -/
  buildScriptOverridden : Finset (PackageId (SourceId crate) × Kind)
  /-- The name of a unit, which ends in a hash of the unit. -/
  buildkey : Unit crate → String
  /-- `build_config.build_plan`: nothing is to be run. -/
  buildPlan : Bool
  maker : WorkMaker crate W σ E
  /-- How the packages are iterated over. -/
  ho : HashOrder (PackageId (SourceId crate))

/-- What the visit writes. -/
structure Compiling (crate : UrlCrate) (W σ : Type) where
  links : Context.Links crate
  jobs : JobQueue (Unit crate) (Job W) (PackageId (SourceId crate))
  plan : BuildPlan crate
  rest : σ

namespace Context

/-- The units that a unit depends on, by their names. A build script that is not run depends on
nothing. -/
def depTargets (cx : Context crate R W σ E) (unit : Unit crate) :
    Except (CompileError crate E) (List (Unit crate)) :=
  if unit.target.isCustomBuild = true ∧ (unit.pkg, unit.kind) ∈ cx.buildScriptOverridden then
    .ok []
  else
    match cx.unitDependencies.lookup unit with
    | none => .error .noDependencies
    | some deps => .ok (deps.mergeSort fun a b => (compare (cx.buildkey a) (cx.buildkey b)).isLE)

/-- The same for a unit that the graph has. -/
def deps (cx : Context crate R W σ E) (unit : Unit crate) : List (Unit crate) :=
  match cx.depTargets unit with
  | .ok deps => deps
  | .error _ => []

/-- What the job queue asks about units: a test may run binaries of its package, but needs none
of them to be compiled. -/
def units (cx : Context crate R W σ E) : Units (Unit crate) (PackageId (SourceId crate)) where
  pkg := Unit.pkg
  dependencies unit := (cx.deps unit).filter fun dep => !(unit.target.isTest && dep.target.isBin)

/-- The work for the run of a build script. -/
def prepareCustomBuild (cx : Context crate R W σ E) (unit : Unit crate) (s : σ) :
    Except E ((Job W × Freshness) × σ) := do
  let work ←
    if (unit.pkg, unit.kind) ∈ cx.buildScriptOverridden then
      .ok (⟨cx.maker.noop, cx.maker.noop⟩, s)
    else cx.maker.buildWork unit s
  if cx.buildPlan then .ok ((work.1, .dirty), work.2)
  else do
    let cmd ← cx.maker.prepareBuildCmd unit work.2
    .ok ((⟨cx.maker.andThen work.1.dirty cmd.1.2.dirty,
      cx.maker.andThen work.1.fresh cmd.1.2.fresh⟩, cmd.1.1), cmd.2)

/-- The work for a unit. -/
def prepare (cx : Context crate R W σ E) (unit : Unit crate) (forceRebuild : Bool) (s : σ) :
    Except E ((Job W × Freshness) × σ) :=
  if unit.mode.isRunCustomBuild then cx.prepareCustomBuild unit s
  -- doctests are run after the build
  else if unit.mode = .doctest then .ok ((⟨cx.maker.noop, cx.maker.noop⟩, .fresh), s)
  else if cx.buildPlan then do
    let work ← cx.maker.rustc unit s
    .ok ((⟨work.1, cx.maker.noop⟩, .dirty), work.2)
  else do
    let target ← cx.maker.prepareTarget unit s
    let work ←
      if unit.mode.isDoc then cx.maker.rustdoc unit target.2 else cx.maker.rustc unit target.2
    let linkDirty ← cx.maker.linkTargets unit false work.2
    let linkFresh ← cx.maker.linkTargets unit true linkDirty.2
    -- the fingerprint is written after the work, and after its outputs are linked
    let dirty := cx.maker.andThen (cx.maker.andThen work.1 linkDirty.1) target.1.2.dirty
    let fresh := cx.maker.andThen linkFresh.1 target.1.2.fresh
    let freshness :=
      if cx.maker.forceRebuild unit || forceRebuild then .dirty else target.1.1
    .ok ((⟨dirty, fresh⟩, freshness), linkFresh.2)

/-- Enqueue a unit. What it depends on comes next, and is not forced to be rebuilt. -/
def enter (cx : Context crate R W σ E) (item : Unit crate × Bool) (s : Compiling crate W σ) :
    Except (CompileError crate E) (List (Unit crate × Bool) × Compiling crate W σ) := do
  let rest ← (cx.maker.prepareInit item.1 s.rest).mapError .work
  let links ← (s.links.validate cx.bcx cx.ho item.1).mapError .links
  let work ← (cx.prepare item.1 item.2 rest).mapError .work
  let deps ← cx.depTargets item.1
  .ok (deps.map fun dep => (dep, false),
    { s with
      links
      jobs := s.jobs.enqueue cx.units item.1 work.1.1 work.1.2
      rest := work.2 })

/-- Add a unit to the plan, after what it depends on. -/
def leave (cx : Context crate R W σ E) (item : Unit crate × Bool) (s : Compiling crate W σ) :
    Except (CompileError crate E) (Compiling crate W σ) :=
  if cx.buildPlan then do
    let deps ← cx.depTargets item.1
    let plan ← s.plan.add cx.buildkey item.1 deps
    .ok { s with plan }
  else .ok s

/-- Visit the units from the roots. The result has the units that were `compiled`. -/
def compile (cx : Context crate R W σ E) (fuel : ℕ) (units : List (Unit crate))
    (forceRebuild : Bool) (rest : σ) :
    Except (CompileError crate E) (Entered (Compiling crate W σ) (Unit crate)) :=
  visitAll Prod.fst cx.enter cx.leave .depth fuel (units.map fun unit => (unit, forceRebuild))
    ⟨Context.Links.new, JobQueue.new, BuildPlan.new, rest⟩

end Context

end Cargo.Compiler.UnitDependencies
