import Cargo.Math.Memo
import Mathlib.Order.Defs.LinearOrder
import Mathlib.Data.List.Sort

/-!
# Fingerprints

A unit is not compiled again if its fingerprint is that of its last compile. A fingerprint says
how the unit is compiled and what it is compiled from: for a path unit the time of its dep-info,
if all files listed there are older; for others what their source tells. It also holds the
fingerprints of the dependencies, by way of their hashes, which are computed on demand and noted.

When a unit has been compiled, its dep-info is translated, the times in its fingerprint are
brought up to date, and the fingerprint is written to two files: its hash, and its contents.

The hash is a parameter.

## Main definitions

* `Config`, `LocalFingerprint`, `Contents` — a fingerprint as it is written
* `compare` — is a fingerprint as good as an old one?
* `Disk` — the files that matter
* `UnitGraph` — the units of a run
* `Fingerprints` — the fingerprints of a run, with the hashes that were noted
* `calculate`, `hash`, `updateLocal`, `writeFingerprint`, `compareOldFingerprint`,
  `prepareTarget`
-/

set_option autoImplicit false

namespace Cargo.Compiler.Fingerprint

open Cargo.Math

/-- The editions of the language. -/
inductive Edition
  | edition2015
  | edition2018
  deriving DecidableEq

/-- How a unit is compiled. `path` is that of the file it is compiled from; `profile` also covers
the mode and the arguments that depend on it. -/
structure Config (H : Type) where
  rustc : H
  features : String
  target : H
  profile : H
  path : H
  rustflags : List String
  edition : Edition
  deriving DecidableEq

/-- The files whose times matter: the dep-info of a unit, and files that are compiled. -/
inductive File (U P : Type)
  | depInfo (u : U)
  | source (p : P)
  deriving DecidableEq

/-- What a unit itself is compiled from. -/
inductive LocalFingerprint (T U P : Type)
  | precalculated (s : String)
  | mtimeBased (slot : Option T) (path : File U P)
  | envBased (key : String) (value : Option String)

/-- A fingerprint as it is hashed and written. Of a dependency there is its package id, the name
it is known by and its hash. -/
structure Contents (H T U P : Type) where
  config : Config H
  deps : List (String × String × H)
  locals : List (LocalFingerprint T U P)

/-! ### Comparison -/

/-- Why a unit has to be compiled. -/
inductive Mismatch (T : Type)
  | rustc
  | features (new old : String)
  | target
  | path
  | profile
  | rustflags
  | localLens
  | edition
  | precalculated (new old : String)
  | mtime (previously now : Option T)
  | envKey (new old : String)
  | envValue (key : String) (previously now : Option String)
  | localType
  | numberOfDeps
  | dep (new old : String)
  /-- The hash of the old fingerprint cannot be read. -/
  | noShort
  /-- The old fingerprint cannot be read. -/
  | noJson

/-- Bail out with an error unless the condition holds. -/
def ensure {ε : Type} (c : Prop) [Decidable c] (e : ε) : Except ε Unit :=
  if c then .ok () else .error e

/-- Is the file newer than it was when the unit was last compiled? -/
def shouldRebuild {T : Type} [LinearOrder T] (onDisk previouslyBuilt : Option T) : Bool :=
  match onDisk, previouslyBuilt with
  | none, none => false
  | some _, none => true
  | none, some _ => true
  | some onDisk, some previouslyBuilt => decide (previouslyBuilt < onDisk)

section Compare

variable {H T U P : Type} [DecidableEq H] [LinearOrder T]

/-- Compare what a unit is compiled from. -/
def compareLocal : LocalFingerprint T U P → LocalFingerprint T U P → Except (Mismatch T) Unit
  | .precalculated a, .precalculated b => ensure (a = b) (.precalculated a b)
  | .mtimeBased onDisk _, .mtimeBased previouslyBuilt _ =>
    ensure (shouldRebuild onDisk previouslyBuilt = false) (.mtime previouslyBuilt onDisk)
  | .envBased akey avalue, .envBased bkey bvalue => do
    ensure (akey = bkey) (.envKey akey bkey)
    ensure (avalue = bvalue) (.envValue akey bvalue avalue)
  | _, _ => .error .localType

/-- Compare a fingerprint with an old one. -/
def compare (new old : Contents H T U P) : Except (Mismatch T) Unit := do
  ensure (new.config.rustc = old.config.rustc) .rustc
  ensure (new.config.features = old.config.features)
    (.features new.config.features old.config.features)
  ensure (new.config.target = old.config.target) .target
  ensure (new.config.path = old.config.path) .path
  ensure (new.config.profile = old.config.profile) .profile
  ensure (new.config.rustflags = old.config.rustflags) .rustflags
  ensure (new.locals.length = old.locals.length) .localLens
  ensure (new.config.edition = old.config.edition) .edition
  (new.locals.zip old.locals).forM fun l => compareLocal l.1 l.2
  ensure (new.deps.length = old.deps.length) .numberOfDeps
  (new.deps.zip old.deps).forM fun d =>
    ensure (d.1.2.1 = d.2.2.1 ∧ d.1.2.2 = d.2.2.2) (.dep d.1.1 d.2.1)

end Compare

/-! ### Files -/

/-- What rustc made: how it was called, and the time of the dep-info once that was translated. -/
structure Output (H T : Type) where
  config : Config H
  depInfo : Option T

/-- The files that matter: their times, the files that each dep-info lists, the hash and the
contents of the last fingerprint of each unit, and what was made. A hash that can be read may
still not be one. -/
structure Disk (H T U P : Type) where
  mtime : File U P → Option T
  listed : U → List P
  short : U → Option (Option H)
  json : U → Option (Contents H T U P)
  output : U → Option (Output H T)

section Files

variable {H T U P : Type}

/-- The time of a file, if all of some other files are there and older. -/
def mtimeIfFresh [LinearOrder T] (disk : Disk H T U P) (output : File U P)
    (paths : List (File U P)) : Option T :=
  (disk.mtime output).bind fun mtime =>
    if paths.any fun path => (disk.mtime path).elim true fun mtime2 => decide (mtime ≤ mtime2)
    then none else some mtime

/-- The time of the dep-info of a unit, if all files listed there are older. -/
def depInfoMtimeIfFresh [LinearOrder T] (disk : Disk H T U P) (u : U) : Option T :=
  if (disk.mtime (.depInfo u)).isNone ∨ disk.listed u = [] then none
  else mtimeIfFresh disk (.depInfo u) ((disk.listed u).map .source)

/-- The time of a file is read again. -/
def LocalFingerprint.update (disk : Disk H T U P) :
    LocalFingerprint T U P → Option (LocalFingerprint T U P)
  | .mtimeBased _ path => (disk.mtime path).map fun mtime => .mtimeBased (some mtime) path
  | .precalculated s => some (.precalculated s)
  | .envBased key value => some (.envBased key value)

/-- Does it hold the time of a file? -/
def LocalFingerprint.isMtimeBased : LocalFingerprint T U P → Bool
  | .mtimeBased _ _ => true
  | _ => false

variable [DecidableEq U]

/-- Rustc writes its output. -/
def Disk.compile (disk : Disk H T U P) (u : U) (config : Config H) : Disk H T U P :=
  { disk with output := Function.update disk.output u (some ⟨config, none⟩) }

/-- The dep-info is translated: at some time, and it lists some files. -/
def Disk.translateDepInfo [DecidableEq P] (disk : Disk H T U P) (u : U) (time : T)
    (files : List P) : Disk H T U P :=
  { disk with
    mtime := Function.update disk.mtime (.depInfo u) (some time)
    listed := Function.update disk.listed u files
    output := Function.update disk.output u
      ((disk.output u).map fun output => { output with depInfo := some time }) }

end Files

/-! ### The units of a run -/

/-- A dependency of a unit. -/
structure Dep (U : Type) where
  pkgId : String
  externCrateName : String
  unit : U
  isCustomBuild : Bool
  isBin : Bool

/-- The units of a run and their dependencies, which do not go round in circles. -/
structure UnitGraph (H U : Type) where
  config : U → Config H
  depTargets : U → List (Dep U)
  isTest : U → Bool
  useDepInfo : U → Bool
  pkgFingerprint : U → String
  rank : U → ℕ
  rank_lt : ∀ u, ∀ d ∈ depTargets u, rank d.unit < rank u

/-- The fingerprints of a run: what the units are compiled from, and the hashes that were
noted. -/
structure Fingerprints (H T U P : Type) where
  locals : U → List (LocalFingerprint T U P)
  memoizedHash : U → Option H

namespace UnitGraph

variable {H T U P : Type} (g : UnitGraph H U)

/-- The dependencies that count for the fingerprint, in the order of their package ids. Build
scripts are tracked elsewhere, and binaries do not induce a recompile. -/
def deps (u : U) : List (Dep U) :=
  ((g.depTargets u).filter fun d => !d.isCustomBuild && !d.isBin).mergeSort
    fun a b => decide (a.pkgId ≤ b.pkgId)

theorem mem_depTargets {u : U} {d : Dep U} (hd : d ∈ g.deps u) : d ∈ g.depTargets u := by
  rw [deps, List.mem_mergeSort] at hd
  exact (List.mem_filter.mp hd).1

/-- The units that a fingerprint depends on. -/
def dag : Dag U where
  succ u := (g.deps u).map Dep.unit
  rank := g.rank
  rank_lt u x hx := by
    obtain ⟨d, hd, rfl⟩ := List.mem_map.mp hx
    exact g.rank_lt u d (g.mem_depTargets hd)

/-- The contents of a fingerprint, given the hashes of the dependencies. -/
def contents (locals : U → List (LocalFingerprint T U P)) (u : U) (hashes : List H) :
    Contents H T U P where
  config := g.config u
  deps := (g.deps u).zipWith (fun d h => (d.pkgId, d.externCrateName, h)) hashes
  locals := locals u

/-- The dependencies of a unit in the queue of jobs. Binaries are not needed to compile tests. -/
def queueDeps (u : U) : List (Dep U) :=
  (g.depTargets u).filter fun d => !(g.isTest u && d.isBin)

/-- A unit is compiled if its own job is dirty, or if one of its dependencies is compiled. -/
def dirty (own : U → Bool) (u : U) : Bool :=
  own u || (g.queueDeps u).attach.any fun d => dirty own d.1.unit
termination_by g.rank u
decreasing_by exact g.rank_lt u d.1 (List.mem_filter.mp d.2).1

end UnitGraph

section Run

variable {H T U P : Type} (hash64 : Contents H T U P → H) (g : UnitGraph H U)

/-- The fingerprints at the start of a run. -/
def calculate [LinearOrder T] (disk : Disk H T U P) : Fingerprints H T U P where
  locals u :=
    [if g.useDepInfo u then .mtimeBased (depInfoMtimeIfFresh disk u) (.depInfo u)
     else .precalculated (g.pkgFingerprint u)]
  memoizedHash _ := none

variable [DecidableEq U]

/-- The hash of a fingerprint, which is noted. -/
def hash (u : U) (fp : Fingerprints H T U P) : H × Fingerprints H T U P :=
  let r := g.dag.compute (fun u hashes => hash64 (g.contents fp.locals u hashes)) u fp.memoizedHash
  (r.1, { fp with memoizedHash := r.2 })

/-- The contents of a fingerprint, with the hashes of the dependencies. -/
def serialize (u : U) (fp : Fingerprints H T U P) : Contents H T U P × Fingerprints H T U P :=
  let r := traverse (hash hash64 g) ((g.deps u).map Dep.unit) fp
  (g.contents r.2.locals u r.1, r.2)

/-- Bring the times up to date. The hash that was noted is dropped if there are any. -/
def updateLocal (disk : Disk H T U P) (u : U) (fp : Fingerprints H T U P) :
    Option (Fingerprints H T U P) :=
  ((fp.locals u).mapM (LocalFingerprint.update disk)).map fun locals =>
    { locals := Function.update fp.locals u locals
      memoizedHash :=
        if (fp.locals u).any LocalFingerprint.isMtimeBased
        then Function.update fp.memoizedHash u none else fp.memoizedHash }

/-- The hash of the fingerprint is written. -/
def writeShort (u : U) (s : Fingerprints H T U P × Disk H T U P) :
    Fingerprints H T U P × Disk H T U P :=
  let r := hash hash64 g u s.1
  (r.2, { s.2 with short := Function.update s.2.short u (some (some r.1)) })

/-- The fingerprint itself is written. -/
def writeJson (u : U) (s : Fingerprints H T U P × Disk H T U P) :
    Fingerprints H T U P × Disk H T U P :=
  let r := serialize hash64 g u s.1
  (r.2, { s.2 with json := Function.update s.2.json u (some r.1) })

/-- The hash of the fingerprint is written, and then the fingerprint itself. -/
def writeFingerprint (u : U) (s : Fingerprints H T U P × Disk H T U P) :
    Fingerprints H T U P × Disk H T U P :=
  writeJson hash64 g u (writeShort hash64 g u s)

variable [DecidableEq H] [LinearOrder T]

/-- Compare the fingerprint of a unit with the one on disk. If the hashes differ, then it may
still be as good. -/
def compareOldFingerprint (disk : Disk H T U P) (u : U) (fp : Fingerprints H T U P) :
    Except (Mismatch T) Unit × Fingerprints H T U P :=
  match disk.short u with
  | none => (.error .noShort, fp)
  | some short =>
    -- the hash is memoized, also when the comparison fails
    let r := hash hash64 g u fp
    if short = some r.1 then (.ok (), r.2)
    else
      match disk.json u with
      | none => (.error .noJson, r.2)
      | some old =>
        let new := serialize hash64 g u r.2
        (compare new.1 old, new.2)

/-- Is the unit itself fresh? Its fingerprint has to be, and its output there. -/
def prepareTarget (disk : Disk H T U P) (u : U) (fp : Fingerprints H T U P) :
    Bool × Fingerprints H T U P :=
  let r := compareOldFingerprint hash64 g disk u fp
  (r.1.isOk && (disk.output u).isSome, r.2)

/-- Prepare units, one after the other, and see which are fresh. -/
def prepare (disk : Disk H T U P) (units : List U) : (U → Bool) × Fingerprints H T U P :=
  units.foldl
    (fun s u =>
      let r := prepareTarget hash64 g disk u s.2
      (Function.update s.1 u r.1, r.2))
    (fun _ => false, calculate g disk)

end Run

end Cargo.Compiler.Fingerprint
