import Mathlib.Data.Finmap
import Cargo.Math.Acyclic
import Cargo.Math.Iteration

/-!
# The dependency queue

`DependencyQueue` hands out the units of a build in dependency order. Units are
queued with their dependencies, `queueFinished` computes how deep below each unit
its dependents go, and from then on `dequeue` and `finish` alternate: a unit is
handed out once nothing it depends on is left, deepest first, and finishing it
releases the units waiting for it and passes its dirtiness on to them.

The hash maps and hash sets of the source are finite maps and finite sets here;
every operation that iterates over one takes the iteration order as an argument.
The assertions, indexings and `unwrap`s of the source are errors of the type
`Panic`.

## Main definitions

* `Freshness`, `DependencyQueue` — the data of the queue
* `DependencyQueue.queue`, `queueFinished`, `dequeue`, `finish` — its operations
-/

set_option autoImplicit false

namespace Cargo.Util

open Cargo.Math

/-- Whether a unit has to be rebuilt. -/
inductive Freshness
  | fresh
  | dirty
  deriving DecidableEq, Repr

/-- Anything dirty makes the combination dirty. -/
def Freshness.combine : Freshness → Freshness → Freshness
  | .fresh, other => other
  | .dirty, _ => .dirty

@[simp] theorem Freshness.combine_eq_dirty {f g : Freshness} :
    f.combine g = .dirty ↔ f = .dirty ∨ g = .dirty := by
  cases f <;> cases g <;> simp [combine]

/-- The ways in which the queue's code can panic. -/
inductive Panic
  /-- `assert_ne!(depth, IN_PROGRESS)` in `depth`. -/
  | cycleInQueue
  /-- The recursion of `depth` went deeper than there are keys. -/
  | depthOverflow
  /-- `self.depth[k]` in `dequeue`. -/
  | noDepth
  /-- `self.dep_map.remove(&key).unwrap()` in `dequeue`. -/
  | readyMissing
  /-- `assert!(self.pending.remove(key))` in `finish`. -/
  | notPending
  /-- `self.dep_map.get_mut(dep).unwrap()` in `finish`. -/
  | dependentMissing
  /-- `assert!(... .0.remove(key))` in `finish`. -/
  | dependencyMissing
  deriving DecidableEq, Repr

/-- A queue of keys of type `K`, each carrying a value of type `V`. -/
structure DependencyQueue (K V : Type) where
  /-- The keys left to build, with the dependencies each still waits for. -/
  depMap : Finmap fun _ : K => Finset K × V
  /-- For each key the keys that depend on it; fixed once everything is queued. -/
  reverseDepMap : Finmap fun _ : K => Finset K
  /-- The keys known to be dirty. -/
  dirty : Finset K
  /-- The keys handed out and not finished yet. -/
  pending : Finset K
  /-- The depth of each key; `none` is the source's `IN_PROGRESS`. -/
  depth : Finmap fun _ : K => Option ℕ

namespace DependencyQueue

variable {K V : Type} [DecidableEq K]

/-- The queue with nothing in it. -/
def new : DependencyQueue K V where
  depMap := ∅
  reverseDepMap := ∅
  dirty := ∅
  pending := ∅
  depth := ∅

/-- The dependents recorded for `key`. -/
def dependentsOf (map : Finmap fun _ : K => Finset K) (key : K) : Finset K :=
  (map.lookup key).getD ∅

/-- Record `key` as a dependent of `dep`. -/
def addDependent (map : Finmap fun _ : K => Finset K) (key dep : K) :
    Finmap fun _ : K => Finset K :=
  map.insert dep (insert key (dependentsOf map dep))

/-- Add a key with its dependencies. A key that is already queued keeps its first
freshness, value and dependencies. -/
def queue (q : DependencyQueue K V) (freshness : Freshness) (key : K) (value : V)
    (dependencies : List K) : DependencyQueue K V :=
  match q.depMap.lookup key with
  | some _ => q
  | none =>
    { q with
      dirty := if freshness = .dirty then insert key q.dirty else q.dirty
      reverseDepMap := dependencies.foldl (fun map dep => addDependent map key dep) q.reverseDepMap
      depMap := q.depMap.insert key (dependencies.toFinset, value) }

/-- Write through the reference to the value of `key` that `queue` returns. -/
def modifyValue (q : DependencyQueue K V) (key : K) (f : V → V) : DependencyQueue K V :=
  match q.depMap.lookup key with
  | some (deps, value) => { q with depMap := q.depMap.insert key (deps, f value) }
  | none => q

/-- The depth of `key`: one more than the largest depth among its dependents. The
memo table `results` marks the keys whose computation is under way. -/
def depthOf (ho : HashOrder K) (map : Finmap fun _ : K => Finset K) :
    ℕ → K → Finmap (fun _ : K => Option ℕ) →
      Except Panic (ℕ × Finmap fun _ : K => Option ℕ)
  | 0, _, _ => .error .depthOverflow
  | fuel + 1, key, results =>
    match results.lookup key with
    | some (some depth) => .ok (depth, results)
    | some none => .error .cycleInQueue
    | none => do
      -- The state of the loop is the largest depth so far and the table.
      let state ← ((ho.of key).enum (dependentsOf map key)).foldlM
        (fun state dep => do
          let visited ← depthOf ho map fuel dep state.2
          .ok (max state.1 visited.1, visited.2))
        (0, results.insert key none)
      .ok (1 + state.1, state.2.insert key (some (1 + state.1)))

/-- Everything is queued: compute the depth of every key. -/
def queueFinished (ho : HashOrder K) (q : DependencyQueue K V) :
    Except Panic (DependencyQueue K V) := do
  let depth ← (ho.enum q.depMap.keys).foldlM
    (fun results key => do
      let visited ← depthOf ho q.reverseDepMap (q.depMap.keys.card + 1) key results
      .ok visited.2)
    q.depth
  .ok { q with depth }

/-- The keys that wait for nothing, in iteration order. -/
def readyKeys (ho : HashOrder K) (q : DependencyQueue K V) : List K :=
  (ho.enum q.depMap.keys).filter fun key =>
    match q.depMap.lookup key with
    | some (deps, _) => decide (deps = ∅)
    | none => false

/-- The deeper of the best key so far and `key`; the latter if they are equally deep. -/
def deeper (depth : Finmap fun _ : K => Option ℕ) (best : Option (K × ℕ)) (key : K) :
    Except Panic (Option (K × ℕ)) :=
  match depth.lookup key with
  | some (some d) =>
    match best with
    | some (b, e) => .ok (some (if e ≤ d then (key, d) else (b, e)))
    | none => .ok (some (key, d))
  | _ => .error .noDepth

/-- `Iterator::max_by_key` with the depth as key: the last of the deepest. -/
def maxByDepth (depth : Finmap fun _ : K => Option ℕ) (keys : List K) :
    Except Panic (Option (K × ℕ)) :=
  keys.foldlM (deeper depth) none

/-- Hand out a key that waits for nothing, one of the deepest. -/
def dequeue (ho : HashOrder K) (q : DependencyQueue K V) :
    Except Panic (Option (Freshness × K × V) × DependencyQueue K V) := do
  match ← maxByDepth q.depth (q.readyKeys ho) with
  | none => .ok (none, q)
  | some (key, _) =>
    match q.depMap.lookup key with
    | none => .error .readyMissing
    | some (_, data) =>
      let freshness := if key ∈ q.dirty then .dirty else .fresh
      .ok (some (freshness, key, data),
        { q with depMap := q.depMap.erase key, pending := insert key q.pending })

/-- Nothing is left and nothing is under way. -/
def isEmpty (q : DependencyQueue K V) : Bool :=
  decide (q.depMap.keys = ∅ ∧ q.pending = ∅)

/-- Release one dependent of a finished key. -/
def release (key : K) (freshness : Freshness) (q : DependencyQueue K V) (dep : K) :
    Except Panic (DependencyQueue K V) :=
  match q.depMap.lookup dep with
  | none => .error .dependentMissing
  | some (deps, value) =>
    if key ∈ deps then
      .ok { q with
        dirty := if freshness = .dirty then insert dep q.dirty else q.dirty
        depMap := q.depMap.insert dep (deps.erase key, value) }
    else .error .dependencyMissing

/-- A key handed out before has been built. -/
def finish (ho : HashOrder K) (q : DependencyQueue K V) (key : K) (freshness : Freshness) :
    Except Panic (DependencyQueue K V) :=
  if key ∈ q.pending then
    ((ho.of key).enum (dependentsOf q.reverseDepMap key)).foldlM (release key freshness)
      { q with pending := q.pending.erase key }
  else .error .notPending

/-- The value carried by a key that is still queued. -/
def valueOf (q : DependencyQueue K V) (key : K) : Option V :=
  (q.depMap.lookup key).map Prod.snd

end DependencyQueue

end Cargo.Util
