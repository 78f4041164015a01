import Cargo.Resolver.ConflictCache

/-!
# The search of the resolver

`activate_deps_loop` activates the roots and then one dependency after the other, each
with the best candidate that can be activated, and goes back to an earlier choice when a
dependency runs out of candidates. Its two nested loops are a machine here: a state is
either at the top of the outer loop, about to pick a dependency, or at the top of the
inner loop, about to pick a candidate for it, or the search is over.

Two of the loop's variables live longer than one would expect, and they do so here too:
`justHere` (`just_here_for_the_error_messages`) is not restored when the search goes back
to an earlier choice, and the context of a failed activation is thrown away only if
another candidate is left.

## Main definitions

* `activate` — activate a candidate
* `RemainingCandidates.next`, `findCandidate` — the next candidate, or an earlier choice
* `Machine`, `step` — the states of the search and its steps
-/

set_option autoImplicit false

namespace Cargo.Resolver

open Cargo.Core Cargo.Math

variable {S R : Type}

/-- What the search is run against: the registry, and the orders in which the heap and the
hash maps yield their elements. Each map that is made in the search has an order of its own. -/
structure Env (S R : Type) where
  registry : RegistryQueryer S R
  heap : FrameHeap S R
  names : Context S R → PackageId S → SetOrder String
  ids : ConflictCache S R → SetOrder (PackageId S)

/-! ### Activation -/

/-- The outcome of `activate` when it is not fatal. -/
inductive Activation (S R : Type)
  /-- Everything asked of the package is there already. -/
  | already
  | frame (frame : DepsFrame S R)
  | conflict (id : PackageId S) (reason : ConflictReason)

variable [DecidableEq S]

/-- The second half of `activate`: find the dependencies of `candidate`. -/
def expand (env : Env S R) (cx : Context S R) (parent : Option (Summary S R))
    (candidate : Summary S R) (method : Method) :
    Except (Failure S R) (Context S R × Activation S R) := do
  match ← cx.buildDeps (env.names cx candidate.packageId) env.registry parent candidate method with
  | (cx, .error (id, reason)) => .ok (cx, .conflict id reason)
  | (cx, .ok deps) =>
    .ok (cx, .frame
      { parent := candidate, justForErrorMessages := false, remainingSiblings := deps })

/-- Note the edge from the parent to the candidate. -/
def Context.link (cx : Context S R) (parent : Option (Summary S R × Dependency S R))
    (candidate : Candidate S R) : Context S R :=
  match parent with
  | none => cx
  | some (p, dep) =>
    { cx with
      resolveGraph :=
        GraphNode.link p.packageId candidate.summary.packageId dep :: cx.resolveGraph }

/-- Activate a candidate and return the frame of its dependencies. -/
def activate (env : Env S R) (cx : Context S R) (parent : Option (Summary S R × Dependency S R))
    (candidate : Candidate S R) (method : Method) :
    Except (Failure S R) (Context S R × Activation S R) := do
  -- the edge from the parent is noted whatever happens next
  let (activated, cx) ← (cx.link parent candidate).flagActivated candidate.summary method
  match candidate.replace with
  -- the candidate itself stays without dependencies; what replaces it has them
  | some replace =>
    let cx := { cx with resolveReplacements :=
      (candidate.summary.packageId, replace.packageId) :: cx.resolveReplacements }
    let (replaceActivated, cx) ← cx.flagActivated replace method
    if replaceActivated && activated then .ok (cx, .already)
    else expand env cx (parent.map Prod.fst) replace method
  | none =>
    if activated then .ok (cx, .already)
    else expand env cx (parent.map Prod.fst) candidate.summary method

/-! ### Candidates -/

/-- The candidates for a dependency that were not tried; `hasAnother` was taken from the
list and found valid already. -/
structure RemainingCandidates (S R : Type) where
  remaining : List (Candidate S R)
  hasAnother : Option (Candidate S R)

/-- The active package that keeps a candidate from being activated, if there is one. -/
def refusal (cx : Context S R) (dep : Dependency S R) (b : Candidate S R) :
    Option (PackageId S × ConflictReason) :=
  -- the first active version that is compatible decides
  let bySemver :=
    match (cx.prevActive dep).find?
        (fun a => compatible a.packageId.version b.summary.packageId.version) with
    | some a => if a.packageId ≠ b.summary.packageId then some (a.packageId, .semver) else none
    | none => none
  -- a taken `links` value is reported first
  match b.summary.links with
  | none => bySemver
  | some link =>
    match cx.links.lookup link with
    | some a => if a ≠ b.summary.packageId then some (a, .links link) else bySemver
    | none => bySemver

/-- `entry(id).or_insert(reason)`. -/
def Conflicts.orInsert (con : Conflicts S) (id : PackageId S) (reason : ConflictReason) :
    Conflicts S :=
  if id ∈ con then con else con.insert id reason

namespace RemainingCandidates

/-- Nothing was tried. -/
def new (candidates : List (Candidate S R)) : RemainingCandidates S R := ⟨candidates, none⟩

/-- The loop of `next`. -/
def nextLoop (cx : Context S R) (dep : Dependency S R) :
    List (Candidate S R) → Option (Candidate S R) → Conflicts S →
      Option (Candidate S R × Bool) × RemainingCandidates S R × Conflicts S
  | [], hasAnother, con => (hasAnother.map fun r => (r, false), ⟨[], none⟩, con)
  | b :: rest, hasAnother, con =>
    match refusal cx dep b with
    | some (id, reason) => nextLoop cx dep rest hasAnother (con.orInsert id reason)
    | none =>
      match hasAnother with
      | some r => (some (r, true), ⟨rest, some b⟩, con)
      | none => nextLoop cx dep rest (some b) con

/-- The next valid candidate and whether another one follows; the packages that ruled
candidates out are added to the conflicts. -/
def next (self : RemainingCandidates S R) (con : Conflicts S) (cx : Context S R)
    (dep : Dependency S R) :
    Option (Candidate S R × Bool) × RemainingCandidates S R × Conflicts S :=
  nextLoop cx dep self.remaining self.hasAnother con

end RemainingCandidates

/-- A choice to which the search can go back. -/
structure BacktrackFrame (S R : Type) where
  context : Context S R
  remainingDeps : RemainingDeps S R
  remainingCandidates : RemainingCandidates S R
  parent : Summary S R
  dep : Dependency S R
  features : List String
  conflicting : Conflicts S

/-- The newest choice that has a candidate left and might cure the failure, with the
choices below it. -/
def findCandidate (parent : Summary S R) (backtracked : Bool) (con : Conflicts S) :
    List (BacktrackFrame S R) →
      Option (Candidate S R × Bool × BacktrackFrame S R × List (BacktrackFrame S R))
  | [] => none
  | frame :: stack =>
    match frame.remainingCandidates.next frame.conflicting frame.context frame.dep with
    | (none, _, _) => findCandidate parent backtracked con stack
    | (some (candidate, hasAnother), remainingCandidates, conflicting) =>
      -- all that is to blame is active in this frame too, so that it would fail again
      if !backtracked && frame.context.isConflicting (some parent.packageId) con then
        findCandidate parent backtracked con stack
      else
        some (candidate, hasAnother, { frame with remainingCandidates, conflicting }, stack)

/-! ### The loops -/

/-- The variables of the search that outlive one dependency. The newest choice is the
first of the stack. -/
structure Search (S R : Type) where
  cx : Context S R
  backtrackStack : List (BacktrackFrame S R)
  remainingDeps : RemainingDeps S R
  past : ConflictCache S R

/-- The variables of the inner loop. -/
structure Attempt (S R : Type) where
  parent : Summary S R
  dep : Dependency S R
  features : List String
  /-- `just_here_for_the_error_messages`. -/
  justHere : Bool
  remainingCandidates : RemainingCandidates S R
  /-- `conflicting_activations`. -/
  conflicting : Conflicts S
  backtracked : Bool

/-- A state of the search. -/
inductive Machine (S R : Type)
  /-- At the top of the outer loop. -/
  | outer (s : Search S R)
  /-- At the top of the inner loop. -/
  | inner (s : Search S R) (a : Attempt S R)
  /-- The search is over. -/
  | done (result : Except (Failure S R) (Context S R))

/-- What a candidate for `dep` is asked for. -/
def Attempt.method (a : Attempt S R) : Method :=
  .required false a.features false a.dep.defaultFeatures

/-- The choice to go back to if this candidate fails. -/
def Search.backtrackFrame (s : Search S R) (a : Attempt S R) : BacktrackFrame S R where
  context := s.cx
  remainingDeps := s.remainingDeps
  remainingCandidates := a.remainingCandidates
  parent := a.parent
  dep := a.dep
  features := a.features
  conflicting := a.conflicting

/-- The stack with the current choice on top, if it has another candidate. -/
def Search.pushBacktrack (s : Search S R) (a : Attempt S R) (hasAnother : Bool)
    (stack : List (BacktrackFrame S R)) : List (BacktrackFrame S R) :=
  if hasAnother then s.backtrackFrame a :: stack else stack

/-- A candidate failed: try the next one, in the old context if there is one. -/
def fail (s : Search S R) (a : Attempt S R) (hasAnother : Bool) (cx : Context S R) :
    Machine S R :=
  .inner { s with cx := if hasAnother then s.cx else cx } a

/-- `extend` with the conflicts of another dependency, the candidate itself left out. -/
def Conflicts.extend (con other : Conflicts S) (pid : PackageId S) : Conflicts S :=
  other.erase pid ∪ con

variable [DecidableEq R]

/-- A past conflict of one of the candidate's own dependencies. -/
def ownConflict (past : ConflictCache S R) (cx : Context S R) (frame : DepsFrame S R) :
    Option (Conflicts S) :=
  frame.remainingSiblings.findSome? fun info => past.conflicting cx info.dep

/-- A past conflict, naming the candidate, of a dependency that waits to be activated,
with the parent of that dependency. -/
def relatedConflict (past : ConflictCache S R) (cx : Context S R) (pid : PackageId S)
    (remainingDeps : RemainingDeps S R) : Option (PackageId S × Conflicts S) :=
  match past.dependenciesConflictingWith pid with
  | none => none
  | some known =>
    remainingDeps.pending.findSome? fun (otherParent, info) =>
      if info.dep ∈ known then
        (past.findConflicting cx info.dep fun con => decide (pid ∈ con)).map fun con =>
          (otherParent.packageId, con)
      else none

/-- The conflicts after the checks of a new frame, and whether it is known to fail. -/
def knownConflict (s : Search S R) (a : Attempt S R) (cx : Context S R) (pid : PackageId S)
    (frame : DepsFrame S R) : Conflicts S × Bool :=
  if a.justHere then (a.conflicting, true)
  else
    match ownConflict s.past cx frame with
    | some con => (a.conflicting.extend con pid, true)
    | none =>
      match relatedConflict s.past cx pid s.remainingDeps with
      | some (otherParent, con) =>
        ((a.conflicting.extend con pid).insert otherParent ((con.lookup pid).getD .semver), true)
      | none => (a.conflicting, false)

/-- The candidate was activated and its dependencies are known: push them, unless it is
known that the candidate will fail. -/
def pushFrame (env : Env S R) (s : Search S R) (a : Attempt S R) (hasAnother : Bool)
    (cx : Context S R) (pid : PackageId S) (frame : DepsFrame S R) : Machine S R :=
  let (conflicting, hasPastConflictingDep) := knownConflict s a cx pid frame
  -- the last candidate is tried all the same if the user will see the error
  let activateForErrorMessage := hasPastConflictingDep && !hasAnother &&
    (a.justHere || (findCandidate a.parent a.backtracked conflicting s.backtrackStack).isNone)
  -- no earlier choice can help then
  let stack := if activateForErrorMessage then [] else s.backtrackStack
  let frame := { frame with justForErrorMessages := hasPastConflictingDep }
  if !hasPastConflictingDep || activateForErrorMessage then
    .outer { s with
      cx
      backtrackStack := s.pushBacktrack a hasAnother stack
      remainingDeps := env.heap.push frame s.remainingDeps }
  else fail s { a with conflicting } hasAnother cx

/-- Try a candidate. -/
def tryCandidate (env : Env S R) (s : Search S R) (a : Attempt S R) (candidate : Candidate S R)
    (hasAnother : Bool) : Machine S R :=
  -- only here for the error message: go on to the last candidate
  if a.justHere && !a.backtracked && hasAnother then .inner s a
  else
    match activate env s.cx (some (a.parent, a.dep)) candidate a.method with
    -- errors that are fatal, from which the search does not go back
    | .error e => .done (.error e)
    | .ok (cx, .already) =>
      .outer { s with cx, backtrackStack := s.pushBacktrack a hasAnother s.backtrackStack }
    | .ok (cx, .frame frame) =>
      pushFrame env s a hasAnother cx candidate.summary.packageId frame
    | .ok (cx, .conflict id reason) =>
      fail s { a with conflicting := a.conflicting.insert id reason } hasAnother cx

/-- No candidate is left: note the conflict and go back to an earlier choice. -/
def backtrack (env : Env S R) (s : Search S R) (a : Attempt S R) : Machine S R :=
  -- after going back, not all conflicts of the choice are known
  let past :=
    if !a.justHere && !a.backtracked then s.past.insert (env.ids s.past) a.dep a.conflicting
    else s.past
  match findCandidate a.parent a.backtracked a.conflicting s.backtrackStack with
  | none => .done (.error (.activation a.parent.packageId a.dep a.conflicting))
  | some (candidate, hasAnother, frame, stack) =>
    -- the loop goes on with the restored choice, and no longer notes its conflicts
    tryCandidate env
      { cx := frame.context, backtrackStack := stack, remainingDeps := frame.remainingDeps, past }
      { parent := frame.parent
        dep := frame.dep
        features := frame.features
        justHere := a.justHere
        remainingCandidates := frame.remainingCandidates
        conflicting := frame.conflicting
        backtracked := true }
      candidate hasAnother

/-- One turn of the inner loop. -/
def innerStep (env : Env S R) (s : Search S R) (a : Attempt S R) : Machine S R :=
  match a.remainingCandidates.next a.conflicting s.cx a.dep with
  | (some (candidate, hasAnother), remainingCandidates, conflicting) =>
    tryCandidate env s { a with remainingCandidates, conflicting } candidate hasAnother
  | (none, remainingCandidates, conflicting) =>
    backtrack env s { a with remainingCandidates, conflicting }

/-- The top of the outer loop. -/
def outerStep (env : Env S R) (s : Search S R) : Machine S R :=
  match popMostConstrained env.heap s.remainingDeps with
  | none => .done (.ok s.cx)
  | some (just, parent, info, remainingDeps) =>
    .inner { s with remainingDeps }
      { parent
        dep := info.dep
        features := info.features
        -- the frame was pushed for error messages, and this dependency is known to fail
        justHere := just && (s.past.conflicting s.cx info.dep).isSome
        remainingCandidates := .new info.candidates
        conflicting := ∅
        backtracked := false }

/-- One step of the search. -/
def step (env : Env S R) : Machine S R → Machine S R
  | .outer s => outerStep env s
  | .inner s a => innerStep env s a
  | .done result => .done result

omit [DecidableEq R] in
/-- Activate one root. -/
def activateRoot (env : Env S R) (state : Context S R × RemainingDeps S R)
    (root : Summary S R × Method) : Except (Failure S R) (Context S R × RemainingDeps S R) := do
  match ← activate env state.1 none ⟨root.1, none⟩ root.2 with
  | (cx, .already) => .ok (cx, state.2)
  | (cx, .frame frame) => .ok (cx, env.heap.push frame state.2)
  | (_, .conflict _ _) => .error .badActivate

/-- The state in which the main loop is entered. -/
def start (env : Env S R) (roots : List (Summary S R × Method)) : Machine S R :=
  match roots.foldlM (activateRoot env) (Context.new, []) with
  | .error e => .done (.error e)
  | .ok (cx, remainingDeps) =>
    .outer { cx, backtrackStack := [], remainingDeps, past := ConflictCache.new }

/-- Whether the search is over with a context that passes the check. -/
def Machine.foundWith (check : Context S R → Bool) : Machine S R → Bool
  | .done (.ok cx) => check cx
  | _ => false

omit [DecidableEq S] [DecidableEq R] in
theorem Machine.exists_of_foundWith {check : Context S R → Bool} {m : Machine S R}
    (h : m.foundWith check = true) : ∃ cx, m = .done (.ok cx) ∧ check cx = true := by
  match m with
  | .outer _ => cases h
  | .inner _ _ => cases h
  | .done (.error _) => cases h
  | .done (.ok cx) => exact ⟨cx, rfl, h⟩

/-- Whether the search is over with the activation error. -/
def Machine.gaveUp : Machine S R → Bool
  | .done (.error (.activation _ _ _)) => true
  | _ => false

omit [DecidableEq S] [DecidableEq R] in
theorem Machine.exists_of_gaveUp {m : Machine S R} (h : m.gaveUp = true) :
    ∃ p d con, m = .done (.error (.activation p d con)) := by
  unfold Machine.gaveUp at h
  split at h
  · rename_i p d con
    exact ⟨p, d, con, rfl⟩
  · cases h

/-- The states that the search goes through. -/
def Reaches (env : Env S R) (roots : List (Summary S R × Method)) (m : Machine S R) : Prop :=
  ∃ n, (step env)^[n] (start env roots) = m

/-- `activate_deps_loop` returns `result`. -/
def Returns (env : Env S R) (roots : List (Summary S R × Method))
    (result : Except (Failure S R) (Context S R)) : Prop :=
  Reaches env roots (.done result)

end Cargo.Resolver
