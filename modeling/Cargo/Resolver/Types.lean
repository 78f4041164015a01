import Cargo.Core.Summary
import Cargo.Math.Heap

/-!
# The types of the resolver

What a package is asked for, the candidates for a dependency, the reasons why a candidate
is refused, and the heap of dependencies that are still to be activated.

A registry is a function here: it answers the same question in the same way, so the cache
of `RegistryQueryer` changes nothing and is left out.

## Main definitions

* `Method`, `Candidate`, `ConflictReason`, `Failure`
* `RegistryQueryer.query` — the candidates for a dependency, overrides applied, best first
* `DepsFrame`, `popMostConstrained` — the dependencies to activate and the next of them
-/

set_option autoImplicit false

namespace Cargo.Resolver

open Cargo.Core Cargo.Math

variable {S R : Type}

/-- What a package is activated with. -/
inductive Method
  /-- The same as `required true _ true _`. -/
  | everything
  | required (devDeps : Bool) (features : List String) (allFeatures usesDefaultFeatures : Bool)
  deriving DecidableEq, Repr

/-- Whether the development dependencies are wanted. -/
def Method.devDeps : Method → Bool
  | .everything => true
  | .required devDeps _ _ _ => devDeps

/-- The features that a method asks for by name. -/
def Method.requested : Method → List String
  | .everything => []
  | .required _ requested _ _ => requested

/-- A package that may fulfil a dependency, with the package that replaces it. -/
structure Candidate (S R : Type) where
  summary : Summary S R
  replace : Option (Summary S R)

/-- Why a candidate was refused. -/
inductive ConflictReason
  | semver
  | links (link : String)
  | missingFeatures (features : String)
  deriving DecidableEq, Repr

/-- The packages to blame for a dependency that cannot be activated. -/
abbrev Conflicts (S : Type) := Finmap fun _ : PackageId S => ConflictReason

/-- The ways in which resolution ends without a graph. -/
inductive Failure (S R : Type)
  /-- An error of the registry. -/
  | registry (message : String)
  /-- "no matching package for override". -/
  | noOverride (dep : Dependency S R)
  /-- "the replacement specification matched multiple packages". -/
  | multipleOverrides (ids : List (PackageId S))
  /-- "overlapping replacement specifications found". -/
  | overlappingOverrides (id : PackageId S)
  /-- `assert_eq!` on the name and version of an override. -/
  | overrideMismatch (id : PackageId S)
  /-- "Attempting to resolve a with more then one crate with the links". -/
  | duplicateLinks (link : String)
  /-- "feature names may not contain slashes". -/
  | slashInFeature (feature : String)
  /-- "Package does not have these features". -/
  | noSuchFeatures (id : PackageId S) (features : String)
  /-- "Cyclic feature dependency: feature depends on itself". -/
  | cyclicFeature (feature : String)
  /-- `expect("must be a valid feature")`. -/
  | invalidFeature (feature : String)
  /-- The recursion over features went deeper than there are features. -/
  | featureDepth
  /-- `panic!("bad error from activate")`. -/
  | badActivate
  /-- The activation error: `dep` of `parent` cannot be activated. -/
  | activation (parent : PackageId S) (dep : Dependency S R) (conflicts : Conflicts S)

/-! ### Candidates -/

/-- One entry of `[replace]`: the packages it matches and what to use for them. -/
structure Replacement (S R : Type) where
  spec : PackageId S → Bool
  dep : Dependency S R

/-- Where candidates come from. -/
structure RegistryQueryer (S R : Type) where
  registry : Dependency S R → Except String (List (Summary S R))
  replacements : List (Replacement S R)
  tryToUse : Finset (PackageId S)
  minimalVersions : Bool

namespace RegistryQueryer

variable [DecidableEq S]

/-- The package that replaces `summary`, if any. -/
def override (self : RegistryQueryer S R) (summary : Summary S R) :
    Except (Failure S R) (Option (Summary S R)) :=
  match self.replacements.filter (·.spec summary.packageId) with
  | [] => .ok none
  | replacement :: others =>
    match self.registry replacement.dep with
    | .error message => .error (.registry message)
    | .ok [] => .error (.noOverride replacement.dep)
    -- one summary is expected, of the same name and version, and one replacement
    | .ok (s :: more) =>
      if more ≠ [] then .error (.multipleOverrides ((s :: more).map (·.packageId)))
      else if s.packageId.version ≠ summary.packageId.version ∨
          s.packageId.name ≠ summary.packageId.name then
        .error (.overrideMismatch s.packageId)
      else if others ≠ [] then .error (.overlappingOverrides summary.packageId)
      -- a package does not replace itself
      else if s.packageId.sourceId = summary.packageId.sourceId then .ok none
      else .ok (some s)

/-- Without `[replace]` entries nothing is replaced. -/
theorem override_of_nil {self : RegistryQueryer S R} (h : self.replacements = [])
    (summary : Summary S R) : self.override summary = .ok none := by
  simp [override, h]

/-- The order in which candidates are tried: those of the lock file first, then by
version. -/
def cmp (self : RegistryQueryer S R) (a b : Candidate S R) : Ordering :=
  (compare (decide (a.summary.packageId ∈ self.tryToUse))
      (decide (b.summary.packageId ∈ self.tryToUse))).swap.then <|
    if self.minimalVersions then a.summary.packageId.version.cmp b.summary.packageId.version
    else (a.summary.packageId.version.cmp b.summary.packageId.version).swap

/-- The candidates for a dependency, best first. -/
def query (self : RegistryQueryer S R) (dep : Dependency S R) :
    Except (Failure S R) (List (Candidate S R)) := do
  let summaries ← (self.registry dep).mapError .registry
  let candidates ← summaries.mapM fun summary => do
    let replace ← self.override summary
    .ok { summary, replace : Candidate S R }
  .ok (candidates.insertionSort fun a b => self.cmp a b ≠ .gt)

/-- Every candidate is an answer of the registry with what replaces it. -/
theorem mem_query {self : RegistryQueryer S R} {dep : Dependency S R}
    {candidates : List (Candidate S R)} (h : self.query dep = .ok candidates) {c : Candidate S R}
    (hc : c ∈ candidates) :
    ∃ summaries, self.registry dep = .ok summaries ∧ c.summary ∈ summaries ∧
      self.override c.summary = .ok c.replace := by
  obtain ⟨summaries, hsummaries, h⟩ := bind_eq_ok.mp h
  obtain ⟨list, hlist, h⟩ := bind_eq_ok.mp h
  cases h
  rw [List.mem_insertionSort, mem_of_mapM_ok hlist] at hc
  obtain ⟨s, hs, hc⟩ := hc
  obtain ⟨replace, hreplace, hc⟩ := bind_eq_ok.mp hc
  cases hc
  refine ⟨summaries, ?_, hs, hreplace⟩
  cases hregistry : self.registry dep with
  | error e =>
    rw [hregistry] at hsummaries
    cases hsummaries
  | ok l =>
    rw [hregistry] at hsummaries
    cases hsummaries
    rfl

/-- Every answer of the registry is a candidate. -/
theorem exists_candidate {self : RegistryQueryer S R} {dep : Dependency S R}
    {candidates : List (Candidate S R)} (h : self.query dep = .ok candidates) {q : Summary S R}
    (hq : ∃ summaries, self.registry dep = .ok summaries ∧ q ∈ summaries) :
    ∃ c ∈ candidates, c.summary = q := by
  obtain ⟨summaries, hsummaries, hmem⟩ := hq
  obtain ⟨summaries', hsummaries', h⟩ := bind_eq_ok.mp h
  rw [hsummaries] at hsummaries'
  cases hsummaries'
  obtain ⟨list, hlist, h⟩ := bind_eq_ok.mp h
  cases h
  obtain ⟨c, hc, hbody⟩ := exists_of_mapM_ok hlist hmem
  obtain ⟨replace, -, hbody⟩ := bind_eq_ok.mp hbody
  cases hbody
  exact ⟨_, List.mem_insertionSort _ |>.mpr hc, rfl⟩

/-- The registry that answers with the packages of a list that fulfil the question. -/
def ofList [VersionReq R] (packages : List (Summary S R)) : RegistryQueryer S R where
  registry dep := .ok (packages.filter fun s => decide (s.packageId.slot = dep.slot) &&
    VersionReq.accepts dep.req s.packageId.version)
  replacements := []
  tryToUse := ∅
  minimalVersions := false

end RegistryQueryer

/-! ### Dependencies to activate -/

/-- A dependency with its candidates and the features asked of it. -/
structure DepInfo (S R : Type) where
  dep : Dependency S R
  candidates : List (Candidate S R)
  features : List String

/-- The dependencies of one activated package that are still to be activated. -/
structure DepsFrame (S R : Type) where
  parent : Summary S R
  justForErrorMessages : Bool
  remainingSiblings : List (DepInfo S R)

namespace DepsFrame

/-- The number of candidates of the next sibling, which has the fewest. -/
def minCandidates (frame : DepsFrame S R) : ℕ :=
  match frame.remainingSiblings with
  | [] => 0
  | info :: _ => info.candidates.length

/-- `a` is not above `b` in the heap: frames for error messages come first, then those
with the fewest candidates. -/
def le (a b : DepsFrame S R) : Prop :=
  (a.justForErrorMessages = false ∧ b.justForErrorMessages = true) ∨
    (a.justForErrorMessages = b.justForErrorMessages ∧ b.minCandidates ≤ a.minCandidates)

instance : DecidableRel (le : DepsFrame S R → DepsFrame S R → Prop) := fun _ _ =>
  inferInstanceAs (Decidable (_ ∨ _))

theorem le_trans (a b c : DepsFrame S R) (hab : le a b) (hbc : le b c) : le a c := by
  unfold le at *
  grind

theorem le_total (a b : DepsFrame S R) : le a b ∨ le b a := by
  unfold le
  grind

/-- The dependencies of the frame with their parent. -/
def flatten (frame : DepsFrame S R) : List (Summary S R × DepInfo S R) :=
  frame.remainingSiblings.map fun info => (frame.parent, info)

end DepsFrame

/-- The heap of frames. -/
abbrev RemainingDeps (S R : Type) := List (DepsFrame S R)

/-- The operations of that heap. -/
abbrev FrameHeap (S R : Type) := HeapOps (DepsFrame S R) DepsFrame.le

/-- `RemainingDeps::iter`: all that is to be activated, in the heap's own order. -/
def RemainingDeps.pending (frames : RemainingDeps S R) : List (Summary S R × DepInfo S R) :=
  frames.flatMap DepsFrame.flatten

/-- The loop of `pop_most_constrained`: drop the frames that are done until one has a
sibling left. -/
def popLoop (heap : FrameHeap S R) :
    ℕ → RemainingDeps S R → Option (Bool × Summary S R × DepInfo S R × RemainingDeps S R)
  | 0, _ => none
  | fuel + 1, frames =>
    match heap.pop frames with
    | none => none
    | some (frame, rest) =>
      match frame.remainingSiblings with
      | [] => popLoop heap fuel rest
      | info :: infos =>
        some (frame.justForErrorMessages, frame.parent, info,
          heap.push { frame with remainingSiblings := infos } rest)

/-- The next dependency to activate, whether it is activated for an error message only,
and the heap without it. -/
def popMostConstrained (heap : FrameHeap S R) (frames : RemainingDeps S R) :
    Option (Bool × Summary S R × DepInfo S R × RemainingDeps S R) :=
  popLoop heap frames.length frames

/-- The heap that the development evaluates examples with. -/
def FrameHeap.simple : FrameHeap S R :=
  HeapOps.selection DepsFrame.le DepsFrame.le_trans DepsFrame.le_total

/-- The nodes and edges of the graph in the order in which they came about. -/
inductive GraphNode (S R : Type)
  | add (id : PackageId S)
  | link (parent child : PackageId S) (dep : Dependency S R)

/-! ### What the heap hands out -/

theorem perm_pending {frames frames' : RemainingDeps S R} (h : frames.Perm frames') :
    frames.pending.Perm frames'.pending := h.flatMap_right _

@[simp] theorem pending_cons (frame : DepsFrame S R) (frames : RemainingDeps S R) :
    RemainingDeps.pending (frame :: frames) = frame.flatten ++ frames.pending := rfl

theorem popLoop_eq_none {heap : FrameHeap S R} {fuel : ℕ} {frames : RemainingDeps S R}
    (hfuel : frames.length ≤ fuel) (h : popLoop heap fuel frames = none) :
    frames.pending = [] := by
  induction fuel generalizing frames with
  | zero =>
    obtain rfl : frames = [] := List.length_eq_zero_iff.mp (by omega)
    rfl
  | succ fuel ih =>
    rw [popLoop] at h
    split at h
    · rename_i hpop
      rw [heap.pop_eq_none frames hpop]
      rfl
    · rename_i frame rest hpop
      have hperm := heap.pop_perm _ _ _ hpop
      have hlength := hperm.length_eq
      rw [List.length_cons] at hlength
      split at h
      · rename_i hdone
        have hpending := perm_pending hperm
        rw [pending_cons, ih (by omega) h, DepsFrame.flatten, hdone] at hpending
        exact List.perm_nil.mp hpending
      · cases h

/-- When nothing is handed out, nothing is left to activate. -/
theorem popMostConstrained_eq_none {heap : FrameHeap S R} {frames : RemainingDeps S R}
    (h : popMostConstrained heap frames = none) : frames.pending = [] :=
  popLoop_eq_none le_rfl h

theorem popLoop_eq_some {heap : FrameHeap S R} {fuel : ℕ} {frames frames' : RemainingDeps S R}
    {just : Bool} {parent : Summary S R} {info : DepInfo S R}
    (h : popLoop heap fuel frames = some (just, parent, info, frames')) :
    frames.pending.Perm ((parent, info) :: frames'.pending) ∧
      (∃ frame ∈ frames, frame.justForErrorMessages = just) ∧
      ∀ frame' ∈ frames', ∃ frame ∈ frames,
        frame.justForErrorMessages = frame'.justForErrorMessages := by
  induction fuel generalizing frames with
  | zero => cases h
  | succ fuel ih =>
    rw [popLoop] at h
    split at h
    · cases h
    · rename_i frame rest hpop
      have hperm := heap.pop_perm _ _ _ hpop
      have hpending := perm_pending hperm
      split at h
      · rename_i hdone
        -- a frame with nothing left is dropped
        obtain ⟨hrest, ⟨flagged, hflagged, hjust⟩, hflags⟩ := ih h
        rw [pending_cons, DepsFrame.flatten, hdone] at hpending
        refine ⟨hpending.trans hrest, ⟨flagged, hperm.mem_iff.mpr (by simp [hflagged]), hjust⟩, ?_⟩
        intro frame' hframe'
        obtain ⟨f, hf, hff⟩ := hflags frame' hframe'
        exact ⟨f, hperm.mem_iff.mpr (by simp [hf]), hff⟩
      · rename_i info' infos hsiblings
        cases h
        have hpush := heap.push_perm { frame with remainingSiblings := infos } rest
        refine ⟨?_, ⟨frame, hperm.mem_iff.mpr (by simp), rfl⟩, ?_⟩
        · refine hpending.trans ?_
          have hflatten : frame.flatten = (frame.parent, info) ::
              { frame with remainingSiblings := infos : DepsFrame S R }.flatten := by
            simp [DepsFrame.flatten, hsiblings]
          rw [pending_cons, hflatten, List.cons_append]
          refine List.Perm.cons _ ?_
          have := perm_pending hpush
          rw [pending_cons] at this
          exact this.symm
        · intro frame' hframe'
          rcases List.mem_cons.mp (hpush.mem_iff.mp hframe') with rfl | hmem
          · exact ⟨frame, hperm.mem_iff.mpr (by simp), rfl⟩
          · exact ⟨frame', hperm.mem_iff.mpr (by simp [hmem]), rfl⟩

/-- The heap hands out one of the dependencies to activate and keeps the others. -/
theorem popMostConstrained_eq_some {heap : FrameHeap S R} {frames frames' : RemainingDeps S R}
    {just : Bool} {parent : Summary S R} {info : DepInfo S R}
    (h : popMostConstrained heap frames = some (just, parent, info, frames')) :
    frames.pending.Perm ((parent, info) :: frames'.pending) ∧
      (∃ frame ∈ frames, frame.justForErrorMessages = just) ∧
      ∀ frame' ∈ frames', ∃ frame ∈ frames,
        frame.justForErrorMessages = frame'.justForErrorMessages :=
  popLoop_eq_some h

end Cargo.Resolver
