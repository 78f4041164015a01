import Cargo.Resolver.Types

/-!
# The context of the resolver

A `Context` is the resolver's partial solution: the activated packages, the features
recorded for them, the `links` values taken, and the graph that will be the result. The
functions that change one return the changed context together with their outcome, also
when the outcome is a conflict, since the search goes on from there.

## Main definitions

* `Requirements`, `buildRequirements` — what a package needs for the features asked of it
* `Context`, `Context.flagActivated`, `Context.resolveFeatures`, `Context.buildDeps`
-/

set_option autoImplicit false

namespace Cargo.Resolver

open Cargo.Core Cargo.Math

variable {S R : Type}

/-! ### Requirements -/

/-- What the features asked of a package require. -/
structure Requirements where
  /-- For the name of each dependency needed: whether it was asked for itself, and the
  features asked of it. -/
  deps : Finmap fun _ : String => Bool × List String
  /-- The features and dependencies enabled. -/
  used : Finset String
  visited : Finset String

namespace Requirements

/-- Nothing is required. -/
def new : Requirements := ⟨∅, ∅, ∅⟩

/-- The entry for a dependency. -/
def entry (self : Requirements) (package : String) : Bool × List String :=
  (self.deps.lookup package).getD (false, [])

/-- Require a feature of a dependency. -/
def requireCrateFeature (self : Requirements) (package feat : String) : Requirements :=
  { self with
    used := insert package self.used
    deps := self.deps.insert package
      ((self.entry package).1, (self.entry package).2 ++ [feat]) }

/-- Mark a name as visited and used. -/
def mark (self : Requirements) (name : String) : Requirements :=
  { self with visited := insert name self.visited, used := insert name self.used }

/-- Require a dependency. -/
def requireDependency (self : Requirements) (pkg : String) : Requirements :=
  if pkg ∈ self.visited then self
  else
    { self.mark pkg with
      deps := self.deps.insert pkg (true, (self.entry pkg).2) }

/-- Require a feature and all that it enables. The first argument bounds the depth of the
recursion; each level visits one feature more. -/
def requireFeature (s : Summary S R) :
    ℕ → Requirements → String → Except (Failure S R) Requirements
  | 0, _, _ => .error .featureDepth
  | fuel + 1, self, feat =>
    -- `require_feature` does nothing for a name that was seen
    if feat = "" ∨ feat ∈ self.visited then .ok self
    else
      match s.features.lookup feat with
      | none => .error (.invalidFeature feat)
      | some values =>
        values.foldlM
          (fun self value =>
            match value with
            | .feature depFeat =>
              if depFeat = feat then .error (.cyclicFeature feat)
              else requireFeature s fuel self depFeat
            | .crate dep => .ok (self.requireDependency dep)
            | .crateFeature dep depFeat => .ok (self.requireCrateFeature dep depFeat))
          (self.mark feat)

/-- The bound on the depth that is always enough. -/
def featureFuel (s : Summary S R) : ℕ := s.features.keys.card + 1

/-- Require a value as `features` lists have it. -/
def requireValue (s : Summary S R) (self : Requirements) :
    FeatureValue → Except (Failure S R) Requirements
  | .feature feat => requireFeature s (featureFuel s) self feat
  | .crate dep => .ok (self.requireDependency dep)
  | .crateFeature dep depFeat => .ok (self.requireCrateFeature dep depFeat)

end Requirements

/-- `FeatureValue::new`: a requested feature, read against the package it is asked of. -/
def featureValue (s : Summary S R) (feature : String) : FeatureValue :=
  FeatureValue.build feature (fun name => decide (name ∈ s.features)) s.namespacedFeatures

/-- Require what `method` asks for besides the defaults. -/
def requireRequested (s : Summary S R) (method : Method) : Except (Failure S R) Requirements :=
  match method with
  | .everything | .required _ _ true _ => do
    let reqs ← (sortedKeys s.features).foldlM
      (Requirements.requireFeature s (Requirements.featureFuel s)) Requirements.new
    .ok ((s.dependencies.filter (·.optional)).foldl
      (fun reqs dep => reqs.requireDependency dep.nameInToml) reqs)
  | .required _ requested false _ =>
    requested.foldlM (fun reqs f => reqs.requireValue s (featureValue s f)) Requirements.new

/-- Whether `method` asks for the default features. -/
def Method.usesDefault : Method → Bool
  | .everything => true
  | .required _ _ _ usesDefaultFeatures => usesDefaultFeatures

/-- All that a package needs when it is activated with `method`. -/
def buildRequirements (s : Summary S R) (method : Method) :
    Except (Failure S R) Requirements := do
  let reqs ← requireRequested s method
  if method.usesDefault ∧ "default" ∈ s.features then
    Requirements.requireFeature s (Requirements.featureFuel s) reqs "default"
  else .ok reqs

/-! ### The context -/

/-- The resolver's partial solution. -/
structure Context (S R : Type) where
  activations : Finmap fun _ : String × S => List (Summary S R)
  resolvedFeatures : Finmap fun _ : PackageId S => Finset String
  links : Finmap fun _ : String => PackageId S
  /-- Newest first. -/
  resolveGraph : List (GraphNode S R)
  /-- Newest first. -/
  resolveReplacements : List (PackageId S × PackageId S)
  /-- A required dependency was asked for as a feature. -/
  warnings : List (PackageId S × String)

namespace Context

variable [DecidableEq S]

/-- The context in which nothing is activated. -/
def new : Context S R := ⟨∅, ∅, ∅, [], [], []⟩

/-- The packages activated under a name and source. -/
def active (cx : Context S R) (slot : String × S) : List (Summary S R) :=
  (cx.activations.lookup slot).getD []

/-- The packages active that might fulfil `dep`. -/
def prevActive (cx : Context S R) (dep : Dependency S R) : List (Summary S R) :=
  cx.active dep.slot

/-- Whether a package is activated. -/
def isActive (cx : Context S R) (id : PackageId S) : Bool :=
  (cx.active id.slot).any (·.packageId = id)

/-- Whether the parent, if one is given, and all packages of `conflicts` are active. -/
def isConflicting (cx : Context S R) (parent : Option (PackageId S)) (conflicts : Conflicts S) :
    Bool :=
  decide (∀ id ∈ conflicts.keys, cx.isActive id = true) &&
    parent.all fun id => cx.isActive id

/-- The features recorded for a package. -/
def features (cx : Context S R) (id : PackageId S) : Finset String :=
  (cx.resolvedFeatures.lookup id).getD ∅

/-- Whether all that `method` asks of a package that is active is recorded for it. -/
def alreadyActivated (cx : Context S R) (summary : Summary S R) : Method → Bool
  | .everything | .required _ _ true _ => false
  | .required _ features false useDefault =>
    features.all (fun f => decide (f ∈ cx.features summary.packageId)) &&
      (!useDefault || decide ("default" ∈ cx.features summary.packageId) ||
        decide ("default" ∉ summary.features))

/-- Put a package among the activated ones. Returns whether it was there already with
all that `method` asks. -/
def flagActivated (cx : Context S R) (summary : Summary S R) (method : Method) :
    Except (Failure S R) (Bool × Context S R) :=
  let id := summary.packageId
  let prev := cx.active id.slot
  if prev.any (·.packageId = id) then .ok (cx.alreadyActivated summary method, cx)
  else
    -- an error ends the search, so that it does not matter what is noted before the check
    let cx := { cx with
      resolveGraph := .add id :: cx.resolveGraph
      activations := cx.activations.insert id.slot (prev ++ [summary]) }
    match summary.links with
    | none => .ok (false, cx)
    | some link =>
      match cx.links.lookup link with
      | some _ => .error (.duplicateLinks link)
      | none => .ok (false, { cx with links := cx.links.insert link id })

end Context

/-- What the loop of `resolve_features` collects. -/
structure Enabled (S R : Type) where
  warnings : List (PackageId S × String)
  usedFeatures : Finset String
  ret : List (Dependency S R × List String)

/-- One turn of that loop: enable `dep` unless it is optional and not asked for. -/
def enableDep (s : Summary S R) (reqs : Requirements) (acc : Enabled S R)
    (dep : Dependency S R) : Except (Failure S R) (Enabled S R) :=
  if dep.optional ∧ dep.nameInToml ∉ reqs.deps then .ok acc
  else
    let base := reqs.entry dep.nameInToml
    -- a feature names a dependency that is not optional anywhere: a warning
    let alwaysRequired := !dep.optional &&
      !s.dependencies.any fun d => d.optional && decide (d.nameInToml = dep.nameInToml)
    let features := base.2 ++ dep.features
    match features.find? fun f => decide ('/' ∈ f.toList) with
    | some f => .error (.slashInFeature f)
    | none => .ok
      { warnings :=
          if alwaysRequired && base.1 then (s.packageId, dep.nameInToml) :: acc.warnings
          else acc.warnings
        usedFeatures := insert dep.nameInToml acc.usedFeatures
        ret := acc.ret ++ [(dep, features)] }

namespace Context

variable [DecidableEq S]

/-- The dependencies of `s` that `method` enables, with the features asked of each, or the
conflict with the parent that asked for features `s` does not have. -/
def resolveFeatures (ho : SetOrder String) (cx : Context S R) (parent : Option (Summary S R))
    (s : Summary S R) (method : Method) :
    Except (Failure S R) (Context S R ×
      Except (PackageId S × ConflictReason) (List (Dependency S R × List String))) := do
  let reqs ← buildRequirements s method
  let enabled ← (s.dependencies.filter fun d => d.isTransitive || method.devDeps).foldlM
    (enableDep s reqs) ⟨cx.warnings, ∅, []⟩
  let cx := { cx with warnings := enabled.warnings }
  -- what was asked of dependencies that the package does not have
  let remaining := (ho.enum reqs.deps.keys).filter (· ∉ enabled.usedFeatures)
  if remaining ≠ [] then
    match parent with
    -- a root: nobody can be blamed
    | none => .error (.noSuchFeatures s.packageId (", ".intercalate remaining))
    | some p => .ok (cx, .error (p.packageId, .missingFeatures (", ".intercalate remaining)))
  else if reqs.used = ∅ then .ok (cx, .ok enabled.ret)
  else
    let features := cx.features s.packageId ∪ reqs.used
    .ok ({ cx with resolvedFeatures := cx.resolvedFeatures.insert s.packageId features },
      .ok enabled.ret)

/-- The dependencies that activating `candidate` leads to, those with the fewest
candidates first. -/
def buildDeps (ho : SetOrder String) (registry : RegistryQueryer S R) (cx : Context S R)
    (parent : Option (Summary S R)) (candidate : Summary S R) (method : Method) :
    Except (Failure S R) (Context S R ×
      Except (PackageId S × ConflictReason) (List (DepInfo S R))) := do
  match ← cx.resolveFeatures ho parent candidate method with
  | (cx, .error conflict) => .ok (cx, .error conflict)
  | (cx, .ok deps) =>
    let infos ← deps.mapM fun entry => do
      let candidates ← registry.query entry.1
      .ok { dep := entry.1, candidates, features := entry.2 : DepInfo S R }
    .ok (cx, .ok (infos.insertionSort fun a b => a.candidates.length ≤ b.candidates.length))

end Context

end Cargo.Resolver
