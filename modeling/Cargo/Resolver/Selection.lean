import Cargo.Resolver.Soundness

/-!
# What the resolver searches for

A selection is a set of packages with the features recorded for them, whatever search it
came from. The conflicts that the resolver remembers are statements about all selections:
`Refuted` says that a dependency cannot be fulfilled next to some packages, `Blamed` that one
candidate for it cannot be.

## Main definitions

* `Selection`, `Serves` — selections, and what a dependency asks of a package
* `Consistent`, `Valid` — selections in which everything that is asked for is there
* `EntryTrue`, `Refuted`, `Blamed` — what a conflict says about selections

## Main results

* `served_requirements` — what a dependency itself asks for is there
* `refuted_of_blamed` — a dependency all of whose candidates are blamed is refuted
-/

set_option autoImplicit false

namespace Cargo.Resolver

open Cargo.Core Cargo.Math Relation

variable {S R : Type}

/-! ### Selections -/

/-- A set of packages and the features recorded for them. -/
structure Selection (S R : Type) where
  packages : Set (Summary S R)
  features : PackageId S → Finset String

/-- `q` is one of the packages that match `d`: those with which the registry answers. -/
def Answers (env : Env S R) (d : Dependency S R) (q : Summary S R) : Prop :=
  ∃ summaries, env.registry.registry d = .ok summaries ∧ q ∈ summaries

/-- `s` has a dependency with the name `n`. -/
def HasDependency (roots : List (Summary S R × Method)) (s : Summary S R) (n : String) : Prop :=
  ∃ d ∈ s.dependencies, Wanted roots s d ∧ d.nameInToml = n

/-- The value `v` is met by `s` with the features `feats`: what it names is recorded, and a
dependency that it names exists. -/
def Meets (roots : List (Summary S R × Method)) (s : Summary S R) (feats : Finset String) :
    FeatureValue → Prop
  | .feature f => f = "" ∨ f ∈ feats
  | .crate n => n ∈ feats ∧ HasDependency roots s n
  | .crateFeature n _ => n ∈ feats ∧ HasDependency roots s n

/-- In the selection `σ`, the package `q` has the features that `d` asks of it. -/
def Serves (roots : List (Summary S R × Method)) (σ : Selection S R) (d : Dependency S R)
    (q : Summary S R) : Prop :=
  (∀ f ∈ d.features, f ≠ "" → Meets roots q (σ.features q.packageId) (featureValue q f)) ∧
    (d.defaultFeatures = true → "default" ∈ q.features → "default" ∈ σ.features q.packageId)

/-- The packages of `σ` need nothing that is missing and do not exclude each other. -/
structure Consistent (env : Env S R) (roots : List (Summary S R × Method)) (σ : Selection S R) :
    Prop where
  known : ∀ s ∈ σ.packages, Known env roots s
  root_mem : ∀ root ∈ roots, root.1 ∈ σ.packages
  enabled : ∀ s ∈ σ.packages, ∀ d, EnabledIn roots s (σ.features s.packageId) d →
    ∃ q ∈ σ.packages, Answers env d q ∧ Serves roots σ d q
  semver : ∀ s ∈ σ.packages, ∀ t ∈ σ.packages, s.packageId.slot = t.packageId.slot →
    compatible s.packageId.version t.packageId.version = true → s.packageId = t.packageId
  links : ∀ s ∈ σ.packages, ∀ t ∈ σ.packages, ∀ link, s.links = some link →
    t.links = some link → s.packageId = t.packageId
  closed : ∀ s ∈ σ.packages, ∀ f ∈ σ.features s.packageId, ∀ values,
    s.features.lookup f = some values → ∀ v ∈ values,
    Meets roots s (σ.features s.packageId) v

/-- `q` is in `σ` because of the dependency `d` of `s`. -/
def Uses (env : Env S R) (roots : List (Summary S R × Method)) (σ : Selection S R)
    (s : Summary S R) (d : Dependency S R) (q : Summary S R) : Prop :=
  EnabledIn roots s (σ.features s.packageId) d ∧ q ∈ σ.packages ∧ Answers env d q ∧
    Serves roots σ d q

/-- A complete activation: nothing is missing, what features and roots ask of dependencies is
recorded, and every package is reachable from a root. -/
structure Valid (env : Env S R) (roots : List (Summary S R × Method)) (σ : Selection S R) : Prop
    extends Consistent env roots σ where
  feature_asked : ∀ s ∈ σ.packages, ∀ d ∈ s.dependencies, d.isTransitive = true → ∀ g, g ≠ "" →
    FeatureAsked s (σ.features s.packageId) d.nameInToml g →
    ∃ q, Uses env roots σ s d q ∧ Meets roots q (σ.features q.packageId) (featureValue q g)
  root_recorded : ∀ root ∈ roots, ∀ reqs, buildRequirements root.1 root.2 = .ok reqs →
    reqs.used ⊆ σ.features root.1.packageId
  root_asked : ∀ root ∈ roots, ∀ d ∈ root.1.dependencies, Wanted roots root.1 d → ∀ g, g ≠ "" →
    RootAsks root d.nameInToml g →
    ∃ q, Uses env roots σ root.1 d q ∧ Meets roots q (σ.features q.packageId) (featureValue q g)
  reachable : ∀ s ∈ σ.packages, ∃ root ∈ roots,
    ReflTransGen (fun p q => ∃ d, Uses env roots σ p d q) root.1 s

/-- All packages of `con` are selected. -/
def Selection.Contains (σ : Selection S R) (con : Conflicts S) : Prop :=
  ∀ id ∈ con, ∃ s ∈ σ.packages, s.packageId = id

/-! ### What a conflict says -/

/-- The conflict `con` recorded for `dep` is true: no complete activation contains all
packages of `con` together with a package that has `dep` enabled. -/
def EntryTrue (env : Env S R) (roots : List (Summary S R × Method)) (dep : Dependency S R)
    (con : Conflicts S) : Prop :=
  ∀ σ, Valid env roots σ → σ.Contains con →
    ∀ s ∈ σ.packages, ¬ EnabledIn roots s (σ.features s.packageId) dep

/-- The same of all consistent selections. -/
def Refuted (env : Env S R) (roots : List (Summary S R × Method)) (dep : Dependency S R)
    (con : Conflicts S) : Prop :=
  ∀ σ, Consistent env roots σ → σ.Contains con →
    ∀ s ∈ σ.packages, ¬ EnabledIn roots s (σ.features s.packageId) dep

/-- The package `q` cannot fulfil `dep` next to the packages of `con`. -/
def Blamed (env : Env S R) (roots : List (Summary S R × Method)) (dep : Dependency S R)
    (con : Conflicts S) (q : Summary S R) : Prop :=
  ∀ σ, Consistent env roots σ → σ.Contains con → q ∈ σ.packages → ¬ Serves roots σ dep q

section Lemmas

variable {env : Env S R} {roots : List (Summary S R × Method)} {σ : Selection S R}
  {dep : Dependency S R} {con con' : Conflicts S} {q : Summary S R}

theorem Refuted.entryTrue (h : Refuted env roots dep con) : EntryTrue env roots dep con :=
  fun σ hσ => h σ hσ.toConsistent

theorem Selection.Contains.mono (h : ∀ id ∈ con, id ∈ con') (hσ : σ.Contains con') :
    σ.Contains con :=
  fun id hid => hσ id (h id hid)

theorem Blamed.mono (h : ∀ id ∈ con, id ∈ con') (hb : Blamed env roots dep con q) :
    Blamed env roots dep con' q :=
  fun σ hσ hcon => hb σ hσ (hcon.mono h)

/-- A dependency is refuted when each of its candidates is blamed. -/
theorem refuted_of_blamed (h : ∀ q, Answers env dep q → Blamed env roots dep con q) :
    Refuted env roots dep con := by
  intro σ hσ hcon s hs henabled
  obtain ⟨q, hq, hanswers, hserves⟩ := hσ.enabled s hs dep henabled
  exact h q hanswers σ hσ hcon hq hserves

/-- The member with a known id is the known summary. -/
theorem Consistent.mem_of_id [VersionReq R] (hreg : Registered env (Known env roots))
    (hσ : Consistent env roots σ) (hq : Known env roots q)
    (h : ∃ s ∈ σ.packages, s.packageId = q.packageId) : q ∈ σ.packages := by
  obtain ⟨s, hs, hid⟩ := h
  exact hreg.coherent s q (hσ.known s hs) hq hid ▸ hs

/-! ### What a dependency itself asks for -/

/-- What `dep` asks of a candidate, whoever it is a dependency of. -/
def ownMethod (dep : Dependency S R) : Method :=
  .required false (dep.features.filter (· ≠ "")) false dep.defaultFeatures

/-- In a consistent selection, a package meets whatever the dependencies that it serves ask
for: it has the dependencies they name. -/
theorem served_requirements (hσ : Consistent env roots σ) (hq : q ∈ σ.packages)
    (hserves : Serves roots σ dep q) {reqs : Requirements}
    (h : buildRequirements q (ownMethod dep) = .ok reqs) :
    ∀ n ∈ reqs.deps, n ∈ σ.features q.packageId ∧ HasDependency roots q n := by
  have hwalk : Requirements.Walk q (Meets roots q (σ.features q.packageId)) (fun reqs =>
      ∀ n ∈ reqs.deps, n ∈ σ.features q.packageId ∧ HasDependency roots q n) := by
    constructor
    case values =>
      intro f values hf hne hvalues
      exact hσ.closed q hq f (hf.resolve_left hne) values hvalues
    case mark => exact fun _ _ hP _ _ _ => hP
    case dependency =>
      intro reqs n hP hn m hm
      unfold Requirements.requireDependency at hm
      split at hm
      · exact hP m hm
      · rcases Finmap.mem_insert.mp hm with rfl | hm
        · exact hn
        · exact hP m hm
    case crateFeature =>
      intro reqs n g hP hn m hm
      rcases Finmap.mem_insert.mp hm with rfl | hm
      · exact hn
      · exact hP m hm
  refine buildRequirements_walk hwalk h ?_ ?_ ?_
  · intro n hn
    exact absurd hn Finmap.notMem_empty
  · intro f hf
    obtain ⟨hmem, hne⟩ := List.mem_filter.mp hf
    exact hserves.1 f hmem (by simpa using hne)
  · exact fun huses hmem => Or.inr (hserves.2 huses hmem)

/-- The features of `dep` alone turn on the dependency of `q` with the name `n`. -/
def Asks (dep : Dependency S R) (q : Summary S R) (n : String) : Prop :=
  ∃ reqs, buildRequirements q (ownMethod dep) = .ok reqs ∧ n ∈ reqs.deps

/-- A candidate that lacks a dependency which `dep` itself asks for is to blame alone. -/
theorem blamed_of_asks {n : String} (hasks : Asks dep q n) (hnot : ¬ HasDependency roots q n) :
    Blamed env roots dep con q := by
  obtain ⟨reqs, hreqs, hn⟩ := hasks
  intro σ hσ _ hq hserves
  exact hnot (served_requirements hσ hq hserves hreqs n hn).2

/-- A candidate is blamed when one of its dependencies is refuted next to it. -/
theorem blamed_of_refuted {d : Dependency S R} (hd : d ∈ q.dependencies) (hw : Wanted roots q d)
    (hopt : d.optional = true → Asks dep q d.nameInToml) (hd' : Refuted env roots d con')
    (hcon : ∀ id ∈ con', id = q.packageId ∨ id ∈ con) : Blamed env roots dep con q := by
  intro σ hσ hσcon hq hserves
  refine hd' σ hσ ?_ q hq ⟨hd, hw, fun ho => ?_⟩
  · intro id hid
    rcases hcon id hid with rfl | hid
    · exact ⟨q, hq, rfl⟩
    · exact hσcon id hid
  · obtain ⟨reqs, hreqs, hn⟩ := hopt ho
    exact Or.inl (served_requirements hσ hq hserves hreqs _ hn).1

/-- A candidate is blamed when a dependency of another package is refuted next to it. -/
theorem blamed_of_other [VersionReq R] (hreg : Registered env (Known env roots)) {p : Summary S R}
    {d : Dependency S R} (hp : Known env roots p) (hd : d ∈ p.dependencies)
    (hw : Wanted roots p d) (hopt : d.optional = false) (hd' : Refuted env roots d con')
    (hcon : ∀ id ∈ con', id = q.packageId ∨ id ∈ con) (hmem : p.packageId ∈ con) :
    Blamed env roots dep con q := by
  intro σ hσ hσcon hq _
  have hpσ : p ∈ σ.packages := hσ.mem_of_id hreg hp (hσcon _ hmem)
  refine hd' σ hσ ?_ p hpσ ⟨hd, hw, fun ho => absurd ho (by simp [hopt])⟩
  intro id hid
  rcases hcon id hid with rfl | hid
  · exact ⟨q, hq, rfl⟩
  · exact hσcon id hid

end Lemmas

end Cargo.Resolver
