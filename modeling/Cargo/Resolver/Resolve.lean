import Cargo.Resolver.Search
import Cargo.Util.Graph

/-!
# The result of resolution

Once the search has activated everything, its context becomes a `Resolve`: the graph of
packages, their features, replacements and checksums. Two checks follow, for cycles of
transitive dependencies and for packages that the lock file could not tell apart.

## Main definitions

* `Resolve`, `Context.graph` — the result and its graph
* `visit`, `checkCycles` — the search for cycles
* `checkDuplicatePkgsInLockfile` — packages that the lock file would confuse
* `Resolves` — `resolve` returns a graph
-/

set_option autoImplicit false

namespace Cargo.Resolver

open Cargo.Core Cargo.Math Cargo.Util

variable {S R : Type} [DecidableEq S]

/-- The graph of packages; the label of an edge lists the dependencies it stands for. -/
abbrev PackageGraph (S R : Type) := Util.Graph (PackageId S) (List (Dependency S R))

/-- A fully resolved graph of packages. -/
structure Resolve (S R : Type) where
  graph : PackageGraph S R
  replacements : Finmap fun _ : PackageId S => PackageId S
  features : Finmap fun _ : PackageId S => Finset String
  checksums : Finmap fun _ : PackageId S => Option String
  metadata : Finmap fun _ : String => String
  unusedPatches : List (PackageId S)

namespace Resolve

/-- The features recorded for a package. -/
def featuresOf (r : Resolve S R) (id : PackageId S) : Finset String :=
  (r.features.lookup id).getD ∅

/-- The packages that `pkg` depends on, before replacement. -/
def depsNotReplaced (r : Resolve S R) (pkg : PackageId S) : Finset (PackageId S) :=
  (r.graph.edges pkg).keys

/-- The package that replaces `pkg`. -/
def replacement (r : Resolve S R) (pkg : PackageId S) : Option (PackageId S) :=
  r.replacements.lookup pkg

/-- `d` is among the dependencies that the edge from `p` to `q` stands for. -/
def Edge (r : Resolve S R) (p q : PackageId S) (d : Dependency S R) : Prop :=
  ∃ deps, (r.graph.edges p).lookup q = some deps ∧ d ∈ deps

end Resolve

namespace Context

/-- Add one node or edge to the graph. -/
def graphStep (graph : PackageGraph S R) : GraphNode S R → PackageGraph S R
  | .add id => graph.add id
  | .link parent child dep => graph.link parent child (· ++ [dep])

/-- The graph that the search has built. -/
def graph (cx : Context S R) : PackageGraph S R := cx.resolveGraph.foldl graphStep Util.Graph.new

/-- The summary of an activated package. -/
def summaryOf (cx : Context S R) (id : PackageId S) : Option (Summary S R) :=
  (cx.active id.slot).find? (·.packageId = id)

/-- The map of replacements; of several for one package the oldest wins. -/
def replacementMap (cx : Context S R) : Finmap fun _ : PackageId S => PackageId S :=
  cx.resolveReplacements.foldl (fun map pair => map.insert pair.1 pair.2) ∅

/-- The checksums of the activated packages. -/
def checksums (cx : Context S R) : Finmap fun _ : PackageId S => Option String :=
  cx.resolveGraph.foldl
    (fun map node =>
      match node with
      | .add id => map.insert id ((cx.summaryOf id).bind Summary.checksum)
      | .link _ _ _ => map)
    ∅

/-- The context as a result. -/
def toResolve (cx : Context S R) : Resolve S R where
  graph := cx.graph
  replacements := cx.replacementMap
  features := cx.resolvedFeatures
  checksums := cx.checksums
  metadata := ∅
  unusedPatches := []

/-- An edge of the graph collects the dependencies that were linked. -/
theorem edge_foldl_graphStep {nodes : List (GraphNode S R)} {g : PackageGraph S R}
    {p q : PackageId S} {d : Dependency S R} :
    (∃ deps, ((nodes.foldl graphStep g).edges p).lookup q = some deps ∧ d ∈ deps) ↔
      (∃ deps, (g.edges p).lookup q = some deps ∧ d ∈ deps) ∨ GraphNode.link p q d ∈ nodes := by
  induction nodes generalizing g with
  | nil => simp
  | cons node nodes ih =>
    rw [List.foldl_cons, ih, List.mem_cons]
    cases node with
    | add id => simp [graphStep]
    | link parent child dep =>
      have hlink : (∃ deps, ((graphStep g (.link parent child dep)).edges p).lookup q = some deps ∧
          d ∈ deps) ↔ (∃ deps, (g.edges p).lookup q = some deps ∧ d ∈ deps) ∨
            (p = parent ∧ q = child ∧ d = dep) := by
        by_cases hp : p = parent
        · subst hp
          rw [graphStep, Util.Graph.edges_link_self]
          by_cases hq : q = child
          · subst hq
            have hdefault : d ∉ (default : List (Dependency S R)) := List.not_mem_nil
            cases hold : (g.edges p).lookup q <;> simp [Finmap.lookup_insert, hdefault]
          · simp [Finmap.lookup_insert_of_ne _ hq, hq]
        · rw [graphStep, Util.Graph.edges_link_of_ne hp]
          simp [hp]
      rw [hlink, GraphNode.link.injEq, or_assoc]

/-- The edges of the result are those that the search has noted. -/
theorem edge_toResolve {cx : Context S R} {p q : PackageId S} {d : Dependency S R} :
    cx.toResolve.Edge p q d ↔ GraphNode.link p q d ∈ cx.resolveGraph := by
  have hnew : ∀ p, (Util.Graph.new : PackageGraph S R).edges p = ∅ := fun _ => rfl
  rw [Resolve.Edge, toResolve, graph, edge_foldl_graphStep]
  simp [hnew]

theorem mem_edges_foldl_graphStep {nodes : List (GraphNode S R)} {g : PackageGraph S R}
    {p q : PackageId S} (h : q ∈ (nodes.foldl graphStep g).edges p) :
    q ∈ g.edges p ∨ ∃ d, GraphNode.link p q d ∈ nodes := by
  induction nodes generalizing g with
  | nil => exact Or.inl h
  | cons node nodes ih =>
    rcases ih h with hq | ⟨d, hd⟩
    · cases node with
      | add id =>
        rw [graphStep, Util.Graph.edges_add] at hq
        exact Or.inl hq
      | link parent child dep =>
        by_cases hp : p = parent
        · subst hp
          rw [graphStep, Util.Graph.edges_link_self] at hq
          rcases Finmap.mem_insert.mp hq with rfl | hq
          · exact Or.inr ⟨dep, by simp⟩
          · exact Or.inl hq
        · rw [graphStep, Util.Graph.edges_link_of_ne hp] at hq
          exact Or.inl hq
    · exact Or.inr ⟨d, by simp [hd]⟩

/-- Every successor in the result was linked. -/
theorem exists_link_of_mem_deps {cx : Context S R} {p q : PackageId S}
    (h : q ∈ cx.toResolve.depsNotReplaced p) : ∃ d, GraphNode.link p q d ∈ cx.resolveGraph := by
  rw [Resolve.depsNotReplaced, Finmap.mem_keys] at h
  refine (mem_edges_foldl_graphStep h).resolve_left ?_
  exact Finmap.notMem_empty

/-- Every replacement of the result was noted by the search. -/
theorem mem_of_replacement {cx : Context S R} {p q : PackageId S}
    (h : cx.toResolve.replacement p = some q) : (p, q) ∈ cx.resolveReplacements := by
  suffices hgen : ∀ (pairs : List (PackageId S × PackageId S))
      (map : Finmap fun _ : PackageId S => PackageId S),
      (pairs.foldl (fun map pair => map.insert pair.1 pair.2) map).lookup p = some q →
      map.lookup p = some q ∨ (p, q) ∈ pairs from
    (hgen _ _ h).resolve_left (by simp)
  intro pairs
  induction pairs with
  | nil => exact fun map hmap => Or.inl hmap
  | cons pair pairs ih =>
    intro map hmap
    rcases ih _ hmap with hlookup | hmem
    · by_cases hp : p = pair.1
      · subst hp
        rw [Finmap.lookup_insert] at hlookup
        cases hlookup
        exact Or.inr (by simp)
      · rw [Finmap.lookup_insert_of_ne _ hp] at hlookup
        exact Or.inl hlookup
    · exact Or.inr (by simp [hmem])

theorem mem_foldl_graphStep {nodes : List (GraphNode S R)} {g : PackageGraph S R}
    {p : PackageId S} :
    p ∈ (nodes.foldl graphStep g).nodes ↔ p ∈ g.nodes ∨ GraphNode.add p ∈ nodes ∨
      ∃ q d, GraphNode.link p q d ∈ nodes := by
  induction nodes generalizing g with
  | nil => simp
  | cons node nodes ih =>
    rw [List.foldl_cons, ih]
    cases node with
    | add id =>
      simp only [graphStep, Util.Graph.mem_add, List.mem_cons, GraphNode.add.injEq, reduceCtorEq,
        false_or]
      tauto
    | link parent child dep =>
      simp only [graphStep, Util.Graph.mem_link, List.mem_cons, GraphNode.link.injEq, reduceCtorEq,
        false_or]
      constructor
      · rintro ((rfl | hp) | hp | ⟨q, d, hp⟩)
        · exact Or.inr (Or.inr ⟨child, dep, Or.inl ⟨rfl, rfl, rfl⟩⟩)
        · exact Or.inl hp
        · exact Or.inr (Or.inl hp)
        · exact Or.inr (Or.inr ⟨q, d, Or.inr hp⟩)
      · rintro (hp | hp | ⟨q, d, ⟨rfl, -, -⟩ | hp⟩)
        · exact Or.inl (Or.inr hp)
        · exact Or.inr (Or.inl hp)
        · exact Or.inl (Or.inl rfl)
        · exact Or.inr (Or.inr ⟨q, d, hp⟩)

/-- The packages of the result are those that were added or linked from. -/
theorem mem_toResolve {cx : Context S R} {p : PackageId S} :
    p ∈ cx.toResolve.graph.nodes ↔ GraphNode.add p ∈ cx.resolveGraph ∨
      ∃ q d, GraphNode.link p q d ∈ cx.resolveGraph := by
  rw [toResolve, graph, mem_foldl_graphStep]
  refine or_iff_right ?_
  exact Finmap.notMem_empty

end Context

/-! ### Cycles -/

/-- The ways in which `check_cycles` can end without an `Ok`. -/
inductive CycleError (S : Type)
  /-- "cyclic package dependency: package depends on itself". -/
  | cyclic (id : PackageId S)
  /-- `summaries[id]` for a package that is not activated. -/
  | noSummary (id : PackageId S)
  /-- The recursion went deeper than there are packages. -/
  | depth

/-- The packages that `visit` goes to from `id`, in order, each with whether the edge is
transitive: every dependency, followed by its replacement. -/
def successors [VersionReq R] (ho : HashOrder (PackageId S)) (resolve : Resolve S R)
    (summary : Summary S R) (id : PackageId S) : List (Bool × PackageId S) :=
  ((ho.of id).enum (resolve.depsNotReplaced id)).flatMap fun dep =>
    let isTransitive := summary.dependencies.any fun d => d.matchesId dep && d.isTransitive
    (isTransitive, dep) ::
      match resolve.replacement dep with
      | some replacement => [(isTransitive, replacement)]
      | none => []

/-- Look for a transitive cycle through the packages below `id`. `visited` is the path of
transitive edges that leads to `id`; a call that returns leaves it as it found it, so only
`checked` is passed on. -/
def visit [VersionReq R] (ho : HashOrder (PackageId S)) (resolve : Resolve S R)
    (summaries : PackageId S → Option (Summary S R)) :
    ℕ → PackageId S → Finset (PackageId S) → Finset (PackageId S) →
      Except (CycleError S) (Finset (PackageId S))
  | 0, _, _, _ => .error .depth
  | fuel + 1, id, visited, checked =>
    if id ∈ visited then .error (.cyclic id)
    else if id ∈ checked then .ok checked
    else
      match summaries id with
      | none => .error (.noSummary id)
      | some summary =>
        (successors ho resolve summary id).foldlM
          (fun checked next =>
            visit ho resolve summaries fuel next.2
              -- a dev-dependency starts a path of its own
              (if next.1 then insert id visited else ∅) checked)
          (insert id checked)

/-- Look for a transitive cycle from every package. `sorted` is the order of package ids,
`ho` the order in which the edges are enumerated. -/
def checkCycles [VersionReq R] (sorted ho : HashOrder (PackageId S)) (resolve : Resolve S R)
    (summaries : PackageId S → Option (Summary S R)) :
    Except (CycleError S) (Finset (PackageId S)) :=
  (sorted.enum resolve.graph.nodes.keys).foldlM
    (fun checked pkg =>
      if pkg ∈ checked then .ok checked
      else visit ho resolve summaries (resolve.graph.nodes.keys.card + 1) pkg ∅ checked)
    ∅

/-! ### Packages that the lock file confuses -/

/-- What the lock file keeps of a package id: `lockSource` is `none` for a path, and
otherwise the source without its precise revision. -/
def encodablePackageId {L : Type} (lockSource : S → Option L) (id : PackageId S) :
    String × Version × Option L :=
  (id.name, id.version, lockSource id.sourceId)

/-- Whether the lock file tells all packages apart. -/
def checkDuplicatePkgsInLockfile {L : Type} [DecidableEq L] (lockSource : S → Option L)
    (resolve : Resolve S R) : Bool :=
  decide (∀ a ∈ resolve.graph.nodes.keys, ∀ b ∈ resolve.graph.nodes.keys,
    encodablePackageId lockSource a = encodablePackageId lockSource b → a = b)

variable [DecidableEq R] [VersionReq R]

/-- `resolve` returns the graph `r`. -/
def Resolves {L : Type} [DecidableEq L] (env : Env S R) (sorted edgeOrder : HashOrder (PackageId S))
    (lockSource : S → Option L) (roots : List (Summary S R × Method)) (r : Resolve S R) : Prop :=
  ∃ cx, Returns env roots (.ok cx) ∧ r = cx.toResolve ∧
    (∃ checked, checkCycles sorted edgeOrder r cx.summaryOf = .ok checked) ∧
    checkDuplicatePkgsInLockfile lockSource r = true

end Cargo.Resolver
