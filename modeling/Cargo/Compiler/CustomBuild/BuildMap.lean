import Cargo.Math.Acyclic
import Cargo.Math.Iteration
import Cargo.Math.Memo
import Cargo.Util.Toml.Targets
import Mathlib.Data.Finmap
import Mathlib.Data.Finset.Union

/-!
# Which build scripts a unit depends on

The output of a build script counts for the package it belongs to, and for everything that the
package is linked into. For each unit a list is made of the packages whose scripts count, in the
order in which the linker is to see them: first the unit's own, then those of its dependencies.
What is made for the host is run and not linked, and its scripts are kept apart as plugins.

The lists are made by a recursion over the dependencies that notes each list once it is made. A
build script whose output is configured is not run, and depends on nothing.

## Main definitions

* `BuildScripts` — the scripts that count for a unit
* `Context.depTargets` — the dependencies of a unit
* `build`, `buildMap` — the recursion
* `Propagated` — what the scripts of a unit are to be

## Main results

* `build_eq` — the recursion computes the value of a unit
* `buildMap_propagates` — the scripts of each unit that is reached are the right ones
-/

set_option autoImplicit false

namespace Cargo.Compiler.CustomBuild

open Relation
open Cargo.Math Cargo.Util

/-! ### Packages and units -/

/-- What is compiled runs on the host, or on the target. -/
inductive Kind
  | host
  | target
  deriving DecidableEq

structure Target where
  name : String
  kind : TargetKind
  forHost : Bool
  deriving DecidableEq

def linkable : LibKind → Bool
  | .lib | .rlib | .dylib | .procMacro => true
  | .other _ => false

def Target.linkable (target : Target) : Bool :=
  match target.kind with
  | .lib kinds => kinds.any CustomBuild.linkable
  | _ => false

def Target.isCustomBuild (target : Target) : Bool :=
  decide (target.kind = .customBuild)

structure Package where
  links : Option String
  targets : List Target

def Package.hasCustomBuild (pkg : Package) : Bool :=
  pkg.targets.any Target.isCustomBuild

/-- A unit of compilation: a target of the package with the id `pkg`. The profile and the mode are
in `setting`. -/
structure Unit (P X : Type) where
  pkg : P
  target : Target
  kind : Kind
  setting : X
  deriving DecidableEq

/-- The package of a unit, and what it is compiled for. -/
def Unit.key {P X : Type} (unit : Unit P X) : P × Kind := (unit.pkg, unit.kind)

/-! ### The scripts of a unit -/

/-- The scripts that count for a unit. No package is listed twice, and those listed are known. -/
structure BuildScripts (P : Type) where
  toLink : List (P × Kind)
  seenToLink : Finset (P × Kind)
  plugins : Finset P
  nodup : toLink.Nodup
  mem_seen : ∀ key, key ∈ seenToLink ↔ key ∈ toLink

namespace BuildScripts

variable {P : Type}

def default : BuildScripts P where
  toLink := []
  seenToLink := ∅
  plugins := ∅
  nodup := List.nodup_nil
  mem_seen _ := by simp

variable [DecidableEq P]

def addToLink (scripts : BuildScripts P) (key : P × Kind) : BuildScripts P :=
  if h : key ∈ scripts.seenToLink then scripts
  else
    { scripts with
      toLink := scripts.toLink ++ [key]
      seenToLink := insert key scripts.seenToLink
      nodup := by
        have hnot : key ∉ scripts.toLink := mt (scripts.mem_seen key).mpr h
        exact List.Nodup.append scripts.nodup (List.nodup_singleton key)
          (List.disjoint_singleton.mpr hnot)
      mem_seen := by
        intro other
        rw [Finset.mem_insert, List.mem_append, List.mem_singleton, scripts.mem_seen, or_comm] }

/-- What the scripts of a dependency add. -/
def addDep {X : Type} (ret : BuildScripts P) (unit : Unit P X) (depScripts : BuildScripts P) :
    BuildScripts P :=
  if unit.target.forHost then
    { ret with plugins := ret.plugins ∪ (depScripts.toLink.map Prod.fst).toFinset }
  else if unit.target.linkable then depScripts.toLink.foldl addToLink ret
  else ret

section AddToLink

variable {scripts : BuildScripts P} {key other : P × Kind}

theorem mem_addToLink : other ∈ (scripts.addToLink key).toLink ↔
    other ∈ scripts.toLink ∨ other = key := by
  unfold addToLink
  split
  · rename_i hseen
    rw [scripts.mem_seen] at hseen
    constructor
    · exact .inl
    · rintro (hmem | rfl)
      · exact hmem
      · exact hseen
  · rw [List.mem_append, List.mem_singleton]

/-- What is there stays where it is. -/
theorem prefix_addToLink : scripts.toLink <+: (scripts.addToLink key).toLink := by
  unfold addToLink
  split
  · exact List.prefix_rfl
  · exact List.prefix_append _ _

@[simp] theorem plugins_addToLink : (scripts.addToLink key).plugins = scripts.plugins := by
  unfold addToLink
  split <;> rfl

variable {keys : List (P × Kind)}

theorem mem_foldl_addToLink : other ∈ (keys.foldl addToLink scripts).toLink ↔
    other ∈ scripts.toLink ∨ other ∈ keys := by
  have hfold := foldl_iff (P := fun s : BuildScripts P => other ∈ s.toLink) (Q := (other = ·))
    (f := addToLink) (fun _ _ => mem_addToLink) (l := keys) (s := scripts)
  rw [hfold, exists_eq_right']

theorem prefix_foldl_addToLink : scripts.toLink <+: (keys.foldl addToLink scripts).toLink :=
  foldl_rel (R := fun s t : BuildScripts P => s.toLink <+: t.toLink)
    (fun _ => List.prefix_rfl) List.IsPrefix.trans (fun _ _ => prefix_addToLink) keys scripts

@[simp] theorem plugins_foldl_addToLink :
    (keys.foldl addToLink scripts).plugins = scripts.plugins :=
  foldl_rel (R := fun s t : BuildScripts P => t.plugins = s.plugins)
    (fun _ => rfl) (fun h h' => h'.trans h) (fun _ _ => plugins_addToLink) keys scripts

end AddToLink

section AddDep

variable {X : Type} {ret depScripts : BuildScripts P} {dep : Unit P X} {key : P × Kind} {id : P}

theorem mem_addDep : key ∈ (ret.addDep dep depScripts).toLink ↔
    key ∈ ret.toLink ∨
      (dep.target.linkable = true ∧ dep.target.forHost = false) ∧ key ∈ depScripts.toLink := by
  unfold addDep
  split
  · rename_i hhost
    simp [hhost]
  · split
    · rename_i hhost hlink
      rw [mem_foldl_addToLink]
      simp [hhost, hlink]
    · rename_i hlink
      simp [hlink]

theorem prefix_addDep : ret.toLink <+: (ret.addDep dep depScripts).toLink := by
  unfold addDep
  split
  · exact List.prefix_rfl
  · split
    · exact prefix_foldl_addToLink
    · exact List.prefix_rfl

theorem mem_plugins_addDep : id ∈ (ret.addDep dep depScripts).plugins ↔
    id ∈ ret.plugins ∨
      dep.target.forHost = true ∧ ∃ kind, (id, kind) ∈ depScripts.toLink := by
  unfold addDep
  split
  · rename_i hhost
    simp [hhost]
  · rename_i hhost
    split <;> simp [hhost]

/-! All dependencies, one after the other. -/

variable {scripts : Unit P X → BuildScripts P} {deps : List (Unit P X)}

theorem mem_foldl_addDep :
    key ∈ (deps.foldl (fun ret dep => ret.addDep dep (scripts dep)) ret).toLink ↔
      key ∈ ret.toLink ∨ ∃ dep ∈ deps,
        (dep.target.linkable = true ∧ dep.target.forHost = false) ∧
          key ∈ (scripts dep).toLink := by
  apply foldl_iff (P := fun s : BuildScripts P => key ∈ s.toLink)
  exact fun _ _ => mem_addDep

theorem prefix_foldl_addDep :
    ret.toLink <+: (deps.foldl (fun ret dep => ret.addDep dep (scripts dep)) ret).toLink :=
  foldl_rel (R := fun s t : BuildScripts P => s.toLink <+: t.toLink)
    (fun _ => List.prefix_rfl) List.IsPrefix.trans (fun _ _ => prefix_addDep) deps ret

theorem mem_plugins_foldl_addDep :
    id ∈ (deps.foldl (fun ret dep => ret.addDep dep (scripts dep)) ret).plugins ↔
      id ∈ ret.plugins ∨ ∃ dep ∈ deps,
        dep.target.forHost = true ∧ ∃ kind, (id, kind) ∈ (scripts dep).toLink := by
  apply foldl_iff (P := fun s : BuildScripts P => id ∈ s.plugins)
  exact fun _ _ => mem_plugins_addDep

end AddDep

end BuildScripts

/-! ### The recursion -/

/-- What the recursion reads and writes: the dependencies of the units, the outputs that are
configured for the packages that link a library, the outputs that are known, the scripts that are
not run, and the lists made. -/
structure Context (P X O : Type) where
  package : P → Package
  unitDependencies : Finmap fun _ : Unit P X => List (Unit P X)
  overrides : String × Kind → Option O
  outputs : P × Kind → Option O
  buildScriptOverridden : Finset (P × Kind)
  buildScripts : Unit P X → Option (BuildScripts P)

/-- The ways in which the recursion can panic, and a recursion that does not end. -/
inductive Panic
  /-- `self.unit_dependencies[unit]`. -/
  | noDependencies
  /-- "cyclic dependencies in `build_map`". -/
  | cyclic
  | overflow
  deriving DecidableEq, Repr

variable {P X O : Type} [DecidableEq P] [DecidableEq X] [Ord P] [Ord (Unit P X)]

namespace Context

/-- The dependencies of a unit, ordered by their build keys. -/
def depTargets (cx : Context P X O) (unit : Unit P X) : Except Panic (List (Unit P X)) :=
  if unit.target.isCustomBuild = true ∧ unit.key ∈ cx.buildScriptOverridden then .ok []
  else
    match cx.unitDependencies.lookup unit with
    | none => .error .noDependencies
    | some deps => .ok (deps.mergeSort fun a b => (compare a b).isLE)

/-- The output that is configured for a package. -/
def override (cx : Context P X O) (key : P × Kind) : Option O :=
  (cx.package key.1).links.bind fun l => cx.overrides (l, key.2)

/-- If the output is configured, then the script is not run. -/
def noteOverride (cx : Context P X O) (key : P × Kind) : Context P X O :=
  match cx.override key with
  | none => cx
  | some output =>
    { cx with
      buildScriptOverridden := insert key cx.buildScriptOverridden
      outputs := Function.update cx.outputs key (some output) }

/-- Does the package of the unit have a build script, which the unit itself is not? -/
def contributes (cx : Context P X O) (unit : Unit P X) : Bool :=
  !unit.target.isCustomBuild && (cx.package unit.pkg).hasCustomBuild

/-- The scripts of a unit before those of its dependencies are added. -/
def own (cx : Context P X O) (unit : Unit P X) : BuildScripts P :=
  if cx.contributes unit then BuildScripts.default.addToLink unit.key else .default

end Context

/-- The lists made so far. -/
abbrev Out (P X : Type) := Unit P X → Option (BuildScripts P)

/-- Make the list of a unit, after those of its dependencies in the order of their ids. The first
argument bounds the depth. -/
def build : ℕ → Unit P X → Out P X × Context P X O →
    Except Panic (BuildScripts P × Out P X × Context P X O)
  | 0, _, _ => .error .overflow
  | n + 1, unit, (out, cx) =>
    match out unit with
    | some scripts => .ok (scripts, out, cx)
    | none => do
      let cx := cx.noteOverride unit.key
      let deps ← cx.depTargets unit
      -- the order of ids, so that the list is the same in every run
      let targets := deps.mergeSort fun a b => (compare a.pkg b.pkg).isLE
      let (ret, out, cx) ← targets.foldlM (fun (ret, s) dep => do
        let (depScripts, s) ← build n dep s
        .ok (ret.addDep dep depScripts, s)) (cx.own unit, out, cx)
      match out unit with
      | none => .ok (ret, Function.update out unit (some ret), cx)
      -- the unit was met again below itself
      | some _ => .error .cyclic

/-- The lists of the units given, and of all units below them. Without a cycle the depth is at
most the number of units. -/
def buildMap (cx : Context P X O) (units : List (Unit P X)) : Except Panic (Context P X O) := do
  let (out, cx) ← units.foldlM (fun s unit => do
    let (_, s) ← build (cx.unitDependencies.keys.card + 1) unit s
    .ok s) (fun _ => none, cx)
  .ok { cx with buildScripts := fun unit => (out unit).or (cx.buildScripts unit) }

/-! ### The graph of the units -/

namespace Context

/-- Is the script of the package not run, or will it be noted so? -/
def overridden (cx : Context P X O) (key : P × Kind) : Bool :=
  decide (key ∈ cx.buildScriptOverridden) || (cx.override key).isSome

/-- The units that a unit depends on. A script that is not run depends on nothing. -/
def dependencies (cx : Context P X O) (unit : Unit P X) : List (Unit P X) :=
  if unit.target.isCustomBuild = true ∧ cx.overridden unit.key = true then []
  else (cx.unitDependencies.lookup unit).getD []

def DependsOn (cx : Context P X O) (u d : Unit P X) : Prop := d ∈ cx.dependencies u

/-- A dependency that is linked. -/
def Links (cx : Context P X O) (u d : Unit P X) : Prop :=
  cx.DependsOn u d ∧ d.target.linkable = true ∧ d.target.forHost = false

/-- The graph of the units has no cycle, and knows the dependencies of every unit in it. -/
structure WellFormed (cx : Context P X O) : Prop where
  acyclic : Acyclic cx.DependsOn
  closed : ∀ u d, cx.DependsOn u d → d ∈ cx.unitDependencies

/-- The dependencies in the order in which they are visited. -/
def targets (cx : Context P X O) (unit : Unit P X) : List (Unit P X) :=
  ((cx.dependencies unit).mergeSort fun a b => (compare a b).isLE).mergeSort
    fun a b => (compare a.pkg b.pkg).isLE

section Graph

variable {cx : Context P X O} {u d : Unit P X}

theorem mem_targets : d ∈ cx.targets u ↔ cx.DependsOn u d := by
  rw [targets, List.mem_mergeSort, List.mem_mergeSort]
  rfl

/-- The dependencies as an acyclic graph. -/
noncomputable def dag (h : cx.WellFormed) : Dag (Unit P X) where
  succ := cx.targets
  rank := reachRank cx.DependsOn cx.unitDependencies.keys
  rank_lt u d hd := by
    rw [mem_targets] at hd
    exact h.acyclic.reachRank_lt hd (Finmap.mem_keys.mpr (h.closed u d hd))

/-- The scripts of a unit, made of those of its dependencies. -/
def gather (cx : Context P X O) (unit : Unit P X) (values : List (BuildScripts P)) :
    BuildScripts P :=
  ((cx.targets unit).zip values).foldl (fun ret d => ret.addDep d.1 d.2) (cx.own unit)

/-- The scripts of a unit. -/
noncomputable def scripts (h : cx.WellFormed) : Unit P X → BuildScripts P :=
  (dag h).value cx.gather fun _ => none

theorem below_iff (h : cx.WellFormed) : (dag h).Below u d ↔ ReflTransGen cx.DependsOn u d := by
  have hsucc : (fun a b => b ∈ (dag h).succ a) = cx.DependsOn := by
    funext a b
    exact propext mem_targets
  rw [Dag.Below, hsucc]

/-- The scripts of a unit are its own, then those of the dependencies in order. -/
theorem scripts_eq (h : cx.WellFormed) : scripts h u =
    (cx.targets u).foldl (fun ret dep => ret.addDep dep (scripts h dep)) (cx.own u) := by
  have hvalue : scripts h u = cx.gather u ((cx.targets u).map (scripts h)) :=
    Dag.value_of_none rfl
  rw [hvalue, gather, List.zip_map_right, List.foldl_map]
  generalize cx.own u = ret
  induction cx.targets u generalizing ret with
  | nil => rfl
  | cons dep deps ih => exact ih _

omit [DecidableEq X] [Ord P] [Ord (Unit P X)] in
theorem toLink_own : (cx.own u).toLink = if cx.contributes u then [u.key] else [] := by
  unfold own
  split <;> rfl

omit [DecidableEq X] [Ord P] [Ord (Unit P X)] in
theorem plugins_own : (cx.own u).plugins = ∅ := by
  unfold own
  split
  · exact BuildScripts.plugins_addToLink
  · rfl

end Graph

/-! ### What the scripts of a unit are -/

/-- What the scripts of a unit are to be, given those of the others: the packages that contribute
and are linked into the unit, the unit's own before the others; and the packages of what runs on
the host. -/
structure Propagated (cx : Context P X O) (scripts : Unit P X → Option (BuildScripts P))
    (u : Unit P X) (ret : BuildScripts P) : Prop where
  nodup : ret.toLink.Nodup
  mem_toLink : ∀ id kind, (id, kind) ∈ ret.toLink ↔
    ∃ v, ReflTransGen cx.Links u v ∧ cx.contributes v = true ∧ v.pkg = id ∧ v.kind = kind
  own_first : cx.contributes u = true → ret.toLink.head? = some (u.pkg, u.kind)
  mem_plugins : ∀ id, id ∈ ret.plugins ↔ ∃ d, cx.DependsOn u d ∧ d.target.forHost = true ∧
    ∃ depScripts, scripts d = some depScripts ∧ ∃ kind, (id, kind) ∈ depScripts.toLink

section Scripts

variable {cx : Context P X O} (h : cx.WellFormed) {u : Unit P X} {key : P × Kind}

/-- What is linked into a unit contributes by itself, or is linked into a dependency. -/
theorem mem_toLink_scripts : key ∈ (scripts h u).toLink ↔
    ∃ v, ReflTransGen cx.Links u v ∧ cx.contributes v = true ∧ v.key = key := by
  induction u using (dag h).induction with
  | h u ih =>
    have hown : key ∈ (cx.own u).toLink ↔ cx.contributes u = true ∧ u.key = key := by
      rw [toLink_own]
      split
      · rename_i hcontributes
        simp [hcontributes, eq_comm]
      · rename_i hcontributes
        simp [hcontributes]
    rw [scripts_eq, BuildScripts.mem_foldl_addDep, hown]
    constructor
    · rintro (⟨hcontributes, rfl⟩ | ⟨d, hd, hlink, hkey⟩)
      · exact ⟨u, .refl, hcontributes, rfl⟩
      · obtain ⟨v, hpath, hv⟩ := (ih d hd).mp hkey
        exact ⟨v, .head ⟨mem_targets.mp hd, hlink⟩ hpath, hv⟩
    · rintro ⟨v, hpath, hv⟩
      rcases hpath.cases_head with rfl | ⟨d, ⟨hdep, hlink⟩, hrest⟩
      · exact .inl hv
      · have hd : d ∈ cx.targets u := mem_targets.mpr hdep
        exact .inr ⟨d, hd, hlink, (ih d hd).mpr ⟨v, hrest, hv⟩⟩

theorem head?_toLink_scripts (hu : cx.contributes u = true) :
    (scripts h u).toLink.head? = some u.key := by
  have hprefix : (cx.own u).toLink <+: (scripts h u).toLink := by
    rw [scripts_eq]
    exact BuildScripts.prefix_foldl_addDep
  rw [toLink_own, if_pos hu] at hprefix
  obtain ⟨rest, hrest⟩ := hprefix
  rw [← hrest]
  rfl

theorem mem_plugins_scripts {id : P} : id ∈ (scripts h u).plugins ↔
    ∃ d, cx.DependsOn u d ∧ d.target.forHost = true ∧
      ∃ kind, (id, kind) ∈ (scripts h d).toLink := by
  rw [scripts_eq, BuildScripts.mem_plugins_foldl_addDep, plugins_own]
  simp only [Finset.notMem_empty, false_or, mem_targets]

theorem propagated_scripts {entries : Unit P X → Option (BuildScripts P)}
    (hentries : ∀ d, cx.DependsOn u d → entries d = some (scripts h d)) :
    cx.Propagated entries u (scripts h u) where
  nodup := (scripts h u).nodup
  mem_toLink id kind := by
    rw [mem_toLink_scripts]
    simp only [Unit.key, Prod.mk.injEq]
  own_first := head?_toLink_scripts h
  mem_plugins id := by
    rw [mem_plugins_scripts]
    constructor
    · rintro ⟨d, hdep, hhost, hmem⟩
      exact ⟨d, hdep, hhost, scripts h d, hentries d hdep, hmem⟩
    · rintro ⟨d, hdep, hhost, depScripts, hentry, hmem⟩
      rw [hentries d hdep, Option.some.injEq] at hentry
      subst hentry
      exact ⟨d, hdep, hhost, hmem⟩

end Scripts

/-! ### The recursion computes them -/

/-- A context on the way from `cx₀`: some more scripts are noted as not run, among them those of
the units whose lists are made. -/
structure Follows (cx₀ : Context P X O) (out : Out P X) (cx : Context P X O) : Prop where
  package : cx.package = cx₀.package
  unitDependencies : cx.unitDependencies = cx₀.unitDependencies
  overrides : cx.overrides = cx₀.overrides
  buildScripts : cx.buildScripts = cx₀.buildScripts
  subset : cx₀.buildScriptOverridden ⊆ cx.buildScriptOverridden
  overridden : ∀ key ∈ cx.buildScriptOverridden, cx₀.overridden key = true
  noted : ∀ u : Unit P X, out u ≠ none → cx₀.overridden u.key = true →
    u.key ∈ cx.buildScriptOverridden

namespace Follows

variable {cx₀ cx : Context P X O} {out : Out P X} {u : Unit P X} {key : P × Kind}

omit [DecidableEq X] [Ord P] [Ord (Unit P X)]

theorem refl (cx₀ : Context P X O) : cx₀.Follows (fun _ => none) cx₀ where
  package := rfl
  unitDependencies := rfl
  overrides := rfl
  buildScripts := rfl
  subset := Finset.Subset.refl _
  overridden key hkey := by simp [Context.overridden, hkey]
  noted _ hout := absurd rfl hout

theorem override_eq (h : cx₀.Follows out cx) (key : P × Kind) :
    cx.override key = cx₀.override key := by
  rw [override, override, h.package, h.overrides]

theorem own_eq (h : cx₀.Follows out cx) (u : Unit P X) : cx.own u = cx₀.own u := by
  rw [own, own, contributes, contributes, h.package]

/-- Noting that a script is not run, if it is not. -/
theorem noteOverride (h : cx₀.Follows out cx) (key : P × Kind) :
    cx₀.Follows out (cx.noteOverride key) ∧
      cx.buildScriptOverridden ⊆ (cx.noteOverride key).buildScriptOverridden ∧
      (cx₀.overridden key = true → key ∈ (cx.noteOverride key).buildScriptOverridden) := by
  have hoverride := h.override_eq key
  unfold Context.noteOverride
  cases hkey : cx.override key with
  | none =>
    refine ⟨h, Finset.Subset.refl _, ?_⟩
    intro hover
    rw [hkey] at hoverride
    simp only [Context.overridden, ← hoverride, Option.isSome_none, Bool.or_false,
      decide_eq_true_eq] at hover
    exact h.subset hover
  | some output =>
    have hsubset : cx.buildScriptOverridden ⊆ insert key cx.buildScriptOverridden :=
      Finset.subset_insert _ _
    refine ⟨?_, hsubset, fun _ => Finset.mem_insert_self _ _⟩
    exact
      { package := h.package
        unitDependencies := h.unitDependencies
        overrides := h.overrides
        buildScripts := h.buildScripts
        subset := h.subset.trans hsubset
        overridden := by
          intro other hother
          rcases Finset.mem_insert.mp hother with rfl | hother
          · rw [Context.overridden, ← hoverride, hkey]
            exact Bool.or_true _
          · exact h.overridden other hother
        noted := fun u hout hover => hsubset (h.noted u hout hover) }

/-- One more list. -/
theorem update [DecidableEq X] (h : cx₀.Follows out cx)
    (hkey : cx₀.overridden u.key = true → u.key ∈ cx.buildScriptOverridden)
    (ret : BuildScripts P) : cx₀.Follows (Function.update out u (some ret)) cx where
  package := h.package
  unitDependencies := h.unitDependencies
  overrides := h.overrides
  buildScripts := h.buildScripts
  subset := h.subset
  overridden := h.overridden
  noted v hv hover := by
    by_cases hvu : v = u
    · subst hvu
      exact hkey hover
    · rw [Function.update_of_ne hvu] at hv
      exact h.noted v hv hover

end Follows

variable {cx₀ cx : Context P X O} {out : Out P X} {u : Unit P X}

omit [Ord P] in
/-- Once it is noted whether the script is run, the dependencies are those of the graph. -/
theorem Follows.depTargets (h : cx₀.Follows out cx)
    (hkey : cx₀.overridden u.key = true → u.key ∈ cx.buildScriptOverridden)
    (hu : u ∈ cx₀.unitDependencies) :
    cx.depTargets u = .ok ((cx₀.dependencies u).mergeSort fun a b => (compare a b).isLE) := by
  have hiff : u.key ∈ cx.buildScriptOverridden ↔ cx₀.overridden u.key = true :=
    ⟨h.overridden u.key, hkey⟩
  obtain ⟨deps, hdeps⟩ := Finmap.mem_iff.mp hu
  rw [Context.depTargets, dependencies, h.unitDependencies, hdeps]
  simp only [hiff]
  split
  · rw [List.mergeSort_nil]
  · rfl

/-- The recursion has returned `r`, and has come from `cx` to a context further on. -/
def Computed {β : Type} (cx₀ cx : Context P X O) (x : Except Panic (β × Out P X × Context P X O))
    (r : β × Out P X) : Prop :=
  ∃ cx', x = .ok (r.1, r.2, cx') ∧ cx₀.Follows r.2 cx' ∧
    cx.buildScriptOverridden ⊆ cx'.buildScriptOverridden

/-- The loop over the dependencies, if each of them is computed. -/
theorem foldlM_build (h : cx₀.WellFormed) {n : ℕ} {deps : List (Unit P X)}
    (hbuild : ∀ d ∈ deps, ∀ out cx, cx₀.Follows out cx →
      cx₀.Computed cx (build n d (out, cx)) ((dag h).compute cx₀.gather d out))
    (ret : BuildScripts P) (hcx : cx₀.Follows out cx) :
    cx₀.Computed cx
      (deps.foldlM (fun (ret, s) dep => do
        let (depScripts, s) ← build n dep s
        .ok (ret.addDep dep depScripts, s)) (ret, out, cx))
      ((deps.zip (traverse ((dag h).compute cx₀.gather) deps out).1).foldl
          (fun ret d => ret.addDep d.1 d.2) ret,
        (traverse ((dag h).compute cx₀.gather) deps out).2) := by
  induction deps generalizing ret out cx with
  | nil => exact ⟨cx, rfl, hcx, Finset.Subset.refl _⟩
  | cons dep deps ih =>
    obtain ⟨cx₁, hdep, hcx₁, hsub₁⟩ := hbuild dep List.mem_cons_self out cx hcx
    obtain ⟨cx₂, hdeps, hcx₂, hsub₂⟩ := ih (fun d hd => hbuild d (List.mem_cons_of_mem _ hd))
      (ret.addDep dep ((dag h).compute cx₀.gather dep out).1) hcx₁
    refine ⟨cx₂, ?_, hcx₂, hsub₁.trans hsub₂⟩
    rw [List.foldlM_cons]
    simp only [hdep]
    exact hdeps

/-- The recursion computes the scripts of a unit, and notes them and those of the units below. -/
theorem build_eq (h : cx₀.WellFormed) {n : ℕ} (hn : (dag h).rank u < n)
    (hu : u ∈ cx₀.unitDependencies) (hcx : cx₀.Follows out cx) :
    cx₀.Computed cx (build n u (out, cx)) ((dag h).compute cx₀.gather u out) := by
  induction n generalizing u out cx with
  | zero => omega
  | succ n ih =>
    cases hout : out u with
    | some ret =>
      rw [Dag.compute_of_some hout, build]
      simp only [hout]
      exact ⟨cx, rfl, hcx, Finset.Subset.refl _⟩
    | none =>
      obtain ⟨hcx₁, hsub₁, hkey⟩ := hcx.noteOverride u.key
      have hbelow : ∀ d ∈ cx₀.targets u, ∀ out cx, cx₀.Follows out cx →
          cx₀.Computed cx (build n d (out, cx)) ((dag h).compute cx₀.gather d out) := by
        intro d hd out cx hcx
        have hrank := (dag h).rank_lt u d hd
        exact ih (by omega) (h.closed u d (mem_targets.mp hd)) hcx
      obtain ⟨cx₂, hloop, hcx₂, hsub₂⟩ := foldlM_build h hbelow (cx₀.own u) hcx₁
      -- the unit is not below its dependencies, so its own entry is still vacant
      have hvacant : (traverse ((dag h).compute cx₀.gather) (cx₀.targets u) out).2 u = none := by
        obtain ⟨-, -, hcomputes⟩ := Dag.traverse_spec (f := (dag h).compute cx₀.gather)
          (fun d (_ : d ∈ cx₀.targets u) memo => (dag h).compute_spec cx₀.gather d memo) out
        rcases hcomputes.notes u with heq | ⟨-, -, d, hd, hbelow⟩
        · rw [heq, hout]
        · exact absurd hbelow (Dag.not_below_of_mem hd)
      refine ⟨cx₂, ?_, ?_, hsub₁.trans hsub₂⟩
      · rw [Dag.compute_of_none hout, build]
        simp only [hout]
        rw [hcx₁.own_eq]
        apply bind_eq_ok.mpr
        refine ⟨_, hcx₁.depTargets hkey hu, bind_eq_ok.mpr ⟨_, hloop, ?_⟩⟩
        simp only [hvacant]
        rfl
      · rw [Dag.compute_of_none hout]
        exact hcx₂.update (fun hover => hsub₂ (hkey hover)) _

/-- The loop over the roots. -/
theorem foldlM_roots (h : cx₀.WellFormed) {roots : List (Unit P X)}
    (hroots : ∀ u ∈ roots, u ∈ cx₀.unitDependencies) (hcx : cx₀.Follows out cx) :
    ∃ cx', roots.foldlM (fun s unit => do
        let (_, s) ← build (cx₀.unitDependencies.keys.card + 1) unit s
        .ok s) (out, cx) =
      .ok ((traverse ((dag h).compute cx₀.gather) roots out).2, cx') ∧
      cx₀.Follows (traverse ((dag h).compute cx₀.gather) roots out).2 cx' := by
  induction roots generalizing out cx with
  | nil => exact ⟨cx, rfl, hcx⟩
  | cons root roots ih =>
    have hroot := hroots root List.mem_cons_self
    have hrank : (dag h).rank root < cx₀.unitDependencies.keys.card :=
      h.acyclic.reachRank_lt_card (Finmap.mem_keys.mpr hroot)
    obtain ⟨cx₁, hbuild, hcx₁, -⟩ := build_eq h (hrank.trans (Nat.lt_succ_self _)) hroot hcx
    obtain ⟨cx₂, hrest, hcx₂⟩ := ih (fun u hu => hroots u (List.mem_cons_of_mem _ hu)) hcx₁
    refine ⟨cx₂, ?_, hcx₂⟩
    rw [List.foldlM_cons]
    simp only [hbuild]
    exact hrest

/-- Can the unit be reached from one of the roots? -/
def Reached (cx : Context P X O) (roots : List (Unit P X)) (u : Unit P X) : Prop :=
  ∃ root ∈ roots, ReflTransGen cx.DependsOn root u

omit [Ord P] [Ord (Unit P X)] in
theorem Reached.mem (h : cx.WellFormed) {roots : List (Unit P X)}
    (hroots : ∀ u ∈ roots, u ∈ cx.unitDependencies) (hu : cx.Reached roots u) :
    u ∈ cx.unitDependencies := by
  obtain ⟨root, hroot, hpath⟩ := hu
  rcases hpath.cases_tail with rfl | ⟨v, -, hstep⟩
  · exact hroots u hroot
  · exact h.closed v u hstep

/-- What is noted in the end: the scripts of the units reached, and no others. -/
theorem traverse_roots (h : cx.WellFormed) (roots : List (Unit P X)) :
    (cx.Reached roots u →
      (traverse ((dag h).compute cx.gather) roots fun _ => none).2 u = some (scripts h u)) ∧
    (¬ cx.Reached roots u →
      (traverse ((dag h).compute cx.gather) roots fun _ => none).2 u = none) := by
  obtain ⟨-, hroots, hcomputes⟩ := Dag.traverse_spec (f := (dag h).compute cx.gather)
    (fun d (_ : d ∈ roots) memo => (dag h).compute_spec cx.gather d memo) fun _ => none
  have hclosed := hcomputes.closed fun _ hsome => absurd rfl hsome
  have hnotes := hcomputes.notes u
  constructor
  · rintro ⟨root, hroot, hpath⟩
    have hsome := hclosed.below (hroots root hroot) ((below_iff h).mpr hpath)
    rcases hnotes with heq | ⟨-, heq, -⟩
    · exact absurd heq hsome
    · exact heq
  · intro hnot
    rcases hnotes with heq | ⟨-, -, root, hroot, hbelow⟩
    · exact heq
    · exact absurd ⟨root, hroot, (below_iff h).mp hbelow⟩ hnot

/-- The whole run: the units reached have their scripts, and the others what they had. From then
on, `depTargets` answers for the units reached what the graph says. -/
theorem buildMap_eq (h : cx.WellFormed) {roots : List (Unit P X)}
    (hroots : ∀ u ∈ roots, u ∈ cx.unitDependencies) :
    ∃ cx', buildMap cx roots = .ok cx' ∧
      (∀ u, cx.Reached roots u → cx'.buildScripts u = some (scripts h u) ∧
        cx'.depTargets u = .ok ((cx.dependencies u).mergeSort fun a b => (compare a b).isLE)) ∧
      ∀ u, ¬ cx.Reached roots u → cx'.buildScripts u = cx.buildScripts u := by
  obtain ⟨cx', hrun, hcx'⟩ := foldlM_roots h hroots (Follows.refl cx)
  refine ⟨_, bind_eq_ok.mpr ⟨_, hrun, rfl⟩, ?_, ?_⟩
  · intro u hu
    have hnoted := (traverse_roots h roots).1 hu
    constructor
    · simp only [hnoted, Option.some_or]
    · apply hcx'.depTargets _ (hu.mem h hroots)
      apply hcx'.noted u
      rw [hnoted]
      simp
  · intro u hu
    simp only [(traverse_roots h roots).2 hu, Option.none_or, hcx'.buildScripts]

end Context

/-- On an acyclic graph of units, the run ends with the scripts of each unit that can be reached
from the roots: without repetition, those of the packages that are linked into the unit, its own
before the others, and apart from these the packages of what runs on the host. They are the same
for all lists of the same roots. -/
theorem buildMap_propagates (cx : Context P X O) (h : cx.WellFormed) (roots : List (Unit P X))
    (hroots : ∀ u ∈ roots, u ∈ cx.unitDependencies) :
    ∃ cx', buildMap cx roots = .ok cx' ∧
      (∀ u, cx.Reached roots u → ∃ ret deps, cx'.buildScripts u = some ret ∧
        cx.Propagated cx'.buildScripts u ret ∧
        cx'.depTargets u = .ok deps ∧ ∀ d, d ∈ deps ↔ cx.DependsOn u d) ∧
      ∀ roots', (∀ u, u ∈ roots' ↔ u ∈ roots) →
        ∃ cx'', buildMap cx roots' = .ok cx'' ∧ cx''.buildScripts = cx'.buildScripts := by
  obtain ⟨cx', hrun, hreached, hother⟩ := Context.buildMap_eq h hroots
  refine ⟨cx', hrun, ?_, ?_⟩
  · intro u hu
    obtain ⟨hret, hdeps⟩ := hreached u hu
    refine ⟨_, _, hret, Context.propagated_scripts h ?_, hdeps, fun d => List.mem_mergeSort⟩
    intro d hd
    obtain ⟨root, hroot, hpath⟩ := hu
    exact (hreached d ⟨root, hroot, hpath.tail hd⟩).1
  · intro roots' hsame
    have hroots' : ∀ u ∈ roots', u ∈ cx.unitDependencies := fun u hu => hroots u ((hsame u).mp hu)
    obtain ⟨cx'', hrun', hreached', hother'⟩ := Context.buildMap_eq h hroots'
    have hiff : ∀ u, cx.Reached roots' u ↔ cx.Reached roots u := by
      intro u
      simp only [Context.Reached, hsame]
    refine ⟨cx'', hrun', ?_⟩
    funext u
    by_cases hu : cx.Reached roots u
    · rw [(hreached u hu).1, (hreached' u ((hiff u).mpr hu)).1]
    · rw [hother u hu, hother' u (mt (hiff u).mp hu)]

/-! ### A program with a native library -/

/-- Units of packages with numbers for ids, told apart by what their targets are called. -/
abbrev SampleUnit := Unit ℕ Bool

instance : Ord SampleUnit := ⟨fun a b => compare a.target.name b.target.name⟩

/-- A program that links the library of the package `1`, whose build script finds the native
library. -/
def appBin : SampleUnit := ⟨0, ⟨"app", .bin, false⟩, .target, true⟩

def sysLib : SampleUnit := ⟨1, ⟨"sys", .lib [.lib], false⟩, .target, true⟩

def sysScript : SampleUnit := ⟨1, ⟨"build-script-build", .customBuild, true⟩, .host, true⟩

def sampleEntries : List (Σ _ : SampleUnit, List SampleUnit) :=
  [⟨appBin, [sysLib]⟩, ⟨sysLib, [sysScript]⟩, ⟨sysScript, []⟩]

def sample : Context ℕ Bool String where
  package id :=
    if id = 1 then ⟨some "sys", [sysLib.target, sysScript.target]⟩ else ⟨none, [appBin.target]⟩
  unitDependencies := sampleEntries.toFinmap
  overrides _ := none
  outputs _ := none
  buildScriptOverridden := ∅
  buildScripts _ := none

theorem dependsOn_sample {u d : SampleUnit} (h : sample.DependsOn u d) :
    u = appBin ∧ d = sysLib ∨ u = sysLib ∧ d = sysScript := by
  unfold Context.DependsOn Context.dependencies at h
  split at h
  · cases h
  · change d ∈ (sampleEntries.toFinmap.lookup u).getD [] at h
    rw [Finmap.dlookup_list_toFinmap] at h
    cases hdeps : sampleEntries.dlookup u with
    | none =>
      rw [hdeps] at h
      cases h
    | some deps =>
      have hmem := List.of_mem_dlookup hdeps
      rw [hdeps] at h
      simp only [sampleEntries, List.mem_cons, Sigma.mk.injEq, heq_eq_eq, List.not_mem_nil,
        or_false] at hmem
      rcases hmem with ⟨rfl, rfl⟩ | ⟨rfl, rfl⟩ | ⟨rfl, rfl⟩
      · exact .inl ⟨rfl, List.mem_singleton.mp h⟩
      · exact .inr ⟨rfl, List.mem_singleton.mp h⟩
      · cases h

theorem sample_wellFormed : sample.WellFormed where
  acyclic := by
    apply acyclic_of_rank fun u => if u = appBin then 2 else if u = sysLib then 1 else 0
    intro u d h
    rcases dependsOn_sample h with ⟨rfl, rfl⟩ | ⟨rfl, rfl⟩ <;> decide
  closed u d h := by
    rcases dependsOn_sample h with ⟨-, rfl⟩ | ⟨-, rfl⟩ <;> decide

theorem sample_links : sample.Links appBin sysLib := by
  refine ⟨?_, rfl, rfl⟩
  unfold Context.DependsOn
  decide

/-- The output of the build script counts for the program. -/
theorem app_links_sys : ∃ cx', buildMap sample [appBin] = .ok cx' ∧
    ∃ ret, cx'.buildScripts appBin = some ret ∧ (1, Kind.target) ∈ ret.toLink := by
  obtain ⟨cx', hrun, hreached, -⟩ :=
    buildMap_propagates sample sample_wellFormed [appBin] (by decide)
  have hroot : sample.Reached [appBin] appBin := ⟨appBin, List.mem_singleton_self _, .refl⟩
  obtain ⟨ret, -, hret, hpropagated, -⟩ := hreached appBin hroot
  refine ⟨cx', hrun, ret, hret, ?_⟩
  apply (hpropagated.mem_toLink 1 .target).mpr
  exact ⟨sysLib, .single sample_links, rfl, rfl, rfl⟩

end Cargo.Compiler.CustomBuild
