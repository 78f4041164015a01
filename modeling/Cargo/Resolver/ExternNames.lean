import Cargo.Resolver.Resolve

/-!
# Names of extern crates

The compiler is told under which name a package knows each of its dependencies. The edges of
the graph lead to the packages before replacement, and `deps` follows the replacements; so the
edge behind a pair that `deps` gives has to be found again, which is done through the inverse
of the replacement map. The inverse keeps one package where several are replaced by the same.

## Main definitions

* `Resolve.reverseReplacements`, `Resolve.deps`
* `Resolve.dependenciesListed`, `Resolve.externCrateName`
* `Resolve.NamesOwnEdges` — the name of each dependency comes from its own edge
* `Resolve.Retraceable` — every edge can be found again

## Main results

* `namesOwnEdges_iff` — the edges are found again exactly if they are retraceable
-/

set_option autoImplicit false

namespace Cargo.Resolver

open Cargo.Core Cargo.Math Cargo.Util

variable {S R : Type} [DecidableEq S]

namespace Resolve

/-- The replacement map inverted, as `Resolve::new` does it. Of several packages with one
replacement the one that iterating over the map meets last is kept. -/
def reverseReplacements (ho : HashOrder (PackageId S)) (r : Resolve S R) :
    Finmap fun _ : PackageId S => PackageId S :=
  (ho.enum r.replacements.keys).foldl
    (fun map replaced =>
      match r.replacements.lookup replaced with
      | some replacement => map.insert replacement replaced
      | none => map)
    ∅

/-- Where an edge leads, with replacements applied. -/
def target (r : Resolve S R) (id : PackageId S) : PackageId S := (r.replacement id).getD id

/-- The dependencies of a package, each with the list of the edge it comes from. -/
def deps (ho : HashOrder (PackageId S)) (r : Resolve S R) (pkg : PackageId S) :
    List (PackageId S × List (Dependency S R)) :=
  ((ho.of pkg).enum (r.graph.edges pkg).keys).filterMap fun id =>
    (r.graph.edge pkg id).map fun listed => (r.target id, listed)

/-- Why there is no name. -/
inductive NameError (S : Type)
  /-- `panic!("no Dependency listed")` -/
  | notListed (source target : PackageId S)
  /-- "multiple dependencies listed for the same crate must all have the same name". -/
  | differentNames (target : PackageId S)
  deriving DecidableEq

/-- The list of the edge between two packages. If the second is a replacement, the edge is
looked for at what it replaces first. -/
def dependenciesListed (ho : HashOrder (PackageId S)) (r : Resolve S R)
    (source target : PackageId S) : Except (NameError S) (List (Dependency S R)) :=
  match ((r.reverseReplacements ho).lookup target).bind (r.graph.edge source) with
  | some deps => .ok deps
  | none =>
    match r.graph.edge source target with
    | some deps => .ok deps
    | none => .error (.notListed source target)

/-- The list that a name is taken from. A package knows itself by its own name. -/
def consulted (ho : HashOrder (PackageId S)) (r : Resolve S R) (source target : PackageId S) :
    Except (NameError S) (List (Dependency S R)) :=
  if source = target then .ok [] else r.dependenciesListed ho source target

/-- A name with its hyphens replaced. -/
def underscored (name : String) : String := name.map fun c => if c = '-' then '_' else c

/-- The name under which `source` knows the target `toTarget` of the package `target`. -/
def externCrateName (ho : HashOrder (PackageId S)) (r : Resolve S R)
    (source target : PackageId S) (toTarget : String) : Except (NameError S) String := do
  let deps ← r.consulted ho source target
  let crateName := underscored toTarget
  let names := deps.map fun d => (d.explicitNameInToml.map underscored).getD crateName
  let name := names.headD crateName
  if names.tail.all (· = name) then .ok name else .error (.differentNames target)

/-- For every dependency that `deps` gives, the name is looked up without a panic, and in the
list of its own edge. -/
def NamesOwnEdges (ho : HashOrder (PackageId S)) (r : Resolve S R) : Prop :=
  ∀ p q listed, (q, listed) ∈ r.deps ho p →
    r.consulted ho p q = .ok listed ∧
      ∀ toTarget s t, r.externCrateName ho p q toTarget ≠ .error (.notListed s t)

/-- The package that the inverted map keeps for a replacement. -/
def kept (ho : HashOrder (PackageId S)) (r : Resolve S R) (replacement : PackageId S) :
    Option (PackageId S) :=
  ((ho.enum r.replacements.keys).filter fun id => r.replacement id = some replacement).getLast?

/-- The edges of a package can be told from where they lead. -/
structure Retraceable (ho : HashOrder (PackageId S)) (r : Resolve S R) : Prop where
  /-- An edge that leads back to its package lists nothing. -/
  loops : ∀ p id listed, r.graph.edge p id = some listed → r.target id = p → listed = []
  /-- Edges of a package that lead to the same other package list the same. -/
  alike : ∀ p id id' listed listed', r.graph.edge p id = some listed →
    r.graph.edge p id' = some listed' → r.target id = r.target id' → r.target id ≠ p →
    listed = listed'
  /-- The package has an edge to what is kept for the replacement, or one with the same list
  to the replacement itself. -/
  found : ∀ p id listed, r.graph.edge p id = some listed → r.target id ≠ p →
    (∃ k, r.kept ho (r.target id) = some k ∧ (r.graph.edge p k).isSome) ∨
      r.graph.edge p (r.target id) = some listed

/-! ### The inverted map -/

variable {ho : HashOrder (PackageId S)} {r : Resolve S R}

theorem lookup_reverseReplacements (q : PackageId S) :
    (r.reverseReplacements ho).lookup q = r.kept ho q := by
  suffices hgen : ∀ (ids : List (PackageId S)) (map : Finmap fun _ : PackageId S => PackageId S),
      (ids.foldl (fun map replaced =>
        match r.replacements.lookup replaced with
        | some replacement => map.insert replacement replaced
        | none => map) map).lookup q =
      (ids.filter fun id => r.replacement id = some q).getLast?.or (map.lookup q) by
    rw [reverseReplacements, hgen, Finmap.lookup_empty, Option.or_none, kept]
  intro ids
  induction ids with
  | nil => exact fun map => rfl
  | cons id ids ih =>
    intro map
    rw [List.foldl_cons, ih, List.filter_cons]
    generalize List.filter _ ids = later
    cases hid : r.replacements.lookup id with
    | none => simp [replacement, hid]
    | some q' =>
      by_cases hq : q = q'
      · subst hq
        simp only [Finmap.lookup_insert, replacement, hid, decide_true, if_true,
          List.getLast?_cons]
        -- a later package with this replacement is the one that is kept
        cases later.getLast? with
        | none => rfl
        | some last => rfl
      · have hq' : ¬some q' = some q := fun h => hq (Option.some.inj h).symm
        simp only [Finmap.lookup_insert_of_ne _ hq, replacement, hid, hq', decide_false,
          Bool.false_eq_true, if_false]

/-- What is kept for a replacement is replaced by it. -/
theorem target_of_kept {q k : PackageId S} (h : r.kept ho q = some k) : r.target k = q := by
  have hmem := List.mem_of_getLast? h
  rw [List.mem_filter, decide_eq_true_eq] at hmem
  rw [target, hmem.2, Option.getD_some]

theorem mem_deps {p q : PackageId S} {listed : List (Dependency S R)} :
    (q, listed) ∈ r.deps ho p ↔ ∃ id, r.graph.edge p id = some listed ∧ r.target id = q := by
  rw [deps, List.mem_filterMap]
  constructor
  · rintro ⟨id, -, hid⟩
    obtain ⟨listed', hedge, heq⟩ := Option.map_eq_some_iff.mp hid
    cases heq
    exact ⟨id, hedge, rfl⟩
  · rintro ⟨id, hedge, rfl⟩
    have hmem : id ∈ r.graph.edges p := Finmap.mem_of_lookup_eq_some hedge
    exact ⟨id, by rw [SetOrder.mem_enum, Finmap.mem_keys]; exact hmem,
      by rw [hedge, Option.map_some]⟩

/-- Between two packages the list is taken from the edge to what is kept, if there is one. -/
theorem consulted_of_ne {p q : PackageId S} (hpq : p ≠ q) :
    r.consulted ho p q =
      match (r.kept ho q).bind (r.graph.edge p) with
      | some listed => .ok listed
      | none =>
        match r.graph.edge p q with
        | some listed => .ok listed
        | none => .error (.notListed p q) := by
  rw [consulted, if_neg hpq, dependenciesListed, lookup_reverseReplacements]

theorem externCrateName_ne {p q : PackageId S} {listed : List (Dependency S R)}
    (h : r.consulted ho p q = .ok listed) (toTarget : String) (s t : PackageId S) :
    r.externCrateName ho p q toTarget ≠ .error (.notListed s t) := by
  intro herror
  simp only [externCrateName, h, bind, Except.bind] at herror
  split at herror <;> cases herror

/-- The names come from the edges they belong to exactly if the edges are retraceable. -/
theorem namesOwnEdges_iff (ho : HashOrder (PackageId S)) (r : Resolve S R) :
    r.NamesOwnEdges ho ↔ r.Retraceable ho := by
  constructor
  · intro h
    have hown : ∀ p id listed, r.graph.edge p id = some listed →
        r.consulted ho p (r.target id) = .ok listed :=
      fun p id listed hedge => (h p _ listed (mem_deps.mpr ⟨id, hedge, rfl⟩)).1
    refine ⟨?_, ?_, ?_⟩
    · intro p id listed hedge hloop
      have hself := hown p id listed hedge
      rw [hloop, consulted, if_pos rfl, Except.ok.injEq] at hself
      exact hself.symm
    · intro p id id' listed listed' hedge hedge' heq _
      have hself := hown p id listed hedge
      rw [heq, hown p id' listed' hedge', Except.ok.injEq] at hself
      exact hself.symm
    · intro p id listed hedge hne
      have hself := hown p id listed hedge
      rw [consulted_of_ne hne.symm] at hself
      cases hkept : (r.kept ho (r.target id)).bind (r.graph.edge p) with
      | some listed' =>
        obtain ⟨k, hk, hedge'⟩ := Option.bind_eq_some_iff.mp hkept
        exact .inl ⟨k, hk, by rw [hedge']; rfl⟩
      | none =>
        right
        rw [hkept] at hself
        cases hdirect : r.graph.edge p (r.target id) with
        | none =>
          rw [hdirect] at hself
          cases hself
        | some listed' =>
          rw [hdirect] at hself
          cases hself
          rfl
  · intro h p q listed hmem
    suffices hcons : r.consulted ho p q = .ok listed from ⟨hcons, externCrateName_ne hcons⟩
    obtain ⟨id, hedge, rfl⟩ := mem_deps.mp hmem
    by_cases hloop : r.target id = p
    · rw [consulted, if_pos hloop.symm, h.loops p id listed hedge hloop]
    rw [consulted_of_ne (Ne.symm hloop)]
    cases hkept : (r.kept ho (r.target id)).bind (r.graph.edge p) with
    | some listed' =>
      -- the edge to what is kept leads to the same package
      obtain ⟨k, hk, hedge'⟩ := Option.bind_eq_some_iff.mp hkept
      rw [h.alike p id k listed listed' hedge hedge' (target_of_kept hk).symm hloop]
    | none =>
      rcases h.found p id listed hedge hloop with ⟨k, hk, hedge'⟩ | hdirect
      · rw [hk, Option.bind_some] at hkept
        rw [hkept] at hedge'
        cases hedge'
      · simp only [hdirect]

/-! ### Two packages with one replacement -/

/-- A package of the sample, by the number of its source. -/
def sampleId (name : String) (source : ℕ) : PackageId ℕ := ⟨name, ⟨1, 0, 0, []⟩, source⟩

/-- Both `a` and `b` depend on `log`, from the sources 1 and 2; the copy from source 3 replaces
either. -/
def twoSources : Resolve ℕ (List Version) where
  graph := ⟨(Finmap.singleton (sampleId "a" 0)
      (Finmap.singleton (sampleId "log" 1) [Dependency.parse "log" [⟨1, 0, 0, []⟩] 1])).insert
    (sampleId "b" 0)
      (Finmap.singleton (sampleId "log" 2) [Dependency.parse "log" [⟨1, 0, 0, []⟩] 2])⟩
  replacements := (Finmap.singleton (sampleId "log" 1) (sampleId "log" 3)).insert
    (sampleId "log" 2) (sampleId "log" 3)
  features := ∅
  checksums := ∅
  metadata := ∅
  unusedPatches := []

/-- In whichever order the replacements are met, one of the packages is not found again. -/
theorem twoSources_not_namesOwnEdges : ¬∃ ho, twoSources.NamesOwnEdges ho := by
  rintro ⟨ho, h⟩
  have ha : twoSources.graph.edge (sampleId "a" 0) (sampleId "log" 1) =
      some [Dependency.parse "log" [⟨1, 0, 0, []⟩] 1] := by decide
  have hb : twoSources.graph.edge (sampleId "b" 0) (sampleId "log" 2) =
      some [Dependency.parse "log" [⟨1, 0, 0, []⟩] 2] := by decide
  have htarget : twoSources.target (sampleId "log" 1) = sampleId "log" 3 := by decide
  have htarget' : twoSources.target (sampleId "log" 2) = sampleId "log" 3 := by decide
  have hretraceable := (namesOwnEdges_iff ho twoSources).mp h
  -- neither package has an edge to the replacement, so what is kept is a dependency of both
  have hdirect : twoSources.graph.edge (sampleId "a" 0) (sampleId "log" 3) = none := by decide
  have hdirect' : twoSources.graph.edge (sampleId "b" 0) (sampleId "log" 3) = none := by decide
  rcases hretraceable.found _ _ _ ha (by rw [htarget]; decide) with ⟨k, hk, hka⟩ | hfound
  · rcases hretraceable.found _ _ _ hb (by rw [htarget']; decide) with ⟨k', hk', hkb⟩ | hfound
    · rw [htarget] at hk
      rw [htarget', hk, Option.some.injEq] at hk'
      subst hk'
      -- the packages have no dependency in common
      have hcommon : ∀ id, (twoSources.graph.edge (sampleId "a" 0) id).isSome →
          twoSources.graph.edge (sampleId "b" 0) id = none := by
        intro id hid
        have hedges : twoSources.graph.edges (sampleId "a" 0) = Finmap.singleton
            (sampleId "log" 1) [Dependency.parse "log" [⟨1, 0, 0, []⟩] 1] := by decide
        have hlog : id = sampleId "log" 1 := by
          rw [← Finmap.mem_singleton, ← hedges, ← Finmap.lookup_isSome]
          exact hid
        rw [hlog]
        decide
      rw [hcommon k hka] at hkb
      cases hkb
    · rw [htarget', hdirect'] at hfound
      cases hfound
  · rw [htarget, hdirect] at hfound
    cases hfound

end Resolve

end Cargo.Resolver
