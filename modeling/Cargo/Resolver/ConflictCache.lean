import Cargo.Resolver.Context

/-!
# The cache of past conflicts

Each time the search backtracks it notes which packages kept a dependency from being
activated. An entry `(dep, con)` reads: no candidate for `dep` can be found while all
packages of `con` are active.

## Main definitions

* `ConflictCache`, `ConflictCache.findConflicting`, `ConflictCache.insert`
* `ConflictCache.Mem` — the entries of the cache
-/

set_option autoImplicit false

namespace Cargo.Resolver

open Cargo.Core Cargo.Math

variable {S R : Type}

/-- The cache, indexed by the dependency and by the packages to blame. -/
structure ConflictCache (S R : Type) where
  conFromDep : Finmap fun _ : Dependency S R => List (Conflicts S)
  depFromPid : Finmap fun _ : PackageId S => Finset (Dependency S R)

namespace ConflictCache

variable [DecidableEq S] [DecidableEq R]

/-- Nothing is known yet. -/
def new : ConflictCache S R := ⟨∅, ∅⟩

/-- The conflicts recorded for a dependency. -/
def past (self : ConflictCache S R) (dep : Dependency S R) : List (Conflicts S) :=
  (self.conFromDep.lookup dep).getD []

/-- A set of conflicts that passes the filter and all of whose packages are active. -/
def findConflicting (self : ConflictCache S R) (cx : Context S R) (dep : Dependency S R)
    (filter : Conflicts S → Bool) : Option (Conflicts S) :=
  ((self.past dep).filter filter).find? fun con => cx.isConflicting none con

/-- A set of conflicts all of whose packages are active. -/
def conflicting (self : ConflictCache S R) (cx : Context S R) (dep : Dependency S R) :
    Option (Conflicts S) :=
  self.findConflicting cx dep fun _ => true

/-- Note that `dep` is blamed on the packages of `con`. -/
def insert (ho : SetOrder (PackageId S)) (self : ConflictCache S R) (dep : Dependency S R)
    (con : Conflicts S) : ConflictCache S R :=
  if con ∈ self.past dep then self
  else
    { conFromDep := self.conFromDep.insert dep (self.past dep ++ [con])
      depFromPid := (ho.enum con.keys).foldl
        (fun map pid => map.insert pid (Insert.insert dep ((map.lookup pid).getD ∅)))
        self.depFromPid }

/-- The dependencies that are blamed on a package, among others. -/
def dependenciesConflictingWith (self : ConflictCache S R) (pid : PackageId S) :
    Option (Finset (Dependency S R)) :=
  self.depFromPid.lookup pid

/-- `con` is recorded for `dep`. -/
def Mem (self : ConflictCache S R) (dep : Dependency S R) (con : Conflicts S) : Prop :=
  con ∈ self.past dep

theorem mem_insert {ho : SetOrder (PackageId S)} {self : ConflictCache S R}
    {dep dep' : Dependency S R} {con con' : Conflicts S} :
    (self.insert ho dep con).Mem dep' con' ↔ self.Mem dep' con' ∨ dep' = dep ∧ con' = con := by
  unfold insert
  split
  · rename_i hmem
    constructor
    · exact Or.inl
    · rintro (h | ⟨rfl, rfl⟩)
      · exact h
      · exact hmem
  · by_cases hdep : dep' = dep
    · subst hdep
      simp [Mem, past]
    · simp [Mem, past, Finmap.lookup_insert_of_ne _ hdep, hdep]

/-- What a lookup returns is recorded and active. -/
theorem findConflicting_eq_some {self : ConflictCache S R} {cx : Context S R}
    {dep : Dependency S R} {filter : Conflicts S → Bool} {con : Conflicts S}
    (h : self.findConflicting cx dep filter = some con) :
    self.Mem dep con ∧ filter con = true ∧ ∀ id ∈ con.keys, cx.isActive id = true := by
  have hmem := List.mem_filter.mp (List.mem_of_find?_eq_some h)
  have hactive := List.find?_some h
  refine ⟨hmem.1, hmem.2, ?_⟩
  simpa [Context.isConflicting] using hactive

end ConflictCache

end Cargo.Resolver
