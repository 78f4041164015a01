import Mathlib.Data.Finmap
import Cargo.Core.IdOrder
import Cargo.Core.Summary
import Cargo.Math.Iteration

/-!
# Locking summaries

What a lock file holds reaches the resolver through the summaries: before the registry hands
out a summary, each dependency that the lock file has an answer for is narrowed down to that
answer. Three tables are asked in turn: the dependencies that the lock file lists for the
package itself, all packages of the lock file with the source and name of the dependency, and
the patches registered for the url of its source.

## Main definitions

* `LockedMap`, `Patches` — what is locked, and which patches are available
* `lockTo`, `lockDependency`, `lock` — locking one dependency, and a summary
* `LockedFrom` — what locking may make of a dependency
* `Lockable` — the dependencies that are locked without a panic

## Main results

* `lock_faithful_iff` — locking is faithful to the tables, exactly when each dependency is
  lockable
-/

set_option autoImplicit false

namespace Cargo.Core

open Cargo.Math

/-- Requirements that a single version fulfils can be made. -/
class ExactReq (R : Type) extends VersionReq R where
  /-- `VersionReq::exact`. -/
  exact : Version → R
  accepts_exact : ∀ v w, accepts (exact v) w = true ↔ w = v

instance listExactReq : ExactReq (List Version) where
  exact v := [v]
  accepts_exact v w := by simp [VersionReq.accepts]

namespace Registry

variable {crate : UrlCrate} {R : Type}

/-- Packages that are locked, by source and name, each with what its dependencies are locked
to. Sources are compared by their own equality, so no two of the keys are equal. -/
structure LockedMap (crate : UrlCrate) where
  entries : List (SourceId crate × Finmap fun _ : String =>
    List (PackageId (SourceId crate) × List (PackageId (SourceId crate))))
  distinct : entries.Pairwise fun a b => ¬a.1.eq b.1

/-- The packages that can stand in for those of a registry, by its url. -/
abbrev Patches (crate : UrlCrate) := Finmap fun _ : Url => List (PackageId (SourceId crate))

/-- The panics of `lock`. -/
inductive LockPanic
  /-- `assert_eq!(self.inner.source_id, *id.source_id())`. -/
  | sourceDiffers
  /-- `assert!(self.inner.req.matches(id.version()))`. -/
  | versionRefused
  /-- `assert!(remaining.next().is_none())`. -/
  | patchRemains
  deriving DecidableEq, Repr

/-- What is locked with this source and name. -/
def LockedMap.get (locked : LockedMap crate) (source : SourceId crate) (name : String) :
    List (PackageId (SourceId crate) × List (PackageId (SourceId crate))) :=
  match locked.entries.find? fun entry => entry.1.eq source with
  | some (_, map) => (map.lookup name).getD []
  | none => []

/-- The entry of a package. -/
def LockedMap.pair (locked : LockedMap crate) (id : PackageId (SourceId crate)) :
    Option (PackageId (SourceId crate) × List (PackageId (SourceId crate))) :=
  (locked.get id.sourceId id.name).find? fun entry => entry.1.eq id

/-- `matches_id`, with the equality of sources. -/
def matchesId [VersionReq R] (dep : Dependency (SourceId crate) R)
    (id : PackageId (SourceId crate)) : Bool :=
  decide (dep.name = id.name) &&
    (dep.onlyMatchName ||
      (VersionReq.accepts dep.req id.version && dep.sourceId.eq id.sourceId))

/-- Whether a patch is locked itself. -/
def LockedMap.hasPatch (locked : LockedMap crate) (patch : PackageId (SourceId crate)) : Bool :=
  (locked.get patch.sourceId patch.name).any fun entry => entry.1.eq patch

/-- What is locked for a dependency: what the entry of its package lists, then what has its
source and name. -/
def candidates (locked : LockedMap crate)
    (pair : Option (PackageId (SourceId crate) × List (PackageId (SourceId crate))))
    (dep : Dependency (SourceId crate) R) : List (PackageId (SourceId crate)) :=
  (pair.map Prod.snd).getD [] ++ (locked.get dep.sourceId dep.name).map Prod.fst

/-- The patches that a dependency would take. -/
def patchesFor [VersionReq R] (patches : Patches crate) (dep : Dependency (SourceId crate) R) :
    List (PackageId (SourceId crate)) :=
  ((patches.lookup dep.sourceId.url).getD []).filter dep.matchesIgnoringSource

section Lookup

variable {locked : LockedMap crate}
  {pair : Option (PackageId (SourceId crate) × List (PackageId (SourceId crate)))}
  {dep dep' : Dependency (SourceId crate) R} {id : PackageId (SourceId crate)}

theorem matchesId_iff [VersionReq R] : matchesId dep id = true ↔ dep.name = id.name ∧
    (dep.onlyMatchName = true ∨
      VersionReq.accepts dep.req id.version = true ∧ dep.sourceId.eq id.sourceId = true) := by
  simp [matchesId]

/-- Among the elements that pass a stronger test, the first one to pass the weaker one is still
the first if it passes the stronger one. -/
theorem find?_of_imp {α : Type} {p q : α → Bool} {l : List α} {a : α} (hfind : l.find? p = some a)
    (ha : q a = true) (himp : ∀ b, q b = true → p b = true) : l.find? q = some a := by
  obtain ⟨-, front, back, rfl, hfront⟩ := List.find?_eq_some_iff_append.mp hfind
  refine List.find?_eq_some_iff_append.mpr ⟨ha, front, back, rfl, ?_⟩
  intro b hb
  have hpb := hfront b hb
  cases hqb : q b with
  | false => rfl
  | true =>
    rw [himp b hqb] at hpb
    cases hpb

theorem LockedMap.get_congr {source source' : SourceId crate} (h : source.eq source')
    (name : String) : locked.get source name = locked.get source' name := by
  have hkey : (fun entry : SourceId crate × Finmap fun _ : String => List
      (PackageId (SourceId crate) × List (PackageId (SourceId crate))) => entry.1.eq source) =
      fun entry => entry.1.eq source' := by
    funext entry
    rw [Bool.eq_iff_iff]
    exact ⟨fun he => SourceId.eq_trans he h, fun he => SourceId.eq_trans he (SourceId.eq_symm h)⟩
  rw [get, get, hkey]

/-- A locked package has its own entry. -/
theorem LockedMap.pair_of_pair
    {entry : PackageId (SourceId crate) × List (PackageId (SourceId crate))}
    (h : locked.pair id = some entry) : locked.pair entry.1 = some entry := by
  have heq : entry.1.eq id = true := (List.find?_eq_some_iff_append.mp h).1
  obtain ⟨hname, hversion, hsource⟩ := (PackageId.eq_iff _ _).mp heq
  rw [pair, LockedMap.get_congr hsource, hname]
  refine find?_of_imp h ((PackageId.eq_iff _ _).mpr ⟨rfl, rfl, SourceId.eq_refl _⟩) ?_
  intro other hother
  obtain ⟨hname', hversion', hsource'⟩ := (PackageId.eq_iff _ _).mp hother
  exact (PackageId.eq_iff _ _).mpr
    ⟨hname'.trans hname, hversion'.trans hversion, SourceId.eq_trans hsource' hsource⟩

/-- What is locked for a dependency does not depend on the precise source, nor on the
requirement. -/
theorem candidates_congr (hname : dep'.name = dep.name) (hsource : dep.sourceId.eq dep'.sourceId) :
    candidates locked pair dep' = candidates locked pair dep := by
  rw [candidates, candidates, hname, LockedMap.get_congr hsource]

end Lookup

/-! ### Locking -/

variable [ExactReq R]

/-- `set_version_req`. -/
def setVersionReq (dep : Dependency (SourceId crate) R) (req : R) :
    Dependency (SourceId crate) R := { dep with req := req }

/-- `set_source_id`. -/
def setSourceId (dep : Dependency (SourceId crate) R) (source : SourceId crate) :
    Dependency (SourceId crate) R := { dep with sourceId := source }

/-- Lock a dependency to depending on the given package. -/
def lockTo (dep : Dependency (SourceId crate) R) (id : PackageId (SourceId crate)) :
    Except LockPanic (Dependency (SourceId crate) R) :=
  if dep.sourceId.eq id.sourceId then
    if VersionReq.accepts dep.req id.version then
      .ok (setSourceId (setVersionReq dep (ExactReq.exact id.version)) id.sourceId)
    else .error .versionRefused
  else .error .sourceDiffers

/-- One dependency of a summary that has the entry `pair`. -/
def lockDependency (locked : LockedMap crate) (patches : Patches crate)
    (pair : Option (PackageId (SourceId crate) × List (PackageId (SourceId crate))))
    (dep : Dependency (SourceId crate) R) :
    Except LockPanic (Dependency (SourceId crate) R) :=
  -- what the package was locked with comes first
  match pair.bind fun entry => entry.2.find? (matchesId dep) with
  | some id => lockTo dep id
  | none =>
    -- then any locked package that matches
    match (locked.get dep.sourceId dep.name).find? fun entry => matchesId dep entry.1 with
    | some (id, _) => lockTo dep id
    | none =>
      -- then a patch of its source, if that is locked
      match ((patches.lookup dep.sourceId.url).getD []).filter dep.matchesIgnoringSource with
      | [] => .ok dep
      | [patch] =>
        if locked.hasPatch patch then .ok (setVersionReq dep (ExactReq.exact patch.version))
        else .ok dep
      | _ :: _ :: _ => .error .patchRemains

/-! ### What is made of a dependency -/

/-- A dependency before and after locking. It stays as it is, or it is narrowed down to the
version of one package: to a locked one with its name and its source, and then to that
package's precise source, or to a locked patch for the url of its source. -/
inductive LockedFrom (locked : LockedMap crate) (patches : Patches crate)
    (pair : Option (PackageId (SourceId crate) × List (PackageId (SourceId crate))))
    (dep : Dependency (SourceId crate) R) : Dependency (SourceId crate) R → Prop
  | unchanged : LockedFrom locked patches pair dep dep
  | toLocked (id : PackageId (SourceId crate)) (hid : id ∈ candidates locked pair dep)
      (hname : dep.name = id.name) (hsource : dep.sourceId.eq id.sourceId)
      (haccepts : VersionReq.accepts dep.req id.version = true) :
      LockedFrom locked patches pair dep
        (setSourceId (setVersionReq dep (ExactReq.exact id.version)) id.sourceId)
  | toPatch (id : PackageId (SourceId crate))
      (hid : id ∈ (patches.lookup dep.sourceId.url).getD [])
      (hname : dep.name = id.name) (haccepts : VersionReq.accepts dep.req id.version = true)
      (hlocked : ∃ entry ∈ locked.get id.sourceId id.name, entry.1.eq id) :
      LockedFrom locked patches pair dep (setVersionReq dep (ExactReq.exact id.version))

/-- The dependencies that are locked without a panic. A dependency that goes by name alone
meets first a package with its source and a version it accepts; and a dependency that nothing
is locked for has one patch at most. -/
structure Lockable (locked : LockedMap crate) (patches : Patches crate)
    (pair : Option (PackageId (SourceId crate) × List (PackageId (SourceId crate))))
    (dep : Dependency (SourceId crate) R) : Prop where
  first_named : dep.onlyMatchName = true → ∀ id,
    (candidates locked pair dep).find? (fun id => decide (dep.name = id.name)) = some id →
      dep.sourceId.eq id.sourceId ∧ VersionReq.accepts dep.req id.version = true
  one_patch : (∀ id ∈ candidates locked pair dep, matchesId dep id = false) →
    (patchesFor patches dep).length ≤ 1

section Locking

variable {locked : LockedMap crate} {patches : Patches crate}
  {pair : Option (PackageId (SourceId crate) × List (PackageId (SourceId crate)))}
  {dep dep' : Dependency (SourceId crate) R} {id : PackageId (SourceId crate)}

theorem lockTo_eq_ok : lockTo dep id = .ok dep' ↔
    dep.sourceId.eq id.sourceId ∧ VersionReq.accepts dep.req id.version = true ∧
      dep' = setSourceId (setVersionReq dep (ExactReq.exact id.version)) id.sourceId := by
  unfold lockTo
  split
  · rename_i hsource
    split
    · rename_i haccepts
      simp [hsource, haccepts, eq_comm]
    · rename_i haccepts
      simp [haccepts]
  · rename_i hsource
    simp [hsource]

/-- The first two tables are asked as one. -/
theorem lockDependency_eq : lockDependency locked patches pair dep =
    match (candidates locked pair dep).find? (matchesId dep) with
    | some id => lockTo dep id
    | none =>
      match patchesFor patches dep with
      | [] => .ok dep
      | [patch] =>
        if locked.hasPatch patch then .ok (setVersionReq dep (ExactReq.exact patch.version))
        else .ok dep
      | _ :: _ :: _ => .error .patchRemains := by
  have hpair : (pair.bind fun entry => entry.2.find? (matchesId dep)) =
      ((pair.map Prod.snd).getD []).find? (matchesId dep) := by
    cases pair <;> rfl
  rw [lockDependency, candidates, List.find?_append, hpair, List.find?_map]
  cases ((pair.map Prod.snd).getD []).find? (matchesId dep) with
  | some id => rfl
  | none =>
    have hcomp : (fun entry => matchesId dep entry.1) = matchesId dep ∘
      (Prod.fst : PackageId (SourceId crate) × List (PackageId (SourceId crate)) → _) := rfl
    rw [Option.none_or, hcomp]
    cases (locked.get dep.sourceId dep.name).find? (matchesId dep ∘ Prod.fst) with
    | some entry => rfl
    | none => rfl

/-! ### One dependency -/

theorem lockDependency_ok_iff_lockable :
    (∃ dep', lockDependency locked patches pair dep = .ok dep') ↔
      Lockable locked patches pair dep := by
  rw [lockDependency_eq]
  cases hfind : (candidates locked pair dep).find? (matchesId dep) with
  | some id =>
    obtain ⟨hmatch, hfront⟩ := List.find?_eq_some_iff_append.mp hfind
    obtain ⟨hname, hmatch⟩ := matchesId_iff.mp hmatch
    have hmem := List.mem_of_find?_eq_some hfind
    constructor
    · rintro ⟨dep', hlock⟩
      obtain ⟨hsource, haccepts, -⟩ := lockTo_eq_ok.mp hlock
      refine ⟨?_, fun hnone => ?_⟩
      · intro honly id' hid'
        -- by name alone, the test of `matches_id` is the test of the name
        have hsame : matchesId dep = fun id => decide (dep.name = id.name) := by
          funext other
          simp [matchesId, honly]
        rw [hsame, hid'] at hfind
        cases hfind
        exact ⟨hsource, haccepts⟩
      · have hno := hnone id hmem
        rw [matchesId_iff.mpr ⟨hname, hmatch⟩] at hno
        cases hno
    · intro hlockable
      rcases hmatch with honly | ⟨haccepts, hsource⟩
      · have hsame : matchesId dep = fun id => decide (dep.name = id.name) := by
          funext other
          simp [matchesId, honly]
        rw [hsame] at hfind
        obtain ⟨hsource, haccepts⟩ := hlockable.first_named honly id hfind
        exact ⟨_, lockTo_eq_ok.mpr ⟨hsource, haccepts, rfl⟩⟩
      · exact ⟨_, lockTo_eq_ok.mpr ⟨hsource, haccepts, rfl⟩⟩
  | none =>
    have hnone : ∀ id ∈ candidates locked pair dep, matchesId dep id = false := by
      intro id hid
      exact Bool.eq_false_iff.mpr (List.find?_eq_none.mp hfind id hid)
    have hnamed : dep.onlyMatchName = true → ∀ id,
        (candidates locked pair dep).find? (fun id => decide (dep.name = id.name)) = some id →
          dep.sourceId.eq id.sourceId ∧ VersionReq.accepts dep.req id.version = true := by
      intro honly id hid
      have hno := hnone id (List.mem_of_find?_eq_some hid)
      have hname : dep.name = id.name := by simpa using List.find?_some hid
      rw [matchesId_iff.mpr ⟨hname, .inl honly⟩] at hno
      cases hno
    constructor
    · rintro ⟨dep', hlock⟩
      refine ⟨hnamed, fun _ => ?_⟩
      match hpatches : patchesFor patches dep with
      | [] => simp
      | [patch] => simp
      | _ :: _ :: _ =>
        simp only [hpatches] at hlock
        cases hlock
    · intro hlockable
      have hone := hlockable.one_patch hnone
      match hpatches : patchesFor patches dep with
      | [] => exact ⟨_, rfl⟩
      | [patch] =>
        by_cases hlocked : locked.hasPatch patch = true
        · exact ⟨_, if_pos hlocked⟩
        · exact ⟨_, if_neg hlocked⟩
      | _ :: _ :: _ =>
        rw [hpatches] at hone
        simp at hone

/-- The one patch that a dependency has is for its name, in a version that it accepts. -/
theorem of_patchesFor_eq {patch : PackageId (SourceId crate)}
    (h : patchesFor patches dep = [patch]) :
    patch ∈ (patches.lookup dep.sourceId.url).getD [] ∧ dep.name = patch.name ∧
      VersionReq.accepts dep.req patch.version = true := by
  have hpatch : patch ∈ patchesFor patches dep := by simp [h]
  obtain ⟨hmem, hmatch⟩ := List.mem_filter.mp hpatch
  simp only [Dependency.matchesIgnoringSource, Bool.and_eq_true, decide_eq_true_eq] at hmatch
  exact ⟨hmem, hmatch⟩

/-- All that locking can make of a dependency. -/
theorem lockDependency_cases (h : lockDependency locked patches pair dep = .ok dep') :
    (∃ id, (candidates locked pair dep).find? (matchesId dep) = some id ∧
      dep.sourceId.eq id.sourceId ∧ VersionReq.accepts dep.req id.version = true ∧
      dep' = setSourceId (setVersionReq dep (ExactReq.exact id.version)) id.sourceId) ∨
    dep' = dep ∨
    ∃ patch, (candidates locked pair dep).find? (matchesId dep) = none ∧
      patchesFor patches dep = [patch] ∧ locked.hasPatch patch = true ∧
      dep' = setVersionReq dep (ExactReq.exact patch.version) := by
  rw [lockDependency_eq] at h
  cases hfind : (candidates locked pair dep).find? (matchesId dep) with
  | some id =>
    rw [hfind] at h
    exact .inl ⟨id, rfl, lockTo_eq_ok.mp h⟩
  | none =>
    rw [hfind] at h
    match hpatches : patchesFor patches dep with
    | [] =>
      simp only [hpatches, Except.ok.injEq] at h
      exact .inr (.inl h.symm)
    | [patch] =>
      simp only [hpatches] at h
      split at h
      · rename_i hlocked
        cases h
        exact .inr (.inr ⟨patch, rfl, rfl, hlocked, rfl⟩)
      · cases h
        exact .inr (.inl rfl)
    | _ :: _ :: _ =>
      simp only [hpatches] at h
      cases h

theorem lockedFrom_of_lockDependency (h : lockDependency locked patches pair dep = .ok dep') :
    LockedFrom locked patches pair dep dep' := by
  obtain ⟨id, hfind, hsource, haccepts, rfl⟩ | rfl | ⟨patch, -, hpatches, hlocked, rfl⟩ :=
    lockDependency_cases h
  · have hmatch := List.find?_some hfind
    exact .toLocked id (List.mem_of_find?_eq_some hfind) (matchesId_iff.mp hmatch).1 hsource
      haccepts
  · exact .unchanged
  · obtain ⟨hmem, hname, haccepts⟩ := of_patchesFor_eq hpatches
    exact .toPatch patch hmem hname haccepts (List.any_eq_true.mp hlocked)

/-- The one patch that a dependency takes is the one it takes once it asks for its version. -/
theorem patchesFor_exact {patch : PackageId (SourceId crate)}
    (h : patchesFor patches dep = [patch]) :
    patchesFor patches (setVersionReq dep (ExactReq.exact patch.version)) = [patch] := by
  obtain ⟨-, hname, haccepts⟩ := of_patchesFor_eq h
  have himp : ∀ other,
      (setVersionReq dep (ExactReq.exact patch.version)).matchesIgnoringSource other = true →
        dep.matchesIgnoringSource other = true := by
    intro other hother
    simp only [Dependency.matchesIgnoringSource, setVersionReq, Bool.and_eq_true,
      decide_eq_true_eq, ExactReq.accepts_exact] at hother ⊢
    exact ⟨of_decide_eq_true hother.1, hother.2 ▸ haccepts⟩
  calc patchesFor patches (setVersionReq dep (ExactReq.exact patch.version))
    _ = (patchesFor patches dep).filter
        (setVersionReq dep (ExactReq.exact patch.version)).matchesIgnoringSource := by
      rw [patchesFor, patchesFor, List.filter_filter]
      refine List.filter_congr fun other _ => ?_
      rw [Bool.eq_iff_iff, Bool.and_eq_true]
      exact ⟨fun hother => ⟨hother, himp other hother⟩, And.left⟩
    _ = [patch] := by
      rw [h]
      simp [Dependency.matchesIgnoringSource, setVersionReq, ExactReq.accepts_exact, hname]

theorem LockedFrom.sameUse (h : LockedFrom locked patches pair dep dep') : SameUse dep dep' := by
  cases h <;> exact ⟨rfl, rfl, rfl⟩

/-- A locked dependency is locked to where it was locked to. -/
theorem lockDependency_idem (h : lockDependency locked patches pair dep = .ok dep') :
    lockDependency locked patches pair dep' = .ok dep' := by
  obtain ⟨id, hfind, hsource, haccepts, rfl⟩ | rfl | ⟨patch, hfind, hpatches, hlocked, rfl⟩ :=
    lockDependency_cases h
  · have hname := (matchesId_iff.mp (List.find?_some hfind)).1
    have hexact := (ExactReq.accepts_exact (R := R) id.version id.version).mpr rfl
    have hcandidates : candidates locked pair
        (setSourceId (setVersionReq dep (ExactReq.exact id.version)) id.sourceId) =
        candidates locked pair dep := candidates_congr rfl hsource
    rw [lockDependency_eq, hcandidates]
    -- what the exact requirement lets through, the original one has let through
    have hmatches : matchesId
        (setSourceId (setVersionReq dep (ExactReq.exact id.version)) id.sourceId) id = true :=
      matchesId_iff.mpr ⟨hname, .inr ⟨hexact, SourceId.eq_refl _⟩⟩
    rw [find?_of_imp hfind hmatches]
    · exact lockTo_eq_ok.mpr ⟨SourceId.eq_refl _, hexact, rfl⟩
    · intro other hother
      obtain ⟨hname', honly | ⟨haccepts', hsource'⟩⟩ := matchesId_iff.mp hother
      · exact matchesId_iff.mpr ⟨hname', .inl honly⟩
      · have hversion := (ExactReq.accepts_exact _ _).mp haccepts'
        refine matchesId_iff.mpr ⟨hname', .inr ⟨?_, SourceId.eq_trans hsource hsource'⟩⟩
        rw [hversion]
        exact haccepts
  · exact h
  · obtain ⟨-, -, haccepts⟩ := of_patchesFor_eq hpatches
    -- the narrower requirement matches no locked package either
    have hnone : (candidates locked pair dep).find?
        (matchesId (setVersionReq dep (ExactReq.exact patch.version))) = none := by
      refine List.find?_eq_none.mpr fun other hother hmatches => ?_
      refine List.find?_eq_none.mp hfind other hother (matchesId_iff.mpr ?_)
      obtain ⟨hname, honly | ⟨hother, hsource⟩⟩ := matchesId_iff.mp hmatches
      · exact ⟨hname, .inl honly⟩
      · have hversion := (ExactReq.accepts_exact _ _).mp hother
        exact ⟨hname, .inr ⟨hversion ▸ haccepts, hsource⟩⟩
    have hcandidates : candidates locked pair
        (setVersionReq dep (ExactReq.exact patch.version)) = candidates locked pair dep :=
      candidates_congr rfl (SourceId.eq_refl _)
    rw [lockDependency_eq, hcandidates, hnone, patchesFor_exact hpatches]
    exact if_pos hlocked

end Locking

/-! ### Summaries -/

/-- Lock the id of a summary, and each of its dependencies. -/
def lock (locked : LockedMap crate) (patches : Patches crate)
    (summary : Summary (SourceId crate) R) : Except LockPanic (Summary (SourceId crate) R) :=
  let pair := locked.pair summary.packageId
  match hdeps : summary.dependencies.mapM (lockDependency locked patches pair) with
  | .error e => .error e
  | .ok dependencies =>
    have huse : ∀ dep' ∈ dependencies, ∃ dep ∈ summary.dependencies, SameUse dep dep' := by
      intro dep' hdep'
      obtain ⟨dep, hdep, hlock⟩ := (mem_of_mapM_ok hdeps dep').mp hdep'
      exact ⟨dep, hdep, (lockedFrom_of_lockDependency hlock).sameUse⟩
    .ok
      { summary with
        packageId := (pair.map Prod.fst).getD summary.packageId
        dependencies
        names_disjoint := by
          intro hplain dep' hdep'
          obtain ⟨dep, hdep, huse⟩ := huse dep' hdep'
          rw [huse.nameInToml]
          exact summary.names_disjoint hplain dep hdep
        optional_transitive := by
          intro dep' hdep' hoptional
          obtain ⟨dep, hdep, huse⟩ := huse dep' hdep'
          rw [huse.optional] at hoptional
          rw [huse.isTransitive]
          exact summary.optional_transitive dep hdep hoptional }

section Summaries

variable {locked : LockedMap crate} {patches : Patches crate}
  {s s' : Summary (SourceId crate) R}

/-- Nothing but the id and the dependencies changes. -/
theorem lock_eq_ok : lock locked patches s = .ok s' ↔
    List.Forall₂ (fun dep dep' =>
        lockDependency locked patches (locked.pair s.packageId) dep = .ok dep')
      s.dependencies s'.dependencies ∧
    s'.packageId = ((locked.pair s.packageId).map Prod.fst).getD s.packageId ∧
    s'.features = s.features ∧ s'.checksum = s.checksum ∧ s'.links = s.links ∧
    s'.namespacedFeatures = s.namespacedFeatures := by
  rw [← mapM_eq_ok]
  unfold lock
  dsimp only
  split
  · rename_i e hdeps
    rw [hdeps]
    simp
  · rename_i dependencies hdeps
    constructor
    · intro h
      cases h
      exact ⟨hdeps, rfl, rfl, rfl, rfl, rfl⟩
    · rintro ⟨hdependencies, hid, hfeatures, hchecksum, hlinks, hnamespaced⟩
      rw [hdeps] at hdependencies
      cases s'
      cases hdependencies
      cases hid
      cases hfeatures
      cases hchecksum
      cases hlinks
      cases hnamespaced
      rfl

/-- The id of a locked summary has the entry of the original one. -/
theorem pair_of_lock (h : lock locked patches s = .ok s') :
    locked.pair s'.packageId = locked.pair s.packageId := by
  obtain ⟨-, hid, -⟩ := lock_eq_ok.mp h
  rw [hid]
  cases hpair : locked.pair s.packageId with
  | none => exact hpair
  | some entry => exact LockedMap.pair_of_pair hpair

/-- Locking twice is locking once. -/
theorem lock_idem (h : lock locked patches s = .ok s') : lock locked patches s' = .ok s' := by
  have hpair := pair_of_lock h
  obtain ⟨hdeps, hid, -⟩ := lock_eq_ok.mp h
  refine lock_eq_ok.mpr ⟨?_, ?_, rfl, rfl, rfl, rfl⟩
  · rw [hpair]
    refine List.forall₂_same.mpr fun dep' hdep' => ?_
    obtain ⟨dep, -, hlock⟩ := (mem_of_mapM_ok (mapM_eq_ok.mpr hdeps) dep').mp hdep'
    exact lockDependency_idem hlock
  · rw [hpair, hid]
    cases locked.pair s.packageId <;> rfl

/-- A summary is locked without a panic, each of its dependencies is narrowed down as the
tables say and otherwise untouched, and locking the result changes nothing. -/
def LocksFaithfully (locked : LockedMap crate) (patches : Patches crate)
    (s : Summary (SourceId crate) R) : Prop :=
  ∃ s', lock locked patches s = .ok s' ∧
    List.Forall₂ (fun dep dep' =>
        LockedFrom locked patches (locked.pair s.packageId) dep dep' ∧
          dep' = { dep with req := dep'.req, sourceId := dep'.sourceId })
      s.dependencies s'.dependencies ∧
    lock locked patches s' = .ok s'

theorem lock_faithful_iff (locked : LockedMap crate) (patches : Patches crate)
    (s : Summary (SourceId crate) R) :
    LocksFaithfully locked patches s ↔
      ∀ dep ∈ s.dependencies, Lockable locked patches (locked.pair s.packageId) dep := by
  constructor
  · rintro ⟨s', hlock, -, -⟩ dep hdep
    obtain ⟨hdeps, -⟩ := lock_eq_ok.mp hlock
    obtain ⟨dep', -, hdep'⟩ := exists_of_mapM_ok (mapM_eq_ok.mpr hdeps) hdep
    exact lockDependency_ok_iff_lockable.mp ⟨dep', hdep'⟩
  · intro hlockable
    obtain ⟨s', hlock⟩ : ∃ s', lock locked patches s = .ok s' := by
      obtain ⟨deps, hdeps⟩ : ∃ deps, s.dependencies.mapM
          (lockDependency locked patches (locked.pair s.packageId)) = .ok deps :=
        exists_mapM_ok fun dep hdep => lockDependency_ok_iff_lockable.mpr (hlockable dep hdep)
      unfold lock
      dsimp only
      split
      · rename_i e he
        rw [hdeps] at he
        cases he
      · exact ⟨_, rfl⟩
    refine ⟨s', hlock, ?_, lock_idem hlock⟩
    refine (lock_eq_ok.mp hlock).1.imp fun dep dep' hdep => ?_
    have hfrom := lockedFrom_of_lockDependency hdep
    exact ⟨hfrom, by cases hfrom <;> rfl⟩

end Summaries

/-! ### Two patches for one dependency -/

def exampleIndex : SourceId plainUrls where
  url := ⟨"https://example.com/index".toList⟩
  canonicalUrl := ⟨"https://example.com/index".toList⟩
  kind := .registry
  precise := none
  name := none
  canonical_eq := by decide

/-- A package that depends on `foo`, in a version from `0.1.0` on. -/
def needsFoo : Summary (SourceId plainUrls) (List Version) where
  packageId := ⟨"bar", ⟨1, 0, 0, []⟩, exampleIndex⟩
  dependencies := [.parse "foo" [⟨0, 1, 0, []⟩, ⟨0, 1, 1, []⟩] exampleIndex]
  features := ∅
  checksum := none
  links := none
  namespacedFeatures := false
  names_disjoint := fun _ _ _ => Finmap.notMem_empty
  optional_transitive := by decide

/-- Two versions of `foo` to patch the index with. -/
def twoFoos : Patches plainUrls :=
  Finmap.singleton exampleIndex.url
    [⟨"foo", ⟨0, 1, 0, []⟩, barOverHttps⟩, ⟨"foo", ⟨0, 1, 1, []⟩, barOverHttps⟩]

/-- With nothing locked and two patches that fit, locking is a panic. -/
theorem two_patches_panic :
    lock ⟨[], .nil⟩ twoFoos needsFoo = .error .patchRemains ∧
      ¬LocksFaithfully ⟨[], .nil⟩ twoFoos needsFoo := by
  have hpanic : lock ⟨[], .nil⟩ twoFoos needsFoo = .error .patchRemains := rfl
  refine ⟨hpanic, ?_⟩
  rintro ⟨s', hlock, -, -⟩
  rw [hpanic] at hlock
  cases hlock

end Registry

end Cargo.Core
