import Cargo.Core.IdOrder
import Cargo.Math.Pointers
import Mathlib.Logic.Function.Basic

/-!
# Configuration of sources

Sources are mapped to one another via the `replace-with` key. To load a source, these pointers
are followed from its name until a source without one is found. The way back to the name it
started with is noticed; no other cycle is.

## Main definitions

* `SourceConfig`, `SourceConfigMap` — the `source` tables of the configuration
* `SourceConfigMap.follow`, `SourceConfigMap.load`
* `SourceConfigMap.Next` — the pointers
* `SourceConfigMap.SelectsRight` — following them ends, at the source at the end of the chain or
  with an error

## Main results

* `SourceConfigMap.selectsRight_iff` — this is so unless the chain runs into a cycle that does
  not come back to where it started
-/

set_option autoImplicit false

namespace Cargo.Sources

open Relation Cargo.Core Cargo.Math

variable {crate : UrlCrate}

/-- Configuration for a particular source: its id, and the name of the source that it is replaced
with, with the file where that was configured. -/
structure SourceConfig (crate : UrlCrate) where
  id : SourceId crate
  replaceWith : Option (String × String)

/-- The configured sources by name, and their names by id. -/
structure SourceConfigMap (crate : UrlCrate) where
  cfgs : String → Option (SourceConfig crate)
  id2name : SourceId crate → Option String

/-- Why a source is not loaded. -/
inductive LoadError
  /-- There is no source with the name. -/
  | notFound (name orig path : String)
  /-- The source is eventually replaced with itself. -/
  | cycle (name path : String)
  /-- The source supports checksums, but what it is replaced with does not. -/
  | checksums (orig name : String)
  /-- The source requires a lock file to be present first. -/
  | precise (orig : String)
  /-- The source itself cannot be loaded. -/
  | source (message : String)

/-- Which source is to be loaded: the one that was asked for, or one in its place, with its
name. -/
inductive Selected (crate : UrlCrate)
  | same
  | replaced (newId : SourceId crate) (name : String)

/-- What matters of a source that was loaded. -/
structure Loaded where
  supportsChecksums : Bool
  requiresPrecise : Bool

namespace SourceConfigMap

/-- Add a source. -/
def add (m : SourceConfigMap crate) (name : String) (cfg : SourceConfig crate) :
    SourceConfigMap crate where
  cfgs := Function.update m.cfgs name (some cfg)
  id2name id := if cfg.id.eq id then some name else m.id2name id

/-- Only crates.io is known. -/
def empty (cratesIo : SourceId crate) : SourceConfigMap crate :=
  add ⟨fun _ => none, fun _ => none⟩ "crates-io" ⟨cratesIo, none⟩

/-- The sources of a table are added. -/
def new (cratesIo : SourceId crate) (table : List (String × SourceConfig crate)) :
    SourceConfigMap crate :=
  table.foldl (fun m e => m.add e.1 e.2) (empty cratesIo)

variable (m : SourceConfigMap crate)

/-- Follow the pointers from a name, as long as there is fuel. -/
def follow (id : SourceId crate) (orig : String) :
    ℕ → String → String → Option (Except LoadError (Selected crate))
  | 0, _, _ => none
  | fuel + 1, name, path =>
    match m.cfgs name with
    | none => some (.error (.notFound name orig path))
    | some cfg =>
      match cfg.replaceWith with
      | some (name, path) =>
        if name = orig then some (.error (.cycle name path)) else follow id orig fuel name path
      | none =>
        if id.eq cfg.id then some (.ok .same)
        else some (.ok (.replaced (cfg.id.withPrecise id.precise) name))

/-- Load a source, or what it is replaced with. -/
def load (loadId : SourceId crate → Except LoadError Loaded) (id : SourceId crate) (fuel : ℕ) :
    Option (Except LoadError (SourceId crate × Loaded)) :=
  match m.id2name id with
  | none => some ((loadId id).map fun src => (id, src))
  | some orig =>
    (m.follow id orig fuel orig "/").map fun selected => do
      match ← selected with
      | .same => return (id, ← loadId id)
      | .replaced newId name =>
        let newSrc ← loadId newId
        let oldSrc ← loadId id
        -- a replacement has to keep what lock files rely on
        if !newSrc.supportsChecksums && oldSrc.supportsChecksums then
          throw (.checksums orig name)
        if oldSrc.requiresPrecise && id.precise.isNone then
          throw (.precise orig)
        return (newId, newSrc)

/-! ### The chain of names -/

/-- A source is replaced with the one of another name. -/
def Next (a b : String) : Prop :=
  ∃ cfg path, m.cfgs a = some cfg ∧ cfg.replaceWith = some (b, path)

/-- The chain ends with a source. -/
def EndsAt (a e : String) (cfg : SourceConfig crate) : Prop :=
  ReflTransGen m.Next a e ∧ m.cfgs e = some cfg ∧ cfg.replaceWith = none

/-- The chain reaches a name that is not configured. -/
def Dangles (a : String) : Prop :=
  ∃ e, ReflTransGen m.Next a e ∧ m.cfgs e = none

/-- The chain runs into a cycle. -/
def RunsIntoCycle (a : String) : Prop :=
  ∃ e, ReflTransGen m.Next a e ∧ TransGen m.Next e e

/-- The source at the end of a chain. -/
def selected (id : SourceId crate) (e : String) (cfg : SourceConfig crate) : Selected crate :=
  if id.eq cfg.id then .same else .replaced (cfg.id.withPrecise id.precise) e

/-- Following the pointers from the name of a source comes to an end: at the source at the end of
the chain, or with an error exactly if the chain dangles or runs into a cycle. -/
def SelectsRight (id : SourceId crate) : Prop :=
  ∀ name, m.id2name id = some name → ∃ fuel result, m.follow id name fuel name "/" = some result ∧
    (∀ e cfg, m.EndsAt name e cfg → result = .ok (selected id e cfg)) ∧
    ((∃ error, result = .error error) ↔ m.Dangles name ∨ m.RunsIntoCycle name)

variable {m}

theorem rightUnique_next : Relator.RightUnique m.Next := by
  rintro a b c ⟨cfg, path, hcfg, hb⟩ ⟨cfg', path', hcfg', hc⟩
  rw [hcfg, Option.some.injEq] at hcfg'
  subst hcfg'
  rw [hb, Option.some.injEq, Prod.mk.injEq] at hc
  exact hc.1

theorem not_next_of_none {e x : String} (he : m.cfgs e = none) : ¬ m.Next e x := by
  rintro ⟨cfg, path, hcfg, -⟩
  rw [he] at hcfg
  cases hcfg

theorem not_next_of_last {e x : String} {cfg : SourceConfig crate} (he : m.cfgs e = some cfg)
    (hlast : cfg.replaceWith = none) : ¬ m.Next e x := by
  rintro ⟨cfg', path, hcfg, hnext⟩
  rw [he, Option.some.injEq] at hcfg
  subst hcfg
  rw [hlast] at hnext
  cases hnext

/-- What following the pointers can come to. -/
theorem follow_cases {id : SourceId crate} {orig : String} {fuel : ℕ} {name path : String}
    {result : Except LoadError (Selected crate)}
    (h : m.follow id orig fuel name path = some result) :
    ∃ e, ReflTransGen m.Next name e ∧
      ((m.cfgs e = none ∧ ∃ error, result = .error error) ∨
        (∃ cfg, m.cfgs e = some cfg ∧ cfg.replaceWith = none ∧
          result = .ok (selected id e cfg)) ∨
        (m.Next e orig ∧ ∃ error, result = .error error)) := by
  induction fuel generalizing name path with
  | zero => cases h
  | succ fuel ih =>
    rw [follow] at h
    cases hcfg : m.cfgs name with
    | none =>
      rw [hcfg] at h
      exact ⟨name, .refl, .inl ⟨hcfg, _, (Option.some.inj h).symm⟩⟩
    | some cfg =>
      simp only [hcfg] at h
      cases hreplace : cfg.replaceWith with
      | none =>
        simp only [hreplace] at h
        refine ⟨name, .refl, .inr (.inl ⟨cfg, hcfg, hreplace, ?_⟩)⟩
        rw [selected]
        split at h
        · rename_i heq
          rw [if_pos heq]
          exact (Option.some.inj h).symm
        · rename_i hne
          rw [if_neg hne]
          exact (Option.some.inj h).symm
      | some next =>
        -- the chain goes on, or comes back to where it began
        have hnext : m.Next name next.1 := ⟨cfg, next.2, hcfg, hreplace⟩
        simp only [hreplace] at h
        split at h
        · rename_i horig
          exact ⟨name, .refl, .inr (.inr ⟨horig ▸ hnext, _, (Option.some.inj h).symm⟩)⟩
        · obtain ⟨e, he, hcases⟩ := ih h
          exact ⟨e, .head hnext he, hcases⟩

/-- Following the pointers comes to an end if the chain does. -/
theorem exists_follow_of_end {id : SourceId crate} {orig name e : String}
    (he : ReflTransGen m.Next name e) (hend : ∀ x, ¬ m.Next e x) (path : String) :
    ∃ fuel result, m.follow id orig fuel name path = some result := by
  induction he using ReflTransGen.head_induction_on generalizing path with
  | refl =>
    refine ⟨1, ?_⟩
    cases hcfg : m.cfgs e with
    | none => exact ⟨_, by rw [follow, hcfg]⟩
    | some cfg =>
      cases hreplace : cfg.replaceWith with
      | none =>
        simp only [follow, hcfg, hreplace]
        split
        · exact ⟨_, rfl⟩
        · exact ⟨_, rfl⟩
      | some next => exact absurd ⟨cfg, next.2, hcfg, hreplace⟩ (hend next.1)
  | @head a b hstep _ ih =>
    obtain ⟨cfg, path', hcfg, hreplace⟩ := hstep
    obtain ⟨fuel, result, hfollow⟩ := ih path'
    by_cases hb : b = orig
    · exact ⟨1, .error (.cycle b path'), by simp only [follow, hcfg, hreplace, if_pos hb]⟩
    · exact ⟨fuel + 1, result, by simp only [follow, hcfg, hreplace, if_neg hb, hfollow]⟩

/-- Following the pointers comes to an end if the chain comes back to where it started. -/
theorem exists_follow_of_back {id : SourceId crate} {orig name : String}
    (hback : TransGen m.Next name orig) (path : String) :
    ∃ fuel result, m.follow id orig fuel name path = some result := by
  induction hback using TransGen.head_induction_on generalizing path with
  | single hstep =>
    obtain ⟨cfg, path', hcfg, hreplace⟩ := hstep
    exact ⟨1, .error (.cycle orig path'), by simp only [follow, hcfg, hreplace, if_true]⟩
  | @head a b hstep _ ih =>
    obtain ⟨cfg, path', hcfg, hreplace⟩ := hstep
    obtain ⟨fuel, result, hfollow⟩ := ih path'
    by_cases hb : b = orig
    · exact ⟨1, .error (.cycle b path'), by simp only [follow, hcfg, hreplace, if_pos hb]⟩
    · exact ⟨fuel + 1, result, by simp only [follow, hcfg, hreplace, if_neg hb, hfollow]⟩

/-- Finitely many sources are configured. -/
theorem finite_next (cratesIo : SourceId crate) (table : List (String × SourceConfig crate)) :
    {a | ∃ b, (new cratesIo table).Next a b}.Finite := by
  have hfinite : ∀ (table : List (String × SourceConfig crate)) (m : SourceConfigMap crate),
      {a | m.cfgs a ≠ none}.Finite →
        {a | (table.foldl (fun m e => m.add e.1 e.2) m).cfgs a ≠ none}.Finite := by
    intro table
    induction table with
    | nil => exact fun m hm => hm
    | cons e table ih =>
      intro m hm
      apply ih
      apply (hm.insert e.1).subset
      intro a ha
      by_cases hae : a = e.1
      · exact .inl hae
      · right
        change Function.update m.cfgs e.1 (some e.2) a ≠ none at ha
        rw [Function.update_of_ne hae] at ha
        exact ha
  have hempty : {a | (empty cratesIo).cfgs a ≠ none}.Finite := by
    apply (Set.finite_singleton "crates-io").subset
    intro a ha
    by_contra hne
    apply ha
    change Function.update (fun _ => none) "crates-io" _ a = none
    rw [Function.update_of_ne hne]
  apply (hfinite table (empty cratesIo) hempty).subset
  rintro a ⟨b, cfg, path, hcfg, -⟩ hnone
  rw [new, hnone] at hcfg
  cases hcfg

/-- A result is right, whatever it is. -/
theorem follow_right {id : SourceId crate} {name path : String} {fuel : ℕ}
    {result : Except LoadError (Selected crate)}
    (h : m.follow id name fuel name path = some result) :
    (∀ e cfg, m.EndsAt name e cfg → result = .ok (selected id e cfg)) ∧
      ((∃ error, result = .error error) ↔ m.Dangles name ∨ m.RunsIntoCycle name) := by
  obtain ⟨e, he, ⟨hnone, error, rfl⟩ | ⟨cfg, hcfg, hlast, rfl⟩ | ⟨hback, error, rfl⟩⟩ :=
    follow_cases h
  · refine ⟨?_, fun _ => .inl ⟨e, he, hnone⟩, fun _ => ⟨error, rfl⟩⟩
    rintro e' cfg ⟨he', hcfg, hlast⟩
    have heq : e = e' := end_unique rightUnique_next he he' (fun _ => not_next_of_none hnone)
      fun _ => not_next_of_last hcfg hlast
    rw [← heq, hnone] at hcfg
    cases hcfg
  · constructor
    · rintro e' cfg' ⟨he', hcfg', hlast'⟩
      have heq : e = e' := end_unique rightUnique_next he he'
        (fun _ => not_next_of_last hcfg hlast) fun _ => not_next_of_last hcfg' hlast'
      rw [← heq, hcfg, Option.some.injEq] at hcfg'
      rw [heq, hcfg']
    · constructor
      · rintro ⟨error, herror⟩
        cases herror
      · rintro (⟨e', he', hnone⟩ | ⟨e', he', hcycle⟩)
        · have heq : e = e' := end_unique rightUnique_next he he'
            (fun _ => not_next_of_last hcfg hlast) fun _ => not_next_of_none hnone
          rw [heq, hnone] at hcfg
          cases hcfg
        · exact absurd hcycle (not_cycle_of_end rightUnique_next he
            (fun _ => not_next_of_last hcfg hlast) he')
  · have hcycle : TransGen m.Next name name := TransGen.tail' he hback
    refine ⟨?_, fun _ => .inr ⟨name, .refl, hcycle⟩, fun _ => ⟨error, rfl⟩⟩
    rintro e' cfg ⟨he', hcfg, hlast⟩
    exact absurd hcycle
      (not_cycle_of_end rightUnique_next he' (fun _ => not_next_of_last hcfg hlast) .refl)

/-- Loading a source follows its chain to the end, or gives the error that it should, unless the
chain runs into a cycle that does not come back to the name it started with. -/
theorem selectsRight_iff (cratesIo : SourceId crate) (table : List (String × SourceConfig crate))
    (id : SourceId crate) :
    (new cratesIo table).SelectsRight id ↔
      ∀ name, (new cratesIo table).id2name id = some name →
        ∀ e, ReflTransGen (new cratesIo table).Next name e →
          TransGen (new cratesIo table).Next e e →
            ReflTransGen (new cratesIo table).Next e name := by
  constructor
  · intro hright name hname e he hcycle
    obtain ⟨fuel, result, hfollow, -⟩ := hright name hname
    obtain ⟨e', he', ⟨hnone, -⟩ | ⟨cfg, hcfg, hlast, -⟩ | ⟨hback, -⟩⟩ := follow_cases hfollow
    · exact absurd hcycle
        (not_cycle_of_end rightUnique_next he' (fun _ => not_next_of_none hnone) he)
    · exact absurd hcycle
        (not_cycle_of_end rightUnique_next he' (fun _ => not_next_of_last hcfg hlast) he)
    · exact reaches_of_cycle rightUnique_next (TransGen.tail' he' hback) he
  · intro hcond name hname
    have hends : ∃ fuel result,
        (new cratesIo table).follow id name fuel name "/" = some result := by
      rcases ends_or_cycles (finite_next cratesIo table) name with ⟨e, he, hend⟩ | ⟨e, he, hcycle⟩
      · exact exists_follow_of_end he hend "/"
      · have hback := hcond name hname e he hcycle
        apply exists_follow_of_back
        rcases he.cases_head with rfl | ⟨x, hx, hxe⟩
        · exact hcycle
        · exact TransGen.head' hx (hxe.trans hback)
    obtain ⟨fuel, result, hfollow⟩ := hends
    exact ⟨fuel, result, hfollow, follow_right hfollow⟩

/-! ### A mirror that is replaced with itself -/

/-- A registry. -/
def cratesIoRegistry : SourceId plainUrls where
  url := ⟨"https://github.com/rust-lang/crates.io-index".toList⟩
  canonicalUrl := ⟨"https://github.com/rust-lang/crates.io-index".toList⟩
  kind := .registry
  precise := none
  name := none
  canonical_eq := by decide

/-- A mirror of it. -/
def mirrorRegistry : SourceId plainUrls where
  url := ⟨"https://github.com/mirror/index".toList⟩
  canonicalUrl := ⟨"https://github.com/mirror/index".toList⟩
  kind := .registry
  precise := none
  name := none
  canonical_eq := by decide

/-- The registry is replaced with the mirror, and the mirror with itself. -/
def mirrored : SourceConfigMap plainUrls :=
  new cratesIoRegistry
    [("crates-io", ⟨cratesIoRegistry, some ("mirror", ".cargo/config")⟩),
      ("mirror", ⟨mirrorRegistry, some ("mirror", ".cargo/config")⟩)]

/-- The cycle is entered after the first step, and the loop goes on forever. -/
theorem mirrored_runs_forever :
    mirrored.id2name cratesIoRegistry = some "crates-io" ∧ mirrored.RunsIntoCycle "crates-io" ∧
      (∀ fuel, mirrored.follow cratesIoRegistry "crates-io" fuel "crates-io" "/" = none) ∧
      ¬ mirrored.SelectsRight cratesIoRegistry := by
  have hname : mirrored.id2name cratesIoRegistry = some "crates-io" := by decide
  have hfirst : mirrored.cfgs "crates-io" =
      some ⟨cratesIoRegistry, some ("mirror", ".cargo/config")⟩ := rfl
  have hmirror : mirrored.cfgs "mirror" =
      some ⟨mirrorRegistry, some ("mirror", ".cargo/config")⟩ := rfl
  have hagain : ∀ fuel path,
      mirrored.follow cratesIoRegistry "crates-io" fuel "mirror" path = none := by
    intro fuel
    induction fuel with
    | zero => exact fun _ => rfl
    | succ fuel ih =>
      intro path
      rw [follow, hmirror]
      exact ih _
  have hforever : ∀ fuel,
      mirrored.follow cratesIoRegistry "crates-io" fuel "crates-io" "/" = none := by
    intro fuel
    cases fuel with
    | zero => rfl
    | succ fuel =>
      rw [follow, hfirst]
      exact hagain fuel _
  refine ⟨hname, ?_, hforever, ?_⟩
  · exact ⟨"mirror", .single ⟨_, _, hfirst, rfl⟩, .single ⟨_, _, hmirror, rfl⟩⟩
  · intro hright
    obtain ⟨fuel, result, hfollow, -⟩ := hright "crates-io" hname
    rw [hforever fuel] at hfollow
    cases hfollow

end SourceConfigMap

end Cargo.Sources
