import Cargo.Resolver.Search

/-!
# The failures of the resolver

Each part of the resolver fails in its own ways. Finding the dependencies of a package never ends
with the activation error, which only the search itself gives, nor with the error about two
packages that claim the same `links` value, which only comes from flagging a package.

## Main results

* `expand_failsAs` — finding the dependencies of a package
* `flagActivated_eq_error_iff` — flagging a package
-/

set_option autoImplicit false

namespace Cargo.Resolver

open Cargo.Core Cargo.Math

variable {S R : Type}

/-- A failure to find the dependencies of a package. -/
def Failure.OfExpand : Failure S R → Prop
  | .duplicateLinks _ | .badActivate | .activation _ _ _ => False
  | _ => True

theorem requireFeature_failsAs (s : Summary S R) (fuel : ℕ) (self : Requirements) (feat : String) :
    FailsAs Failure.OfExpand (Requirements.requireFeature s fuel self feat) := by
  induction fuel generalizing self feat with
  | zero => exact failsAs_error trivial
  | succ fuel ih =>
    rw [Requirements.requireFeature]
    split
    · exact failsAs_ok _
    · split
      · exact failsAs_error trivial
      · apply failsAs_foldlM
        intro self value
        cases value with
        | feature g =>
          simp only
          split
          · exact failsAs_error trivial
          · exact ih self g
        | crate n => exact failsAs_ok _
        | crateFeature n g => exact failsAs_ok _

theorem requireValue_failsAs (s : Summary S R) (self : Requirements) (v : FeatureValue) :
    FailsAs Failure.OfExpand (self.requireValue s v) := by
  cases v with
  | feature g => exact requireFeature_failsAs s _ self g
  | crate n => exact failsAs_ok _
  | crateFeature n g => exact failsAs_ok _

theorem buildRequirements_failsAs (s : Summary S R) (method : Method) :
    FailsAs Failure.OfExpand (buildRequirements s method) := by
  have hrequested : FailsAs Failure.OfExpand (requireRequested s method) := by
    unfold requireRequested
    split
    · exact (failsAs_foldlM (requireFeature_failsAs s _) _ _).bind fun reqs _ => failsAs_ok _
    · exact (failsAs_foldlM (requireFeature_failsAs s _) _ _).bind fun reqs _ => failsAs_ok _
    · exact failsAs_foldlM (fun reqs f => requireValue_failsAs s reqs _) _ _
  refine hrequested.bind fun reqs _ => ?_
  split
  · exact requireFeature_failsAs s _ reqs _
  · exact failsAs_ok _

variable [DecidableEq S]

theorem query_failsAs (registry : RegistryQueryer S R) (dep : Dependency S R) :
    FailsAs Failure.OfExpand (registry.query dep) := by
  have hoverride : ∀ s, FailsAs Failure.OfExpand (registry.override s) := by
    intro s
    unfold RegistryQueryer.override
    repeat' split
    all_goals first | exact failsAs_ok _ | exact failsAs_error trivial
  have hregistry : FailsAs Failure.OfExpand
      ((registry.registry dep).mapError (Failure.registry : _ → Failure S R)) := by
    cases registry.registry dep with
    | error e => exact failsAs_error trivial
    | ok l => exact failsAs_ok l
  exact hregistry.bind fun summaries _ =>
    (failsAs_mapM (fun s => (hoverride s).bind fun _ _ => failsAs_ok _) _).bind
      fun _ _ => failsAs_ok _

theorem resolveFeatures_failsAs (ho : SetOrder String) (cx : Context S R)
    (parent : Option (Summary S R)) (s : Summary S R) (method : Method) :
    FailsAs Failure.OfExpand (cx.resolveFeatures ho parent s method) := by
  have henable : ∀ reqs acc dep, FailsAs Failure.OfExpand (enableDep s reqs acc dep) := by
    intro reqs acc dep
    unfold enableDep
    dsimp only
    repeat' split
    all_goals first | exact failsAs_ok _ | exact failsAs_error trivial
  refine (buildRequirements_failsAs s method).bind fun reqs _ => ?_
  refine (failsAs_foldlM (henable reqs) _ _).bind fun enabled _ => ?_
  dsimp only
  repeat' split
  all_goals first | exact failsAs_ok _ | exact failsAs_error trivial

theorem expand_failsAs (env : Env S R) (cx : Context S R) (parent : Option (Summary S R))
    (s : Summary S R) (method : Method) :
    FailsAs Failure.OfExpand (expand env cx parent s method) := by
  have hbuild : FailsAs Failure.OfExpand
      (cx.buildDeps (env.names cx s.packageId) env.registry parent s method) := by
    refine (resolveFeatures_failsAs _ cx parent s method).bind ?_
    rintro ⟨cx', conflict | deps⟩ _
    · exact failsAs_ok _
    · refine (failsAs_mapM (fun entry => ?_) _).bind fun infos _ => failsAs_ok _
      exact (query_failsAs env.registry _).bind fun candidates _ => failsAs_ok _
  refine hbuild.bind ?_
  rintro ⟨cx', ⟨id, reason⟩ | deps⟩ _
  · exact failsAs_ok _
  · exact failsAs_ok _

/-- Flagging a package fails exactly if it is new and claims a `links` value that is taken. -/
theorem flagActivated_eq_error_iff {cx : Context S R} {s : Summary S R} {method : Method}
    {e : Failure S R} :
    cx.flagActivated s method = .error e ↔ ∃ link, e = .duplicateLinks link ∧
      cx.isActive s.packageId = false ∧ s.links = some link ∧ cx.links.lookup link ≠ none := by
  unfold Context.flagActivated
  dsimp only
  split
  · rename_i hactive
    have hactive' : cx.isActive s.packageId = true := hactive
    simp [hactive']
  · rename_i hactive
    have hinactive : cx.isActive s.packageId = false := Bool.eq_false_iff.mpr hactive
    cases hlinks : s.links with
    | none => simp
    | some link =>
      cases hlookup : cx.links.lookup link with
      | none => simp [hlookup]
      | some id =>
        simp only [hlookup, Except.error.injEq, Option.some.injEq]
        constructor
        · rintro rfl
          exact ⟨link, rfl, hinactive, rfl, by simp [hlookup]⟩
        · rintro ⟨link', rfl, -, rfl, -⟩
          rfl

/-- Activating a package fails when its dependencies are not found or a `links` value is taken. -/
theorem activate_failsAs (env : Env S R) (cx : Context S R)
    (parent : Option (Summary S R × Dependency S R)) (c : Candidate S R) (method : Method) :
    FailsAs (fun e => e.OfExpand ∨ ∃ link, e = .duplicateLinks link)
      (activate env cx parent c method) := by
  have hflag : ∀ (cx : Context S R) s,
      FailsAs (fun e => e.OfExpand ∨ ∃ link, e = .duplicateLinks link)
        (cx.flagActivated s method) := by
    intro cx s e he
    obtain ⟨link, rfl, -⟩ := flagActivated_eq_error_iff.mp he
    exact .inr ⟨link, rfl⟩
  have hexpand : ∀ cx s, FailsAs (fun e => e.OfExpand ∨ ∃ link, e = .duplicateLinks link)
      (expand env cx (parent.map Prod.fst) s method) :=
    fun cx s e he => .inl (expand_failsAs env cx _ s method e he)
  refine (hflag _ _).bind ?_
  rintro ⟨activated, cx'⟩ _
  cases c.replace with
  | none =>
    dsimp only
    split
    · exact failsAs_ok _
    · exact hexpand _ _
  | some replace =>
    refine (hflag _ _).bind ?_
    rintro ⟨replaceActivated, cx''⟩ _
    dsimp only
    split
    · exact failsAs_ok _
    · exact hexpand _ _

end Cargo.Resolver
