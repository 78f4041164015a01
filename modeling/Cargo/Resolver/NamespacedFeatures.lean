import Cargo.Math.Pointers
import Cargo.Math.Transition
import Cargo.Resolver.FeatureClosure

/-!
# Namespaced features

With namespaced features, a feature and an optional dependency may have one name; the feature
has to list the dependency then, as `crate:name`. `build_requirements` has one set of visited
names for both, so it matters in which order names come up. That order is described here by an
agenda, a list of what is still to come, and the requirements are compared with its last state.

## Main definitions

* `Agenda`, `Agenda.next` — what has come up, and what comes next
* `Untroubled` — no unknown feature comes up, and no name in the wrong role
* `FlagsDependencies` — what is promised of the dependencies of enabled features

## Main results

* `follows_requireValue` — the walk over the features follows the agenda
* `flagsDependencies_iff` — the promise is kept exactly if the agenda is untroubled
-/

set_option autoImplicit false

namespace Cargo.Resolver

open Cargo.Core Cargo.Math Relation

variable {S R : Type}

/-- The summary of a package with namespaced features. -/
def AcceptedNamespaced (s : Summary S R) : Prop :=
  ∃ packageId dependencies features links,
    Summary.new packageId dependencies features links true = .ok s

/-! ### The order in which names come up -/

/-- What comes up: a value, or the name of a feature among its own values. -/
inductive Mention
  | value (v : FeatureValue)
  | itself (feature : String)
  deriving DecidableEq, Repr

/-- The values of a feature as they come up. -/
def mentions (feature : String) (values : List FeatureValue) : List Mention :=
  values.map fun v => if v = .feature feature then .itself feature else .value v

/-- What is still to come, and the names that have come up: as features and as dependencies, if
they were new, and as dependencies of which a feature is asked for. -/
structure Agenda where
  todo : List Mention
  features : Finset String
  deps : Finset String
  named : Finset String

/-- The agenda for some values. -/
def Agenda.new (values : List FeatureValue) : Agenda := ⟨values.map .value, ∅, ∅, ∅⟩

/-- The agenda after what comes next. A new feature puts its values in front; nothing comes after
a feature among its own values, or after a new name that is not that of a feature. -/
def Agenda.next (s : Summary S R) : Agenda → Option Agenda
  | ⟨[], _, _, _⟩ => none
  | ⟨.itself _ :: _, _, _, _⟩ => none
  | ⟨.value (.feature f) :: todo, features, deps, named⟩ =>
    if f = "" ∨ f ∈ features ∪ deps then some ⟨todo, features, deps, named⟩
    else
      match s.features.lookup f with
      | none => none
      | some values => some ⟨mentions f values ++ todo, insert f features, deps, named⟩
  | ⟨.value (.crate n) :: todo, features, deps, named⟩ =>
    if n ∈ features ∪ deps then some ⟨todo, features, deps, named⟩
    else some ⟨todo, features, insert n deps, named⟩
  | ⟨.value (.crateFeature n _) :: todo, features, deps, named⟩ =>
    some ⟨todo, features, deps, insert n named⟩

/-- One agenda comes after another. -/
def Agenda.Step (s : Summary S R) (a b : Agenda) : Prop := a.next s = some b

/-- A feature lists the dependency. -/
def Lists (s : Summary S R) (f n : String) : Prop :=
  ∃ values, s.features.lookup f = some values ∧ .crate n ∈ values

/-- Whatever comes up as a new name of a feature is a feature of the package. And if all comes up,
then no feature has come up that lists the dependency of its own name; and a feature whose name
has come up otherwise lists only dependencies that have come up as such. -/
structure Untroubled (s : Summary S R) (values : List FeatureValue) : Prop where
  known : ∀ a, ReflTransGen (Agenda.Step s) (.new values) a → ∀ f todo,
    a.todo = .value (.feature f) :: todo → f ≠ "" → f ∉ a.features ∪ a.deps → f ∈ s.features
  separate : ∀ a, ReflTransGen (Agenda.Step s) (.new values) a → a.todo = [] →
    ∀ f ∈ a.features, ¬Lists s f f
  together : ∀ a, ReflTransGen (Agenda.Step s) (.new values) a → a.todo = [] →
    ∀ f ∈ a.deps ∪ a.named, ∀ n, Lists s f n → n ∈ a.deps

/-! ### The walk follows the agenda -/

/-- The requirements are what has come up. -/
structure Traces (reqs : Requirements) (a : Agenda) : Prop where
  visited : ∀ x, x ∈ reqs.visited ↔ x ∈ a.features ∪ a.deps
  used : ∀ x, x ∈ reqs.used ↔ x ∈ a.features ∪ a.deps ∨ x ∈ a.named
  flag : ∀ n, (∃ fs, reqs.deps.lookup n = some (true, fs)) ↔ n ∈ a.deps

/-- What becomes of a walk is what becomes of the agenda up to `todo`. -/
def Follows (s : Summary S R) (a : Agenda) (todo : List Mention) :
    Except (Failure S R) Requirements → Prop
  | .ok reqs => ∃ b, ReflTransGen (Agenda.Step s) a b ∧ b.todo = todo ∧ Traces reqs b
  | .error (.cyclicFeature f) => ∃ b rest, ReflTransGen (Agenda.Step s) a b ∧
      b.todo = .itself f :: rest
  | .error (.invalidFeature f) => ∃ b rest, ReflTransGen (Agenda.Step s) a b ∧
      b.todo = .value (.feature f) :: rest ∧ f ≠ "" ∧ f ∉ b.features ∪ b.deps ∧ f ∉ s.features
  | .error .featureDepth => True
  | .error _ => False

section Follows

variable {s : Summary S R} {a b : Agenda} {todo : List Mention} {reqs : Requirements}

/-- A walk that starts later follows the earlier agenda too. -/
theorem Follows.head {x : Except (Failure S R) Requirements}
    (h : ReflTransGen (Agenda.Step s) a b) (hb : Follows s b todo x) : Follows s a todo x := by
  cases x with
  | ok reqs =>
    obtain ⟨c, hc, hrest⟩ := hb
    exact ⟨c, h.trans hc, hrest⟩
  | error e =>
    cases e with
    | cyclicFeature f =>
      obtain ⟨c, rest, hc, hrest⟩ := hb
      exact ⟨c, rest, h.trans hc, hrest⟩
    | invalidFeature f =>
      obtain ⟨c, rest, hc, hrest⟩ := hb
      exact ⟨c, rest, h.trans hc, hrest⟩
    | featureDepth => trivial
    | _ => exact hb

/-- One walk after the other. -/
theorem Follows.bind {x : Except (Failure S R) Requirements} {todo' : List Mention}
    {f : Requirements → Except (Failure S R) Requirements} (hx : Follows s a todo x)
    (hf : ∀ reqs b, Traces reqs b → b.todo = todo → Follows s b todo' (f reqs)) :
    Follows s a todo' (x >>= f) := by
  cases x with
  | ok reqs =>
    obtain ⟨b, hb, htodo, htraces⟩ := hx
    exact (hf reqs b htraces htodo).head hb
  | error e =>
    cases e with
    | cyclicFeature f => exact hx
    | invalidFeature f => exact hx
    | featureDepth => trivial
    | _ => exact hx

/-- A loop follows the agenda if each of its turns follows the part that it is about. -/
theorem Follows.foldlM {α : Type} {f : Requirements → α → Except (Failure S R) Requirements}
    (mention : α → Mention) (l : List α)
    (hf : ∀ x ∈ l, ∀ reqs b rest, Traces reqs b → b.todo = mention x :: rest →
      Follows s b rest (f reqs x))
    (htraces : Traces reqs a) (htodo : a.todo = l.map mention ++ todo) :
    Follows s a todo (l.foldlM f reqs) := by
  induction l generalizing reqs a with
  | nil => exact ⟨a, .refl, htodo, htraces⟩
  | cons x l ih =>
    rw [List.foldlM_cons]
    refine (hf x List.mem_cons_self reqs a _ htraces htodo).bind ?_
    intro reqs' b htraces' htodo'
    exact ih (fun y hy => hf y (List.mem_cons_of_mem x hy)) htraces' htodo'

theorem follows_requireDependency {n : String} (htraces : Traces reqs a)
    (htodo : a.todo = .value (.crate n) :: todo) :
    Follows s a todo (.ok (reqs.requireDependency n)) := by
  obtain ⟨_, features, deps, named⟩ := a
  subst htodo
  unfold Requirements.requireDependency
  split
  · rename_i hvisited
    have hseen : n ∈ features ∪ deps := (htraces.visited n).mp hvisited
    refine ⟨⟨todo, features, deps, named⟩, .single ?_, rfl, htraces.1, htraces.2, htraces.3⟩
    exact if_pos hseen
  · rename_i hvisited
    have hseen : n ∉ features ∪ deps := fun h => hvisited ((htraces.visited n).mpr h)
    refine ⟨⟨todo, features, insert n deps, named⟩, .single ?_, rfl, ?_, ?_, ?_⟩
    · exact if_neg hseen
    · intro x
      have hx := htraces.visited x
      simp only [Requirements.mark, Finset.mem_insert, Finset.mem_union] at hx ⊢
      tauto
    · intro x
      have hx := htraces.used x
      simp only [Requirements.mark, Finset.mem_insert, Finset.mem_union] at hx ⊢
      tauto
    · intro m
      have hm := htraces.flag m
      by_cases hmn : m = n
      · subst hmn
        simp [Finmap.lookup_insert]
      · simpa [Finmap.lookup_insert_of_ne _ hmn, hmn] using hm

theorem follows_requireCrateFeature {n g : String} (htraces : Traces reqs a)
    (htodo : a.todo = .value (.crateFeature n g) :: todo) :
    Follows s a todo (.ok (reqs.requireCrateFeature n g)) := by
  obtain ⟨_, features, deps, named⟩ := a
  subst htodo
  refine ⟨⟨todo, features, deps, insert n named⟩, .single rfl, rfl, htraces.visited, ?_, ?_⟩
  · intro x
    have hx := htraces.used x
    simp only [Requirements.requireCrateFeature, Finset.mem_insert] at hx ⊢
    tauto
  · intro m
    have hm := htraces.flag m
    by_cases hmn : m = n
    · subst hmn
      rw [← hm]
      cases hlookup : reqs.deps.lookup m with
      | none => simp [Requirements.requireCrateFeature, Requirements.entry, hlookup]
      | some e =>
        obtain ⟨flag, fs⟩ := e
        simp [Requirements.requireCrateFeature, Requirements.entry, hlookup]
    · simpa [Requirements.requireCrateFeature, Finmap.lookup_insert_of_ne _ hmn] using hm

theorem Traces.mark {f : String} {features deps named : Finset String} {todo' : List Mention}
    (h : Traces reqs ⟨todo, features, deps, named⟩) :
    Traces (reqs.mark f) ⟨todo', insert f features, deps, named⟩ := by
  refine ⟨?_, ?_, h.flag⟩
  · intro x
    have hx := h.visited x
    simp only [Requirements.mark, Finset.mem_insert, Finset.mem_union] at hx ⊢
    tauto
  · intro x
    have hx := h.used x
    simp only [Requirements.mark, Finset.mem_insert, Finset.mem_union] at hx ⊢
    tauto

theorem follows_requireFeature {fuel : ℕ} {f : String} (htraces : Traces reqs a)
    (htodo : a.todo = .value (.feature f) :: todo) :
    Follows s a todo (Requirements.requireFeature s fuel reqs f) := by
  induction fuel generalizing reqs a todo f with
  | zero => trivial
  | succ fuel ih =>
    obtain ⟨_, features, deps, named⟩ := a
    subst htodo
    have hseen : f = "" ∨ f ∈ reqs.visited ↔ f = "" ∨ f ∈ features ∪ deps :=
      or_congr_right (htraces.visited f)
    rw [Requirements.requireFeature]
    by_cases hskip : f = "" ∨ f ∈ features ∪ deps
    · rw [if_pos (hseen.mpr hskip)]
      refine ⟨⟨todo, features, deps, named⟩, .single ?_, rfl, htraces.1, htraces.2, htraces.3⟩
      exact if_pos hskip
    rw [if_neg fun h => hskip (hseen.mp h)]
    cases hlookup : s.features.lookup f with
    | none =>
      obtain ⟨hne, hnew⟩ := not_or.mp hskip
      exact ⟨_, todo, .refl, rfl, hne, hnew, Finmap.lookup_eq_none.mp hlookup⟩
    | some values =>
      -- the values of the feature come up next
      have hstep : Agenda.Step s ⟨.value (.feature f) :: todo, features, deps, named⟩
          ⟨mentions f values ++ todo, insert f features, deps, named⟩ := by
        rw [Agenda.Step, Agenda.next, if_neg hskip, hlookup]
      refine Follows.head (.single hstep) ?_
      refine Follows.foldlM (fun v => if v = .feature f then .itself f else .value v) values ?_
        htraces.mark rfl
      intro v _ reqs' b rest htraces' htodo'
      cases v with
      | feature g =>
        dsimp only
        by_cases hg : g = f
        · rw [if_pos (congrArg FeatureValue.feature hg)] at htodo'
          rw [if_pos hg]
          exact ⟨b, rest, .refl, htodo'⟩
        · rw [if_neg (fun h => hg (FeatureValue.feature.inj h))] at htodo'
          rw [if_neg hg]
          exact ih htraces' htodo'
      | crate n =>
        rw [if_neg (by simp)] at htodo'
        exact follows_requireDependency htraces' htodo'
      | crateFeature n g =>
        rw [if_neg (by simp)] at htodo'
        exact follows_requireCrateFeature htraces' htodo'

theorem follows_requireValue {v : FeatureValue} (htraces : Traces reqs a)
    (htodo : a.todo = .value v :: todo) : Follows s a todo (reqs.requireValue s v) := by
  cases v with
  | feature f => exact follows_requireFeature htraces htodo
  | crate n => exact follows_requireDependency htraces htodo
  | crateFeature n g => exact follows_requireCrateFeature htraces htodo

theorem traces_new (values : List FeatureValue) : Traces Requirements.new (Agenda.new values) := by
  constructor <;> simp [Requirements.new, Agenda.new]

theorem follows_buildRequirements (s : Summary S R) (method : Method) :
    Follows s (.new (starts s method)) [] (buildRequirements s method) := by
  rw [buildRequirements_eq]
  refine Follows.foldlM .value (starts s method) ?_ (traces_new _) (by simp [Agenda.new])
  intro v _ reqs b rest htraces htodo
  exact follows_requireValue htraces htodo

end Follows

/-- The requirements, or a feature that lists itself, or a panic over an unknown feature. -/
theorem buildRequirements_cases (s : Summary S R) (method : Method) :
    (∃ reqs, buildRequirements s method = .ok reqs) ∨
      (∃ f, buildRequirements s method = .error (.cyclicFeature f)) ∨
        ∃ f, buildRequirements s method = .error (.invalidFeature f) := by
  have hfollows := follows_buildRequirements s method
  have hdepth : buildRequirements s method ≠ .error .featureDepth := by
    rw [buildRequirements_eq]
    refine foldlM_ne_error (P := fun _ r => r.visited ⊆ r.used) new_visited_used ?_
    intro pre v post r hl hr
    refine ⟨?_, fun r' hr' => (Requirements.requireValue_grows hr' hr).1.visited_used hr⟩
    cases v with
    | feature f =>
      exact requireFeature_ne_featureDepth hr
        (Nat.lt_succ_of_le (Finset.card_le_card Finset.sdiff_subset))
    | crate n => simp [Requirements.requireValue]
    | crateFeature n g => simp [Requirements.requireValue]
  cases hbuild : buildRequirements s method with
  | ok reqs => exact .inl ⟨reqs, rfl⟩
  | error e =>
    rw [hbuild] at hfollows hdepth
    cases e with
    | cyclicFeature f => exact .inr (.inl ⟨f, rfl⟩)
    | invalidFeature f => exact .inr (.inr ⟨f, rfl⟩)
    | featureDepth => exact absurd rfl hdepth
    | _ => exact hfollows.elim

/-! ### What `Summary::new` makes sure of -/

/-- The dependencies that a feature lists are in the manifest, and one with the name of the
feature is listed by it. -/
structure ListedDeps (dependencies : List (Dependency S R)) (f : String)
    (values : List FeatureValue) : Prop where
  known : ∀ n, .crate n ∈ values → depData dependencies n ≠ []
  own : depData dependencies f ≠ [] → .crate f ∈ values

theorem checkValue_listedDeps {features : Finmap fun _ : String => List String}
    {dependencies : List (Dependency S R)} {feature : String} {map map' : FeatureMap}
    {value : FeatureValue}
    (h : checkValue features dependencies true feature map value = .ok map')
    (hmap : ∀ f values, map.lookup f = some values → ListedDeps dependencies f values) :
    (∀ f values, map'.lookup f = some values → ListedDeps dependencies f values) ∧
      ∀ n, value = .crate n → depData dependencies n ≠ [] := by
  cases value with
  | feature g =>
    refine ⟨?_, by simp⟩
    simp only [checkValue, true_and] at h
    split at h
    · split at h
      · rename_i hoptional
        cases h
        intro f values hlookup
        by_cases hf : f = g
        · -- the implicit feature lists its dependency
          subst hf
          rw [Finmap.lookup_insert] at hlookup
          cases hlookup
          refine ⟨fun n hn => ?_, fun _ => List.mem_singleton_self _⟩
          cases List.mem_singleton.mp hn
          intro hnil
          rw [hnil] at hoptional
          cases hoptional
        · rw [Finmap.lookup_insert_of_ne _ hf] at hlookup
          exact hmap f values hlookup
      · cases h
    · cases h
      exact hmap
  | crate n =>
    simp only [checkValue] at h
    split at h
    · cases h
    -- only here the check asks for a dependency of that name
    · rename_i hknown
      split at h
      · cases h
        refine ⟨hmap, ?_⟩
        rintro _ ⟨⟩
        exact hknown
      · cases h
  | crateFeature n g =>
    refine ⟨?_, by simp⟩
    simp only [checkValue] at h
    split at h
    · cases h
    · cases h
      exact hmap

theorem addFeature_listedDeps {features : Finmap fun _ : String => List String}
    {dependencies : List (Dependency S R)} {feature : String} {map map' : FeatureMap}
    (h : addFeature features dependencies true map feature = .ok map')
    (hmap : ∀ f values, map.lookup f = some values → ListedDeps dependencies f values) :
    ∀ f values, map'.lookup f = some values → ListedDeps dependencies f values := by
  obtain ⟨needed, hneeded, h⟩ := bind_eq_ok.mp h
  obtain ⟨mid, hmid, h⟩ := bind_eq_ok.mp h
  obtain ⟨hmid, hvalues⟩ := foldlM_ok_induction
    (P := fun pre (m : FeatureMap) =>
      (∀ f values, m.lookup f = some values → ListedDeps dependencies f values) ∧
        ∀ v ∈ pre, ∀ n, v = .crate n → depData dependencies n ≠ [])
    hmid ⟨hmap, by simp⟩
    (by
      rintro pre v post m m' - ⟨hm, hpre⟩ hcheck
      obtain ⟨hm', hv⟩ := checkValue_listedDeps hcheck hm
      refine ⟨hm', fun w hw => ?_⟩
      rcases List.mem_append.mp hw with hw | hw
      · exact hpre w hw
      · rw [List.mem_singleton.mp hw]
        exact hv)
  split at h
  · cases h
  · rename_i hfound
    cases h
    intro f values hlookup
    by_cases hf : f = feature
    · subst hf
      rw [Finmap.lookup_insert] at hlookup
      cases hlookup
      refine ⟨fun n hn => hvalues _ hn n rfl, fun hown => ?_⟩
      -- a dependency of this name has to be found among the values
      have htrue : needed = true := by
        unfold needsDependency at hneeded
        rw [if_pos ⟨rfl, hown⟩] at hneeded
        split at hneeded
        · cases hneeded
          rfl
        · cases hneeded
      rw [htrue] at hfound
      simpa using hfound
    · rw [Finmap.lookup_insert_of_ne _ hf] at hlookup
      exact hmid f values hlookup

/-- A feature that has the name of a dependency which some feature lists, lists it too. -/
theorem lists_own {s : Summary S R} (h : AcceptedNamespaced s) {f n : String}
    (hlists : Lists s f n) (hn : n ∈ s.features) : Lists s n n := by
  obtain ⟨packageId, dependencies, features, links, h⟩ := h
  obtain ⟨-, hmap, -⟩ := Summary.new_eq_ok.mp h
  have hlisted : ∀ f values, s.features.lookup f = some values →
      ListedDeps dependencies f values := by
    refine foldlM_ok_induction
      (P := fun _ (m : FeatureMap) => ∀ f values, m.lookup f = some values →
        ListedDeps dependencies f values) hmap (fun f values hlookup => by simp at hlookup) ?_
    rintro pre feature post m m' - hm hadd
    exact addFeature_listedDeps hadd hm
  obtain ⟨values, hlookup, hmem⟩ := hlists
  obtain ⟨own, hown⟩ := Finmap.mem_iff.mp hn
  exact ⟨own, hown, (hlisted n own hown).own ((hlisted f values hlookup).known n hmem)⟩

/-! ### The end of the agenda -/

/-- What holds of every agenda on the way: a name has come up in one role, and what a feature
that has come up lists has come up or is still to come. -/
structure Agenda.Regular (s : Summary S R) (a : Agenda) : Prop where
  disjoint : ∀ f ∈ a.features, f ∉ a.deps
  defined : ∀ f ∈ a.features, f ∈ s.features
  listed : ∀ f ∈ a.features, ∀ n, Lists s f n →
    n ∈ a.features ∪ a.deps ∨ .value (.crate n) ∈ a.todo

section Agenda

variable {s : Summary S R} {a b : Agenda}

theorem mem_mentions {f n : String} {values : List FeatureValue} (h : .crate n ∈ values) :
    .value (.crate n) ∈ mentions f values :=
  List.mem_map.mpr ⟨.crate n, h, if_neg (by simp)⟩

theorem Agenda.Regular.next (h : a.Regular s) (hstep : Agenda.Step s a b) : b.Regular s := by
  obtain ⟨todo, features, deps, named⟩ := a
  obtain ⟨hdisjoint, hdefined, hlisted⟩ := h
  dsimp only at hdisjoint hdefined hlisted
  cases todo with
  | nil => cases hstep
  | cons m todo =>
    -- what comes next is the only thing not to come any more
    have hrest : ∀ v, m = .value v → ∀ f ∈ features, ∀ n, Lists s f n →
        n ∈ features ∪ deps ∨ v = .crate n ∨ .value (.crate n) ∈ todo := by
      rintro v rfl f hf n hlists
      rcases hlisted f hf n hlists with hseen | hmem
      · exact .inl hseen
      · rcases List.mem_cons.mp hmem with heq | hmem
        · exact .inr (.inl (Mention.value.inj heq).symm)
        · exact .inr (.inr hmem)
    cases m with
    | itself f => cases hstep
    | value v =>
      replace hrest := hrest v rfl
      cases v with
      | feature f =>
        rw [Agenda.Step, Agenda.next] at hstep
        split at hstep
        · cases hstep
          refine ⟨hdisjoint, hdefined, fun g hg n hlists => ?_⟩
          exact (hrest g hg n hlists).imp_right fun h => h.resolve_left (by simp)
        · rename_i hnew
          rw [not_or, Finset.mem_union, not_or] at hnew
          split at hstep
          · cases hstep
          · rename_i values hvalues
            cases hstep
            refine ⟨fun g hg => ?_, fun g hg => ?_, fun g hg n hlists => ?_⟩
            · rcases Finset.mem_insert.mp hg with rfl | hg
              · exact hnew.2.2
              · exact hdisjoint g hg
            · rcases Finset.mem_insert.mp hg with rfl | hg
              · exact Finmap.mem_of_lookup_eq_some hvalues
              · exact hdefined g hg
            · rcases Finset.mem_insert.mp hg with rfl | hg
              · obtain ⟨values', hvalues', hmem⟩ := hlists
                cases hvalues.symm.trans hvalues'
                exact .inr (List.mem_append_left _ (mem_mentions hmem))
              · rcases hrest g hg n hlists with hseen | hcrate | hmem
                · rw [Finset.insert_union]
                  exact .inl (Finset.mem_insert_of_mem hseen)
                · cases hcrate
                · exact .inr (List.mem_append_right _ hmem)
      | crate m =>
        rw [Agenda.Step, Agenda.next] at hstep
        split at hstep
        · rename_i hseen
          cases hstep
          refine ⟨hdisjoint, hdefined, fun g hg n hlists => ?_⟩
          rcases hrest g hg n hlists with hseen' | hcrate | hmem
          · exact .inl hseen'
          · cases hcrate
            exact .inl hseen
          · exact .inr hmem
        · rename_i hnew
          rw [Finset.mem_union, not_or] at hnew
          cases hstep
          refine ⟨fun g hg hmem => ?_, hdefined, fun g hg n hlists => ?_⟩
          · rcases Finset.mem_insert.mp hmem with rfl | hmem
            · exact hnew.1 hg
            · exact hdisjoint g hg hmem
          · rw [Finset.union_insert, Finset.mem_insert]
            rcases hrest g hg n hlists with hseen | hcrate | hmem
            · exact .inl (.inr hseen)
            · cases hcrate
              exact .inl (.inl rfl)
            · exact .inr hmem
      | crateFeature m g =>
        cases hstep
        refine ⟨hdisjoint, hdefined, fun f hf n hlists => ?_⟩
        exact (hrest f hf n hlists).imp_right fun h => h.resolve_left (by simp)

theorem Agenda.regular_of_reachable {values : List FeatureValue}
    (h : ReflTransGen (Agenda.Step s) (.new values) a) : a.Regular s := by
  refine invariant_of_reachable (P := fun a : Agenda => a.Regular s) h ?_ fun _ _ ha hab =>
    ha.next hab
  constructor <;> simp [Agenda.new]

theorem Agenda.step_rightUnique : Relator.RightUnique (Agenda.Step s) := by
  intro a b c hb hc
  exact Option.some.inj (hb.symm.trans hc)

theorem Agenda.end_nil (h : a.todo = []) (x : Agenda) : ¬Agenda.Step s a x := by
  obtain ⟨_, features, deps, named⟩ := a
  subst h
  exact nofun

theorem Agenda.end_itself {f : String} {todo : List Mention} (h : a.todo = .itself f :: todo)
    (x : Agenda) : ¬Agenda.Step s a x := by
  obtain ⟨_, features, deps, named⟩ := a
  subst h
  exact nofun

theorem Agenda.end_unknown {f : String} {todo : List Mention}
    (h : a.todo = .value (.feature f) :: todo) (hne : f ≠ "") (hnew : f ∉ a.features ∪ a.deps)
    (hunknown : f ∉ s.features) (x : Agenda) : ¬Agenda.Step s a x := by
  obtain ⟨_, features, deps, named⟩ := a
  subst h
  rw [Agenda.Step, Agenda.next, if_neg (not_or.mpr ⟨hne, hnew⟩),
    Finmap.lookup_eq_none.mpr hunknown]
  exact nofun

/-- If the walk ends well, then so does the agenda, and the requirements are what came up. -/
theorem traces_end {method : Method} {reqs : Requirements}
    (h : buildRequirements s method = .ok reqs) :
    ∃ b, ReflTransGen (Agenda.Step s) (.new (starts s method)) b ∧ b.todo = [] ∧
      Traces reqs b := by
  have hfollows := follows_buildRequirements s method
  rw [h] at hfollows
  exact hfollows

end Agenda

/-! ### What is promised -/

/-- There is no panic, and the dependencies that enabled features list are asked for. -/
def FlagsDependencies (s : Summary S R) (method : Method) : Prop :=
  ((∃ reqs, buildRequirements s method = .ok reqs) ∨
    ∃ f, buildRequirements s method = .error (.cyclicFeature f)) ∧
  ∀ reqs, buildRequirements s method = .ok reqs → ∀ f ∈ reqs.used, ∀ n, Lists s f n →
    ∃ fs, reqs.deps.lookup n = some (true, fs)

theorem flagsDependencies_iff (s : Summary S R) (hs : AcceptedNamespaced s) (method : Method) :
    FlagsDependencies s method ↔ Untroubled s (starts s method) := by
  have hfollows := follows_buildRequirements s method
  constructor
  · rintro ⟨hresult, hflags⟩
    -- where the agenda ends, the walk has ended
    have hends : ∀ a, ReflTransGen (Agenda.Step s) (.new (starts s method)) a →
        (∀ x, ¬Agenda.Step s a x) →
        (∃ f rest, a.todo = .itself f :: rest) ∨
          a.todo = [] ∧ ∃ reqs, buildRequirements s method = .ok reqs ∧ Traces reqs a := by
      intro a ha hend
      rcases hresult with ⟨reqs, hreqs⟩ | ⟨f, hf⟩
      · obtain ⟨b, hb, htodo, htraces⟩ := traces_end hreqs
        rw [end_unique Agenda.step_rightUnique ha hb hend (Agenda.end_nil htodo)]
        exact .inr ⟨htodo, reqs, hreqs, htraces⟩
      · rw [hf] at hfollows
        obtain ⟨b, rest, hb, htodo⟩ := hfollows
        rw [end_unique Agenda.step_rightUnique ha hb hend (Agenda.end_itself htodo)]
        exact .inl ⟨f, rest, htodo⟩
    have hdone : ∀ a, ReflTransGen (Agenda.Step s) (.new (starts s method)) a → a.todo = [] →
        ∃ reqs, buildRequirements s method = .ok reqs ∧ Traces reqs a := by
      intro a ha htodo
      rcases hends a ha (Agenda.end_nil htodo) with ⟨f, rest, hitself⟩ | ⟨-, hreqs⟩
      · rw [htodo] at hitself
        cases hitself
      · exact hreqs
    refine ⟨?_, ?_, ?_⟩
    · intro a ha f todo htodo hne hnew
      by_contra hunknown
      rcases hends a ha (Agenda.end_unknown htodo hne hnew hunknown) with
        ⟨g, rest, hitself⟩ | ⟨hnil, -⟩
      · rw [htodo] at hitself
        cases hitself
      · rw [htodo] at hnil
        cases hnil
    · intro a ha htodo f hf hlists
      obtain ⟨reqs, hreqs, htraces⟩ := hdone a ha htodo
      have hused : f ∈ reqs.used :=
        (htraces.used f).mpr (.inl (Finset.mem_union_left _ hf))
      have hdep := (htraces.flag f).mp (hflags reqs hreqs f hused f hlists)
      exact (Agenda.regular_of_reachable ha).disjoint f hf hdep
    · intro a ha htodo f hf n hlists
      obtain ⟨reqs, hreqs, htraces⟩ := hdone a ha htodo
      have hused : f ∈ reqs.used := by
        rw [htraces.used, Finset.mem_union]
        rcases Finset.mem_union.mp hf with hf | hf
        · exact .inl (.inr hf)
        · exact .inr hf
      exact (htraces.flag n).mp (hflags reqs hreqs f hused n hlists)
  · rintro ⟨hknown, hseparate, htogether⟩
    refine ⟨?_, ?_⟩
    · rcases buildRequirements_cases s method with hok | hcyclic | ⟨f, hf⟩
      · exact .inl hok
      · exact .inr hcyclic
      · rw [hf] at hfollows
        obtain ⟨b, rest, hb, htodo, hne, hnew, hunknown⟩ := hfollows
        exact absurd (hknown b hb f rest htodo hne hnew) hunknown
    · intro reqs hreqs f hf n hlists
      obtain ⟨b, hb, htodo, htraces⟩ := traces_end hreqs
      have hregular := Agenda.regular_of_reachable hb
      rw [htraces.flag]
      rw [htraces.used, Finset.mem_union] at hf
      rcases hf with (hfeature | hdep) | hnamed
      · have hseen : n ∈ b.features ∪ b.deps := by
          refine (hregular.listed f hfeature n hlists).resolve_right ?_
          rw [htodo]
          exact nofun
        rcases Finset.mem_union.mp hseen with hn | hn
        · -- a feature with the name of a listed dependency lists it itself
          exact absurd (lists_own hs hlists (hregular.defined n hn)) (hseparate b hb htodo n hn)
        · exact hn
      · exact htogether b hb htodo f (Finset.mem_union_left _ hdep) n hlists
      · exact htogether b hb htodo f (Finset.mem_union_right _ hnamed) n hlists

/-! ### A feature with the name of its dependency -/

/-- The features of the manifest: both enable the optional dependency `foo`. -/
def namesakeFeatures : Finmap fun _ : String => List String :=
  (Finmap.singleton "bar" ["crate:foo"]).insert "foo" ["crate:foo"]

def namesakeDependencies : List (Dependency ℕ (List Version)) :=
  [{ Dependency.parse "foo" [⟨1, 0, 0, []⟩] 0 with optional := true }]

theorem sortedKeys_namesakeFeatures : sortedKeys namesakeFeatures = ["bar", "foo"] := by
  have hkeys : namesakeFeatures.keys = insert "bar" {"foo"} := by decide
  rw [sortedKeys, hkeys, Finset.sort_insert, Finset.sort_singleton]
  · decide
  · decide

def namesakeMap : FeatureMap :=
  (Finmap.singleton "bar" [.crate "foo"]).insert "foo" [.crate "foo"]

def namesakePackage : Summary ℕ (List Version) where
  packageId := ⟨"p", ⟨1, 0, 0, []⟩, 0⟩
  dependencies := namesakeDependencies
  features := namesakeMap
  checksum := none
  links := none
  namespacedFeatures := true
  names_disjoint := by decide
  optional_transitive := by decide

theorem namesakePackage_accepted : AcceptedNamespaced namesakePackage := by
  refine ⟨namesakePackage.packageId, namesakeDependencies, namesakeFeatures, none, ?_⟩
  refine Summary.new_eq_ok.mpr ⟨rfl, ?_, rfl, rfl, rfl, rfl, rfl⟩
  rw [buildFeatureMap, sortedKeys_namesakeFeatures]
  rfl

/-- The feature `bar` brings in the dependency, and nothing comes up that is unknown. -/
theorem bar_untroubled : AcceptedNamespaced namesakePackage ∧
    Untroubled namesakePackage (starts namesakePackage (.required false ["bar"] false false)) := by
  refine ⟨namesakePackage_accepted, ?_⟩
  refine (flagsDependencies_iff namesakePackage namesakePackage_accepted _).mp ?_
  have hbuild : buildRequirements namesakePackage (.required false ["bar"] false false) =
      .ok ⟨Finmap.singleton "foo" (true, []), {"foo", "bar"}, {"foo", "bar"}⟩ := rfl
  refine ⟨.inl ⟨_, hbuild⟩, ?_⟩
  intro reqs hreqs f hf n hlists
  rw [hbuild] at hreqs
  cases hreqs
  obtain ⟨values, hlookup, hmem⟩ := hlists
  have hfoo : namesakePackage.features.lookup "foo" = some [.crate "foo"] := rfl
  have hbar : namesakePackage.features.lookup "bar" = some [.crate "foo"] := rfl
  have hvalues : values = [.crate "foo"] := by
    rcases Finset.mem_insert.mp hf with rfl | hf
    · exact Option.some.inj (hlookup.symm.trans hfoo)
    · rw [Finset.mem_singleton.mp hf] at hlookup
      exact Option.some.inj (hlookup.symm.trans hbar)
  rw [hvalues] at hmem
  cases List.mem_singleton.mp hmem
  exact ⟨[], rfl⟩

/-- Asked for by its own name, the feature `foo` leaves its dependency out; and a name that is
not that of a feature is a panic. -/
theorem foo_leaves_foo_out : AcceptedNamespaced namesakePackage ∧
    ¬FlagsDependencies namesakePackage (.required false ["foo"] false false) ∧
    buildRequirements namesakePackage (.required false ["baz"] false false) =
      .error (.invalidFeature "baz") := by
  have hbuild : buildRequirements namesakePackage (.required false ["foo"] false false) =
      .ok ⟨∅, {"foo"}, {"foo"}⟩ := rfl
  refine ⟨namesakePackage_accepted, ?_, rfl⟩
  rintro ⟨-, hflags⟩
  obtain ⟨fs, hlookup⟩ := hflags _ hbuild "foo" (by decide) "foo" ⟨_, rfl, by decide⟩
  cases hlookup

end Cargo.Resolver
