import Cargo.Resolver.Context

/-!
# What the features asked of a package require

`buildRequirements` walks the features that are asked for and everything they enable. The
order `Requirements.Le` says that nothing found on the way is lost, and `Grows` that
whatever is newly found is complete: every value of a newly used feature is satisfied.

## Main definitions

* `Requirements.Satisfies` — a value of a feature is met
* `Requirements.Grows` — what a walk may add
* `Requirements.Walk` — a property that every walk keeps

## Main results

* `requireFeature_grows` — requiring a feature adds the feature and all it enables
* `buildRequirements_grows`, `buildRequirements_satisfies`, `buildRequirements_default` —
  what is met in the end
* `requireFeature_ne_featureDepth` — the bound on the depth is enough
-/

set_option autoImplicit false

namespace Cargo.Resolver

open Cargo.Core Cargo.Math

variable {S R : Type}

namespace Requirements

/-- Nothing that `a` requires is lost in `b`. -/
structure Le (a b : Requirements) : Prop where
  used : a.used ⊆ b.used
  visited : a.visited ⊆ b.visited
  deps : ∀ n flag fs, a.deps.lookup n = some (flag, fs) →
    ∃ flag' fs', b.deps.lookup n = some (flag', fs') ∧ fs ⊆ fs'

theorem Le.refl (a : Requirements) : a.Le a :=
  ⟨subset_rfl, subset_rfl, fun _ flag fs h => ⟨flag, fs, h, fun _ hf => hf⟩⟩

theorem Le.trans {a b c : Requirements} (hab : a.Le b) (hbc : b.Le c) : a.Le c := by
  refine ⟨hab.used.trans hbc.used, hab.visited.trans hbc.visited, ?_⟩
  intro n flag fs h
  obtain ⟨flag', fs', h', hfs⟩ := hab.deps n flag fs h
  obtain ⟨flag'', fs'', h'', hfs'⟩ := hbc.deps n flag' fs' h'
  exact ⟨flag'', fs'', h'', fun f hf => hfs' (hfs hf)⟩

theorem Le.mem_deps {a b : Requirements} (h : a.Le b) {n : String} (hn : n ∈ a.deps) :
    n ∈ b.deps := by
  obtain ⟨⟨flag, fs⟩, hlookup⟩ := Finmap.mem_iff.mp hn
  obtain ⟨flag', fs', h', -⟩ := h.deps n flag fs hlookup
  exact Finmap.mem_of_lookup_eq_some h'

/-- The value `v` of a feature is met. -/
def Satisfies (self : Requirements) : FeatureValue → Prop
  | .feature g => g = "" ∨ g ∈ self.used
  | .crate n => n ∈ self.used
  | .crateFeature n g => n ∈ self.used ∧
    ∃ flag fs, self.deps.lookup n = some (flag, fs) ∧ g ∈ fs

theorem Satisfies.mono {a b : Requirements} (hab : a.Le b) {v : FeatureValue}
    (h : a.Satisfies v) : b.Satisfies v := by
  cases v with
  | feature g => exact h.imp_right fun hg => hab.used hg
  | crate n => exact hab.used h
  | crateFeature n g =>
    obtain ⟨hn, flag, fs, hlookup, hg⟩ := h
    obtain ⟨flag', fs', hlookup', hfs⟩ := hab.deps n flag fs hlookup
    exact ⟨hab.used hn, flag', fs', hlookup', hfs hg⟩

/-- All values of the feature `f` of `s` are met. -/
def Complete (s : Summary S R) (self : Requirements) (f : String) : Prop :=
  ∀ values, s.features.lookup f = some values → ∀ v ∈ values, self.Satisfies v

/-- `b` adds to `a` names of dependencies and features all of whose values are met. -/
structure Grows (s : Summary S R) (a b : Requirements) : Prop where
  le : a.Le b
  visited_used : a.visited ⊆ a.used → b.visited ⊆ b.used
  complete : ∀ f ∈ b.used, f ∉ a.used →
    f ∈ b.deps ∨ f ∈ s.features ∧ Complete s b f

theorem Grows.refl (s : Summary S R) (a : Requirements) : Grows s a a :=
  ⟨.refl a, id, fun _ hf hnot => absurd hf hnot⟩

theorem Grows.trans {s : Summary S R} {a b c : Requirements} (hab : Grows s a b)
    (hbc : Grows s b c) : Grows s a c := by
  refine ⟨hab.le.trans hbc.le, fun h => hbc.visited_used (hab.visited_used h), ?_⟩
  intro f hf hnot
  by_cases hfb : f ∈ b.used
  · rcases hab.complete f hfb hnot with hdeps | ⟨hmem, hcomplete⟩
    · exact Or.inl (hbc.le.mem_deps hdeps)
    · exact Or.inr ⟨hmem, fun values hvalues v hv => (hcomplete values hvalues v hv).mono hbc.le⟩
  · exact hbc.complete f hf hfb

/-! ### One requirement -/

theorem entry_eq {self : Requirements} {n : String} {flag : Bool} {fs : List String}
    (h : self.deps.lookup n = some (flag, fs)) : self.entry n = (flag, fs) := by
  simp [entry, h]

theorem le_insert_deps {self : Requirements} {n : String} {flag : Bool} {fs : List String}
    {used visited : Finset String} (hused : self.used ⊆ used) (hvisited : self.visited ⊆ visited)
    (hfs : (self.entry n).2 ⊆ fs) :
    self.Le ⟨self.deps.insert n (flag, fs), used, visited⟩ := by
  refine ⟨hused, hvisited, ?_⟩
  intro m flag' fs' h
  by_cases hm : m = n
  · subst hm
    refine ⟨flag, fs, Finmap.lookup_insert _, ?_⟩
    rw [entry_eq h] at hfs
    exact hfs
  · exact ⟨flag', fs', by rw [Finmap.lookup_insert_of_ne _ hm, h], fun _ hf => hf⟩

theorem requireCrateFeature_grows (s : Summary S R) (self : Requirements) (n g : String) :
    Grows s self (self.requireCrateFeature n g) ∧
      (self.requireCrateFeature n g).Satisfies (.crateFeature n g) := by
  refine ⟨⟨?_, ?_, ?_⟩, ?_⟩
  · exact le_insert_deps (Finset.subset_insert _ _) subset_rfl (List.subset_append_left _ _)
  · exact fun h => h.trans (Finset.subset_insert _ _)
  · intro f hf hnot
    obtain rfl : f = n := (Finset.mem_insert.mp hf).resolve_right hnot
    exact Or.inl (Finmap.mem_insert.mpr (Or.inl rfl))
  · refine ⟨Finset.mem_insert_self _ _, _, _, Finmap.lookup_insert _, ?_⟩
    simp

theorem requireDependency_grows (s : Summary S R) (self : Requirements) (n : String)
    (hvisited : self.visited ⊆ self.used) :
    Grows s self (self.requireDependency n) ∧ (self.requireDependency n).Satisfies (.crate n) := by
  unfold requireDependency
  split
  · rename_i hn
    exact ⟨.refl s self, hvisited hn⟩
  · refine ⟨⟨?_, ?_, ?_⟩, Finset.mem_insert_self _ _⟩
    · exact le_insert_deps (Finset.subset_insert _ _) (Finset.subset_insert _ _) (fun _ hf => hf)
    · exact fun h => Finset.insert_subset_insert _ h
    · intro f hf hnot
      obtain rfl : f = n := (Finset.mem_insert.mp hf).resolve_right hnot
      exact Or.inl (Finmap.mem_insert.mpr (Or.inl rfl))

theorem mark_le (self : Requirements) (name : String) : self.Le (self.mark name) :=
  ⟨Finset.subset_insert _ _, Finset.subset_insert _ _,
    fun _ flag fs h => ⟨flag, fs, h, fun _ hf => hf⟩⟩

/-- Requiring a feature adds the feature and completes whatever it adds. -/
theorem requireFeature_grows {s : Summary S R} {fuel : ℕ} {self self' : Requirements}
    {feat : String} (h : requireFeature s fuel self feat = .ok self')
    (hvisited : self.visited ⊆ self.used) :
    Grows s self self' ∧ self'.Satisfies (.feature feat) := by
  induction fuel generalizing self self' feat with
  | zero => cases h
  | succ fuel ih =>
    rw [requireFeature] at h
    split at h
    · rename_i hskip
      cases h
      exact ⟨.refl s self, hskip.imp_right fun hmem => hvisited hmem⟩
    · split at h
      · cases h
      · rename_i values hvalues
        -- The loop over the values: all that was met stays met.
        obtain ⟨hgrows, hmet⟩ := foldlM_ok_induction
          (P := fun pre r => Grows s (self.mark feat) r ∧ ∀ v ∈ pre, r.Satisfies v) h
          ⟨.refl s _, by simp⟩
          (by
            intro pre value post r r' hl ⟨hgrows, hmet⟩ hvalue
            have hr : r.visited ⊆ r.used :=
              hgrows.visited_used (Finset.insert_subset_insert _ hvisited)
            have hone : Grows s r r' ∧ r'.Satisfies value := by
              cases value with
              | feature g =>
                simp only at hvalue
                split at hvalue
                · cases hvalue
                · exact ih hvalue hr
              | crate n =>
                cases hvalue
                exact requireDependency_grows s r n hr
              | crateFeature n g =>
                cases hvalue
                exact requireCrateFeature_grows s r n g
            refine ⟨hgrows.trans hone.1, ?_⟩
            intro v hv
            rcases List.mem_append.mp hv with hv | hv
            · exact (hmet v hv).mono hone.1.le
            · obtain rfl := List.mem_singleton.mp hv
              exact hone.2)
        have hfeat : feat ∈ self'.used := hgrows.le.used (Finset.mem_insert_self _ _)
        refine ⟨⟨(mark_le self feat).trans hgrows.le, ?_, ?_⟩, Or.inr hfeat⟩
        · exact fun hv => hgrows.visited_used (Finset.insert_subset_insert _ hv)
        · intro f hf hnot
          by_cases hff : f = feat
          · subst hff
            refine Or.inr ⟨Finmap.mem_of_lookup_eq_some hvalues, ?_⟩
            intro values' hvalues' v hv
            rw [hvalues] at hvalues'
            cases hvalues'
            exact hmet v hv
          · refine hgrows.complete f hf ?_
            simp [mark, hff, hnot]

theorem requireValue_grows {s : Summary S R} {self self' : Requirements} {v : FeatureValue}
    (h : self.requireValue s v = .ok self') (hvisited : self.visited ⊆ self.used) :
    Grows s self self' ∧ self'.Satisfies v := by
  cases v with
  | feature g => exact requireFeature_grows h hvisited
  | crate n =>
    cases h
    exact requireDependency_grows s self n hvisited
  | crateFeature n g =>
    cases h
    exact requireCrateFeature_grows s self n g

/-! ### What a walk keeps -/

/-- The property `P` is kept by every walk over the features of `s` that starts from values
in `allowed`, and such a walk meets no other values. -/
structure Walk (s : Summary S R) (allowed : FeatureValue → Prop) (P : Requirements → Prop) :
    Prop where
  values : ∀ f values, allowed (.feature f) → f ≠ "" → s.features.lookup f = some values →
    ∀ v ∈ values, allowed v
  mark : ∀ reqs f, P reqs → allowed (.feature f) → f ≠ "" → f ∈ s.features → P (reqs.mark f)
  dependency : ∀ reqs n, P reqs → allowed (.crate n) → P (reqs.requireDependency n)
  crateFeature : ∀ reqs n g, P reqs → allowed (.crateFeature n g) →
    P (reqs.requireCrateFeature n g)

section Walk

variable {s : Summary S R} {allowed : FeatureValue → Prop} {P : Requirements → Prop}
  {self self' : Requirements}

theorem Walk.requireFeature (h : Walk s allowed P) {fuel : ℕ} {feat : String}
    (hreq : Requirements.requireFeature s fuel self feat = .ok self')
    (hallowed : allowed (.feature feat)) (hP : P self) : P self' := by
  induction fuel generalizing self self' feat with
  | zero => cases hreq
  | succ fuel ih =>
    rw [Requirements.requireFeature] at hreq
    split at hreq
    · cases hreq
      exact hP
    · rename_i hskip
      have hne : feat ≠ "" := fun hempty => hskip (Or.inl hempty)
      split at hreq
      · cases hreq
      · rename_i values hvalues
        have hmark := h.mark self feat hP hallowed hne (Finmap.mem_of_lookup_eq_some hvalues)
        refine foldlM_ok_induction (P := fun _ r => P r) hreq hmark ?_
        intro pre value post r r' hl hr hvalue
        have hvalueAllowed := h.values feat values hallowed hne hvalues value (by rw [hl]; simp)
        cases value with
        | feature g =>
          simp only at hvalue
          split at hvalue
          · cases hvalue
          · exact ih hvalue hvalueAllowed hr
        | crate n =>
          cases hvalue
          exact h.dependency r n hr hvalueAllowed
        | crateFeature n g =>
          cases hvalue
          exact h.crateFeature r n g hr hvalueAllowed

theorem Walk.requireValue (h : Walk s allowed P) {v : FeatureValue}
    (hreq : self.requireValue s v = .ok self') (hallowed : allowed v) (hP : P self) : P self' := by
  cases v with
  | feature g => exact h.requireFeature hreq hallowed hP
  | crate n =>
    cases hreq
    exact h.dependency self n hP hallowed
  | crateFeature n g =>
    cases hreq
    exact h.crateFeature self n g hP hallowed

end Walk

end Requirements

open Requirements

/-- What is required for a list of features and the defaults has every property that walks
keep. -/
theorem buildRequirements_walk {s : Summary S R} {allowed : FeatureValue → Prop}
    {P : Requirements → Prop} (hwalk : Walk s allowed P) {devDeps usesDefault : Bool}
    {requested : List String} {reqs : Requirements}
    (h : buildRequirements s (.required devDeps requested false usesDefault) = .ok reqs)
    (hnew : P Requirements.new) (hrequested : ∀ f ∈ requested, allowed (featureValue s f))
    (hdefault : usesDefault = true → "default" ∈ s.features → allowed (.feature "default")) :
    P reqs := by
  obtain ⟨mid, hmid, h⟩ := bind_eq_ok.mp h
  have hP : P mid := by
    refine foldlM_ok_induction (P := fun _ r => P r) hmid hnew ?_
    intro pre f post r r' hl hr hf
    exact hwalk.requireValue hf (hrequested f (by rw [hl]; simp)) hr
  split at h
  · rename_i huses
    exact hwalk.requireFeature h (hdefault huses.1 huses.2) hP
  · cases h
    exact hP

/-! ### All requirements of a package -/

/-- What is required stays complete through every loop of `buildRequirements`. -/
theorem foldlM_grows {α : Type} {s : Summary S R} {l : List α} {a b : Requirements}
    {f : Requirements → α → Except (Failure S R) Requirements} (value : α → FeatureValue)
    (h : l.foldlM f a = .ok b) (hvisited : a.visited ⊆ a.used)
    (hf : ∀ r x r', r.visited ⊆ r.used → f r x = .ok r' →
      Grows s r r' ∧ r'.Satisfies (value x)) :
    Grows s a b ∧ ∀ x ∈ l, b.Satisfies (value x) := by
  refine foldlM_ok_induction
    (P := fun pre r => Grows s a r ∧ ∀ x ∈ pre, r.Satisfies (value x)) h ⟨.refl s a, by simp⟩ ?_
  intro pre x post r r' _ ⟨hgrows, hmet⟩ hr
  obtain ⟨hgrows', hmet'⟩ := hf r x r' (hgrows.visited_used hvisited) hr
  refine ⟨hgrows.trans hgrows', ?_⟩
  intro y hy
  rcases List.mem_append.mp hy with hy | hy
  · exact (hmet y hy).mono hgrows'.le
  · obtain rfl := List.mem_singleton.mp hy
    exact hmet'

theorem foldl_requireDependency_grows (s : Summary S R) (deps : List (Dependency S R))
    (a : Requirements) (hvisited : a.visited ⊆ a.used) :
    Grows s a (deps.foldl (fun reqs dep => reqs.requireDependency dep.nameInToml) a) := by
  induction deps generalizing a with
  | nil => exact .refl s a
  | cons dep deps ih =>
    obtain ⟨hgrows, -⟩ := requireDependency_grows s a dep.nameInToml hvisited
    exact hgrows.trans (ih _ (hgrows.visited_used hvisited))

theorem new_visited_used : Requirements.new.visited ⊆ Requirements.new.used := by
  simp [Requirements.new]

theorem requireRequested_grows {s : Summary S R} {method : Method} {reqs : Requirements}
    (h : requireRequested s method = .ok reqs) : Grows s Requirements.new reqs := by
  have hall : ∀ reqs, (do
      let reqs ← (sortedKeys s.features).foldlM
        (Requirements.requireFeature s (Requirements.featureFuel s)) Requirements.new
      .ok ((s.dependencies.filter (·.optional)).foldl
        (fun reqs dep => reqs.requireDependency dep.nameInToml) reqs)) = Except.ok reqs →
      Grows s Requirements.new reqs := by
    intro reqs h
    obtain ⟨mid, hmid, h⟩ := bind_eq_ok.mp h
    cases h
    obtain ⟨hgrows, -⟩ := foldlM_grows (fun f => .feature f) hmid new_visited_used
      (fun r f r' hr hf => requireFeature_grows hf hr)
    exact hgrows.trans (foldl_requireDependency_grows s _ _
      (hgrows.visited_used new_visited_used))
  cases method with
  | everything => exact hall reqs h
  | required devDeps requested allFeatures usesDefault =>
    cases allFeatures with
    | true => exact hall reqs h
    | false =>
      exact (foldlM_grows (featureValue s) h new_visited_used
        (fun r f r' hr hf => requireValue_grows hf hr)).1

/-- Every feature of the list asked for is met. -/
theorem requireRequested_satisfies {s : Summary S R} {devDeps usesDefault : Bool}
    {requested : List String} {reqs : Requirements}
    (h : requireRequested s (.required devDeps requested false usesDefault) = .ok reqs)
    {f : String} (hf : f ∈ requested) : reqs.Satisfies (featureValue s f) :=
  (foldlM_grows (featureValue s) h new_visited_used
    (fun _ _ _ hr hf => requireValue_grows hf hr)).2 f hf

/-- Everything that a package requires is complete. -/
theorem buildRequirements_grows {s : Summary S R} {method : Method} {reqs : Requirements}
    (h : buildRequirements s method = .ok reqs) : Grows s Requirements.new reqs := by
  obtain ⟨mid, hmid, h⟩ := bind_eq_ok.mp h
  have hgrows := requireRequested_grows hmid
  split at h
  · exact hgrows.trans (requireFeature_grows h (hgrows.visited_used new_visited_used)).1
  · cases h
    exact hgrows

/-- The features asked for are met. -/
theorem buildRequirements_satisfies {s : Summary S R} {devDeps usesDefault : Bool}
    {requested : List String} {reqs : Requirements}
    (h : buildRequirements s (.required devDeps requested false usesDefault) = .ok reqs)
    {f : String} (hf : f ∈ requested) : reqs.Satisfies (featureValue s f) := by
  obtain ⟨mid, hmid, h⟩ := bind_eq_ok.mp h
  have hmet := requireRequested_satisfies hmid hf
  split at h
  · have hvisited := (requireRequested_grows hmid).visited_used new_visited_used
    exact hmet.mono (requireFeature_grows h hvisited).1.le
  · cases h
    exact hmet

/-- The defaults are met when they are asked for. -/
theorem buildRequirements_default {s : Summary S R} {method : Method} {reqs : Requirements}
    (h : buildRequirements s method = .ok reqs) (hmethod : method.usesDefault = true)
    (hdefault : "default" ∈ s.features) : "default" ∈ reqs.used := by
  obtain ⟨mid, hmid, h⟩ := bind_eq_ok.mp h
  rw [if_pos ⟨hmethod, hdefault⟩] at h
  have hvisited := (requireRequested_grows hmid).visited_used new_visited_used
  rcases (requireFeature_grows h hvisited).2 with hempty | hused
  · exact absurd hempty (by decide)
  · exact hused

/-- Without namespaced features, a requested name is a feature or a dependency. -/
theorem featureValue_plain {s : Summary S R} (hs : s.namespacedFeatures = false) {f : String}
    (hf : '/' ∉ f.toList) : featureValue s f = .feature f ∨ featureValue s f = .crate f := by
  unfold featureValue FeatureValue.build
  rw [if_neg hf, hs]
  simp only [Bool.false_eq_true, if_false]
  split
  · exact Or.inl rfl
  · exact Or.inr rfl


/-- What is asked of a package without namespaced features is recorded under its own
name. -/
theorem mem_used_of_requested {s : Summary S R} (hs : s.namespacedFeatures = false)
    {devDeps usesDefault : Bool} {requested : List String} {reqs : Requirements}
    (h : buildRequirements s (.required devDeps requested false usesDefault) = .ok reqs)
    {f : String} (hf : f ∈ requested) (hslash : '/' ∉ f.toList) (hne : f ≠ "") :
    f ∈ reqs.used := by
  have hmet := buildRequirements_satisfies h hf
  rcases featureValue_plain hs hslash with heq | heq
  · rw [heq] at hmet
    exact hmet.resolve_left hne
  · rw [heq] at hmet
    exact hmet

/-! ### The bound on the depth -/

/-- A feature that is marked is one less to visit. -/
theorem card_unvisited_mark_lt {s : Summary S R} {self : Requirements} {feat : String}
    (hfeat : feat ∈ s.features) (hnew : feat ∉ self.visited) :
    (s.features.keys \ (self.mark feat).visited).card <
      (s.features.keys \ self.visited).card := by
  have hmem : feat ∈ s.features.keys \ self.visited := by
    rw [Finset.mem_sdiff, Finmap.mem_keys]
    exact ⟨hfeat, hnew⟩
  have hsub : s.features.keys \ (self.mark feat).visited ⊆
      (s.features.keys \ self.visited).erase feat := by
    intro x hx
    simp only [mark, Finset.mem_sdiff, Finset.mem_insert, not_or] at hx
    simp [Finset.mem_sdiff, hx.1, hx.2.1, hx.2.2]
  have hle := Finset.card_le_card hsub
  rw [Finset.card_erase_of_mem hmem] at hle
  have hpos := Finset.card_pos.mpr ⟨feat, hmem⟩
  omega

/-- Every level of the recursion visits one feature more. -/
theorem requireFeature_ne_featureDepth {s : Summary S R} {fuel : ℕ} {self : Requirements}
    {feat : String} (hvisited : self.visited ⊆ self.used)
    (hfuel : (s.features.keys \ self.visited).card < fuel) :
    requireFeature s fuel self feat ≠ .error .featureDepth := by
  induction fuel generalizing self feat with
  | zero => omega
  | succ fuel ih =>
    rw [requireFeature]
    split
    · simp
    · rename_i hskip
      split
      · simp
      · rename_i values hvalues
        have hcard := card_unvisited_mark_lt (Finmap.mem_of_lookup_eq_some hvalues)
          fun h => hskip (Or.inr h)
        refine foldlM_ne_error (P := fun _ r => Grows s (self.mark feat) r) (.refl s _) ?_
        intro pre value post r _ hgrows
        have hr : r.visited ⊆ r.used :=
          hgrows.visited_used (Finset.insert_subset_insert _ hvisited)
        -- later turns of the loop have visited `feat` too
        have hfuel' : (s.features.keys \ r.visited).card < fuel :=
          lt_of_le_of_lt (Finset.card_le_card
            (Finset.sdiff_subset_sdiff subset_rfl hgrows.le.visited)) (by omega)
        cases value with
        | feature g =>
          simp only
          split
          · simp
          · exact ⟨ih hr hfuel', fun r' hr' => hgrows.trans (requireFeature_grows hr' hr).1⟩
        | crate n =>
          refine ⟨by simp, ?_⟩
          rintro r' ⟨⟩
          exact hgrows.trans (requireDependency_grows s r n hr).1
        | crateFeature n g =>
          refine ⟨by simp, ?_⟩
          rintro r' ⟨⟩
          exact hgrows.trans (requireCrateFeature_grows s r n g).1

end Cargo.Resolver
