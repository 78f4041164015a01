import Cargo.Resolver.Invariant
import Mathlib.Algebra.BigOperators.Group.Finset.Basic
import Mathlib.Algebra.Order.BigOperators.Group.Finset

/-!
# What a search can record

A registry with finitely many packages mentions finitely many names, and whatever the
search records for a package is one of them. So the number of packages that are not active
together with the number of names that are not recorded is a measure of what a context
still lacks, and every activation that records something makes it smaller.

## Main definitions

* `ownNames`, `askable`, `recordable` — the names that summaries mention, that can be asked
  for and that can be recorded
* `lacks` — how much a context lacks
* `Marked` — the context after a candidate and its replacement were flagged

## Main results

* `buildRequirements_within` — requirements mention no other names
* `activate_cases` — the outcomes of `activate`, replacements included
* `lacks_lt_of_expanded` — recording something makes a context lack less
-/

set_option autoImplicit false

namespace Cargo.Resolver

open Cargo.Core Cargo.Math

variable {S R : Type}

/-! ### Names -/

/-- The names in the value of a feature. -/
def valueNames : FeatureValue → Finset String
  | .feature f => {f}
  | .crate d => {d}
  | .crateFeature d g => {d, g}

/-- The names that a summary mentions. -/
def ownNames (s : Summary S R) : Finset String :=
  s.features.keys ∪
    (s.features.keys.biUnion fun f => ((s.features.lookup f).getD []).toFinset.biUnion valueNames) ∪
    (s.dependencies.map Dependency.nameInToml).toFinset ∪
    (s.dependencies.flatMap Dependency.features).toFinset

theorem key_mem_ownNames {s : Summary S R} {f : String} (h : f ∈ s.features) : f ∈ ownNames s := by
  simp [ownNames, Finmap.mem_keys, h]

theorem valueNames_subset_ownNames {s : Summary S R} {f : String} {values : List FeatureValue}
    (h : s.features.lookup f = some values) {v : FeatureValue} (hv : v ∈ values) :
    valueNames v ⊆ ownNames s := by
  intro n hn
  have hf := Finmap.mem_of_lookup_eq_some h
  simp only [ownNames, Finset.mem_union, Finset.mem_biUnion, Finmap.mem_keys, List.mem_toFinset]
  refine Or.inl (Or.inl (Or.inr ⟨f, hf, v, ?_, hn⟩))
  rw [h]
  exact hv

theorem nameInToml_mem_ownNames {s : Summary S R} {d : Dependency S R}
    (hd : d ∈ s.dependencies) : d.nameInToml ∈ ownNames s := by
  simp only [ownNames, Finset.mem_union, List.mem_toFinset, List.mem_map]
  exact Or.inl (Or.inr ⟨d, hd, rfl⟩)

theorem feature_mem_ownNames {s : Summary S R} {d : Dependency S R} (hd : d ∈ s.dependencies)
    {f : String} (hf : f ∈ d.features) : f ∈ ownNames s := by
  simp only [ownNames, Finset.mem_union, List.mem_toFinset, List.mem_flatMap]
  exact Or.inr ⟨d, hd, hf⟩

/-- Nothing but names of `A` is used, and nothing but names of `B` is asked of
dependencies. -/
structure Requirements.Within (A B : Finset String) (reqs : Requirements) : Prop where
  used : reqs.used ⊆ A
  asked : ∀ n flag fs, reqs.deps.lookup n = some (flag, fs) → ∀ f ∈ fs, f ∈ B

namespace Requirements

variable {A B : Finset String} {reqs reqs' : Requirements}

theorem Within.entry (h : reqs.Within A B) (n : String) : ∀ f ∈ (reqs.entry n).2, f ∈ B := by
  intro f hf
  cases hlookup : reqs.deps.lookup n with
  | none => simp [Requirements.entry, hlookup] at hf
  | some e =>
    obtain ⟨flag, fs⟩ := e
    rw [entry_eq hlookup] at hf
    exact h.asked n flag fs hlookup f hf

theorem within_insert {n : String} {flag : Bool} {fs : List String}
    {used visited : Finset String} (h : reqs.Within A B) (hused : used ⊆ A)
    (hfs : ∀ f ∈ fs, f ∈ B) :
    Within A B ⟨reqs.deps.insert n (flag, fs), used, visited⟩ := by
  refine ⟨hused, ?_⟩
  intro m flag' fs' hlookup
  by_cases hm : m = n
  · subst hm
    rw [Finmap.lookup_insert] at hlookup
    cases hlookup
    exact hfs
  · rw [Finmap.lookup_insert_of_ne _ hm] at hlookup
    exact h.asked m flag' fs' hlookup

theorem Within.requireCrateFeature (h : reqs.Within A B) {n g : String} (hn : n ∈ A)
    (hg : g ∈ B) : (reqs.requireCrateFeature n g).Within A B := by
  refine within_insert h (Finset.insert_subset hn h.used) ?_
  intro f hf
  rcases List.mem_append.mp hf with hf | hf
  · exact h.entry n f hf
  · rw [List.mem_singleton.mp hf]
    exact hg

theorem Within.requireDependency (h : reqs.Within A B) {n : String} (hn : n ∈ A) :
    (reqs.requireDependency n).Within A B := by
  unfold Requirements.requireDependency
  split
  · exact h
  · exact within_insert h (Finset.insert_subset hn h.used) (h.entry n)

/-- Walks over the features of `s` meet the names of `s` only. -/
theorem within_walk {s : Summary S R} (hA : ownNames s ⊆ A) (hB : ownNames s ⊆ B) :
    Walk s (fun v => (∃ f, v = .feature f) ∨
      valueNames v ⊆ A ∧ ∀ n g, v = .crateFeature n g → g ∈ B) (Within A B) where
  values := by
    intro f values _ _ hvalues v hv
    have hnames := valueNames_subset_ownNames hvalues hv
    refine Or.inr ⟨hnames.trans hA, ?_⟩
    rintro n g rfl
    exact hB (hnames (by simp [valueNames]))
  mark := by
    intro reqs f h _ _ hf
    exact ⟨Finset.insert_subset (hA (key_mem_ownNames hf)) h.used, h.asked⟩
  dependency := by
    rintro reqs n h (⟨f, ⟨⟩⟩ | ⟨hn, -⟩)
    exact h.requireDependency (hn (by simp [valueNames]))
  crateFeature := by
    rintro reqs n g h (⟨f, ⟨⟩⟩ | ⟨hn, hg⟩)
    exact h.requireCrateFeature (hn (by simp [valueNames])) (hg n g rfl)

theorem Within.requireFeature {s : Summary S R} (hA : ownNames s ⊆ A) (hB : ownNames s ⊆ B)
    {fuel : ℕ} {feat : String} (hreq : Requirements.requireFeature s fuel reqs feat = .ok reqs')
    (h : reqs.Within A B) : reqs'.Within A B :=
  (within_walk hA hB).requireFeature hreq (Or.inl ⟨feat, rfl⟩) h

end Requirements

open Requirements in
theorem requireRequested_within {s : Summary S R} {method : Method} {reqs : Requirements}
    {A B : Finset String} (hA : ownNames s ⊆ A) (hB : ownNames s ⊆ B)
    (hnames : ∀ f ∈ method.requested, valueNames (featureValue s f) ⊆ A)
    (hasked : ∀ f ∈ method.requested, ∀ n g, featureValue s f = .crateFeature n g → g ∈ B)
    (h : requireRequested s method = .ok reqs) : reqs.Within A B := by
  have hnew : Requirements.new.Within A B :=
    ⟨by simp [Requirements.new], by simp [Requirements.new]⟩
  -- all features of the package, and its optional dependencies
  have hall : ∀ reqs, (do
      let reqs ← (sortedKeys s.features).foldlM
        (Requirements.requireFeature s (Requirements.featureFuel s)) Requirements.new
      .ok ((s.dependencies.filter (·.optional)).foldl
        (fun reqs dep => reqs.requireDependency dep.nameInToml) reqs)) = Except.ok reqs →
      reqs.Within A B := by
    intro reqs h
    obtain ⟨mid, hmid, h⟩ := bind_eq_ok.mp h
    cases h
    have hwithin : mid.Within A B := foldlM_ok_induction (P := fun _ r => r.Within A B) hmid hnew
      (fun _ _ _ _ _ _ hr hf => Within.requireFeature hA hB hf hr)
    refine List.foldlRecOn _ _ hwithin ?_
    intro r hr d hd
    exact hr.requireDependency (hA (nameInToml_mem_ownNames (List.mem_filter.mp hd).1))
  have hone : ∀ f ∈ method.requested, ∀ r r' : Requirements, r.Within A B →
      r.requireValue s (featureValue s f) = .ok r' → r'.Within A B :=
    fun f hf r r' hr hvalue => (within_walk hA hB).requireValue hvalue
      (Or.inr ⟨hnames f hf, hasked f hf⟩) hr
  cases method with
  | everything => exact hall reqs h
  | required devDeps requested allFeatures usesDefault =>
    cases allFeatures with
    | true => exact hall reqs h
    | false =>
      refine foldlM_ok_induction (P := fun _ r => r.Within A B) h hnew ?_
      intro pre f post r r' hl hr hf
      have hmem : f ∈ requested := by rw [hl]; simp
      exact hone f hmem r r' hr hf

/-- The requirements of a package mention its own names and those that it is asked for. -/
theorem buildRequirements_within {s : Summary S R} {method : Method} {reqs : Requirements}
    {A B : Finset String} (hA : ownNames s ⊆ A) (hB : ownNames s ⊆ B)
    (hnames : ∀ f ∈ method.requested, valueNames (featureValue s f) ⊆ A)
    (hasked : ∀ f ∈ method.requested, ∀ n g, featureValue s f = .crateFeature n g → g ∈ B)
    (h : buildRequirements s method = .ok reqs) : reqs.Within A B := by
  obtain ⟨mid, hmid, h⟩ := bind_eq_ok.mp h
  have hwithin := requireRequested_within hA hB hnames hasked hmid
  split at h
  · exact hwithin.requireFeature hA hB h
  · cases h
    exact hwithin

/-! ### What a context lacks -/

section Lacks

variable [DecidableEq S]

/-- The packages that a search can meet, the names `A` that it can record and the names `B`
that it can ask for. -/
structure Scope (env : Env S R) (roots : List (Summary S R × Method))
    (packages : List (Summary S R)) (A B : Finset String) : Prop where
  root : ∀ root ∈ roots, root.1 ∈ packages
  registry : ∀ dep l, env.registry.registry dep = .ok l → ∀ s ∈ l, s ∈ packages
  recorded : ∀ s ∈ packages, ownNames s ⊆ A
  asked : ∀ s ∈ packages, ownNames s ⊆ B
  recorded_of_asked : ∀ s ∈ packages, ∀ f ∈ B, valueNames (featureValue s f) ⊆ A
  root_recorded : ∀ root ∈ roots, ∀ f ∈ root.2.requested, valueNames (featureValue root.1 f) ⊆ A
  root_asked : ∀ root ∈ roots, ∀ f ∈ root.2.requested, valueNames (featureValue root.1 f) ⊆ B

omit [DecidableEq S] in
/-- A registry with finitely many packages has a scope. -/
theorem exists_scope {env : Env S R} (roots : List (Summary S R × Method))
    {packages : List (Summary S R)}
    (h : ∀ dep l, env.registry.registry dep = .ok l → ∀ s ∈ l, s ∈ packages) :
    ∃ packages' A B, Scope env roots packages' A B ∧
      ∀ f ∈ B, (∃ s, (s ∈ packages ∨ ∃ root ∈ roots, root.1 = s) ∧ f ∈ ownNames s) ∨
        ∃ root ∈ roots, ∃ r ∈ root.2.requested, f ∈ valueNames (featureValue root.1 r) := by
  let all := roots.map Prod.fst ++ packages
  let rootNames := (roots.flatMap fun root =>
    root.2.requested.map fun f => valueNames (featureValue root.1 f)).toFinset.biUnion id
  let B := (all.map ownNames).toFinset.biUnion id ∪ rootNames
  let A :=
    B ∪ (all.map fun s => B.biUnion fun f => valueNames (featureValue s f)).toFinset.biUnion id
  have hown : ∀ s ∈ all, ownNames s ⊆ B := by
    intro s hs n hn
    simp only [B, Finset.mem_union, Finset.mem_biUnion, List.mem_toFinset, List.mem_map]
    exact Or.inl ⟨ownNames s, ⟨s, hs, rfl⟩, hn⟩
  have hroot : ∀ root ∈ roots, ∀ f ∈ root.2.requested,
      valueNames (featureValue root.1 f) ⊆ B := by
    intro root hroot f hf n hn
    simp only [B, rootNames, Finset.mem_union, Finset.mem_biUnion, List.mem_toFinset,
      List.mem_flatMap, List.mem_map]
    exact Or.inr ⟨_, ⟨root, hroot, f, hf, rfl⟩, hn⟩
  have hBA : B ⊆ A := Finset.subset_union_left
  refine ⟨all, A, B, ⟨?_, ?_, fun s hs => (hown s hs).trans hBA, hown, ?_,
    fun root hr f hf => (hroot root hr f hf).trans hBA, hroot⟩, ?_⟩
  · exact fun root hr => List.mem_append_left _ (List.mem_map_of_mem hr)
  · exact fun dep l hl s hs => List.mem_append_right _ (h dep l hl s hs)
  -- the names in the values of features of `B` are in `A` by definition
  · intro s hs f hf n hn
    simp only [A, Finset.mem_union, Finset.mem_biUnion, List.mem_toFinset, List.mem_map]
    exact Or.inr ⟨_, ⟨s, hs, rfl⟩, Finset.mem_biUnion.mpr ⟨f, hf, hn⟩⟩
  · intro f hf
    simp only [B, rootNames, Finset.mem_union, Finset.mem_biUnion, List.mem_toFinset,
      List.mem_flatMap, List.mem_map, all, List.mem_append] at hf
    rcases hf with ⟨_, ⟨s, ⟨root, hroot, rfl⟩ | hs, rfl⟩, hf⟩ | ⟨_, ⟨root, hroot, r, hr, rfl⟩, hf⟩
    · exact Or.inl ⟨root.1, Or.inr ⟨root, hroot, rfl⟩, hf⟩
    · exact Or.inl ⟨s, Or.inl hs, hf⟩
    · exact Or.inr ⟨root, hroot, r, hr, hf⟩

/-- How many packages are not active, and how many names are not recorded. -/
def lacks (packages : List (Summary S R)) (A : Finset String) (cx : Context S R) : ℕ :=
  ((packages.map Summary.packageId).toFinset.filter fun id => cx.isActive id = false).card +
    ∑ id ∈ (packages.map Summary.packageId).toFinset, (A \ cx.features id).card

/-- Whatever is active and recorded in one context is so in the other. -/
structure Context.Le (cx cx' : Context S R) : Prop where
  active : ∀ id, cx.isActive id = true → cx'.isActive id = true
  features : ∀ id, cx.features id ⊆ cx'.features id

variable {packages : List (Summary S R)} {A : Finset String} {cx cx' : Context S R}

theorem inactive_subset (h : cx.Le cx') :
    ((packages.map Summary.packageId).toFinset.filter fun id => cx'.isActive id = false) ⊆
      (packages.map Summary.packageId).toFinset.filter fun id => cx.isActive id = false := by
  intro id hid
  rw [Finset.mem_filter] at hid ⊢
  refine ⟨hid.1, Bool.eq_false_iff.mpr fun hactive => ?_⟩
  rw [h.active id hactive] at hid
  exact absurd hid.2 (by simp)

theorem unrecorded_card_le (h : cx.Le cx') (id : PackageId S) :
    (A \ cx'.features id).card ≤ (A \ cx.features id).card :=
  Finset.card_le_card (Finset.sdiff_subset_sdiff subset_rfl (h.features id))

theorem lacks_le (h : cx.Le cx') : lacks packages A cx' ≤ lacks packages A cx :=
  Nat.add_le_add (Finset.card_le_card (inactive_subset h))
    (Finset.sum_le_sum fun id _ => unrecorded_card_le h id)

/-- A package that becomes active is lacking no more. -/
theorem lacks_lt_of_active (h : cx.Le cx') {s : Summary S R} (hs : s ∈ packages)
    (hold : cx.isActive s.packageId = false) (hnew : cx'.isActive s.packageId = true) :
    lacks packages A cx' < lacks packages A cx := by
  refine Nat.add_lt_add_of_lt_of_le (Finset.card_lt_card ⟨inactive_subset h, ?_⟩)
    (Finset.sum_le_sum fun id _ => unrecorded_card_le h id)
  intro hsub
  have hmem : s.packageId ∈ (packages.map Summary.packageId).toFinset.filter
      fun id => cx.isActive id = false :=
    Finset.mem_filter.mpr ⟨List.mem_toFinset.mpr (List.mem_map_of_mem hs), hold⟩
  have := (Finset.mem_filter.mp (hsub hmem)).2
  rw [hnew] at this
  cases this

/-- A name that becomes recorded is lacking no more. -/
theorem lacks_lt_of_recorded (h : cx.Le cx') {s : Summary S R} (hs : s ∈ packages) {n : String}
    (hn : n ∈ A) (hold : n ∉ cx.features s.packageId) (hnew : n ∈ cx'.features s.packageId) :
    lacks packages A cx' < lacks packages A cx := by
  refine Nat.add_lt_add_of_le_of_lt (Finset.card_le_card (inactive_subset h))
    (Finset.sum_lt_sum (fun id _ => unrecorded_card_le h id)
      ⟨s.packageId, List.mem_toFinset.mpr (List.mem_map_of_mem hs), Finset.card_lt_card ⟨?_, ?_⟩⟩)
  · exact Finset.sdiff_subset_sdiff subset_rfl (h.features _)
  · intro hsub
    exact (Finset.mem_sdiff.mp (hsub (Finset.mem_sdiff.mpr ⟨hn, hold⟩))).2 hnew

end Lacks

/-! ### Activation with replacements -/

section Activate

variable [DecidableEq S]

/-- The package whose dependencies are used for a candidate. -/
def Candidate.chosen (c : Candidate S R) : Summary S R := c.replace.getD c.summary

/-- Everything that `method` asks for is recorded for the candidate and for its
replacement. -/
def Candidate.Satisfied (c : Candidate S R) (cx : Context S R) (method : Method) : Prop :=
  (cx.isActive c.summary.packageId = true ∧ cx.alreadyActivated c.summary method = true) ∧
    cx.isActive c.chosen.packageId = true ∧ cx.alreadyActivated c.chosen method = true

/-- The context after the candidate and its replacement were flagged. -/
structure Marked (cx : Context S R) (c : Candidate S R) (mid : Context S R) : Prop where
  active : ∀ id, mid.isActive id = true ↔ cx.isActive id = true ∨
    id = c.summary.packageId ∨ id = c.chosen.packageId
  features : mid.features = cx.features

/-- Flagging a package, in terms of what is active and recorded. -/
theorem flagActivated_marks {cx cx' : Context S R} {s : Summary S R} {method : Method} {b : Bool}
    (h : cx.flagActivated s method = .ok (b, cx')) :
    (∀ id, cx'.isActive id = true ↔ cx.isActive id = true ∨ id = s.packageId) ∧
      cx'.features = cx.features ∧
      (b = true ↔ cx.isActive s.packageId = true ∧ cx.alreadyActivated s method = true) := by
  rcases Context.flagActivated_ok h with ⟨hactive, rfl, rfl⟩ | ⟨rfl, hadded⟩
  · refine ⟨fun id => ⟨Or.inl, ?_⟩, rfl, by simp [hactive]⟩
    rintro (hid | rfl)
    · exact hid
    · exact hactive
  · exact ⟨hadded.isActive, hadded.features, by simp [hadded.inactive]⟩

theorem alreadyActivated_congr {cx cx' : Context S R} (h : cx'.features = cx.features)
    (s : Summary S R) (method : Method) :
    cx'.alreadyActivated s method = cx.alreadyActivated s method := by
  cases method with
  | everything => rfl
  | required devDeps features allFeatures useDefault =>
    cases allFeatures with
    | true => rfl
    | false => simp [Context.alreadyActivated, h]

theorem link_marks (cx : Context S R) (parent : Option (Summary S R × Dependency S R))
    (c : Candidate S R) :
    (cx.link parent c).isActive = cx.isActive ∧ (cx.link parent c).features = cx.features := by
  cases parent <;> exact ⟨rfl, rfl⟩

/-- The outcomes of the second half of `activate`. -/
theorem expand_cases {env : Env S R} {cx cx' : Context S R} {parent : Option (Summary S R)}
    {s : Summary S R} {method : Method} {out : Activation S R}
    (h : expand env cx parent s method = .ok (cx', out)) :
    (∃ reqs infos, Context.Expanded env.registry s method reqs cx cx' infos ∧
      out = .frame ⟨s, false, infos⟩) ∨
    ∃ id reason, Context.Lacking s method parent cx cx' id ∧ out = .conflict id reason := by
  obtain ⟨⟨cx'', built⟩, hbuild, h⟩ := bind_eq_ok.mp h
  rcases Context.buildDeps_ok hbuild with ⟨id, reason, rfl, hlacking⟩ | ⟨reqs, infos, rfl, hexp⟩
  · cases h
    exact Or.inr ⟨id, reason, hlacking, rfl⟩
  · cases h
    exact Or.inl ⟨reqs, infos, hexp, rfl⟩

/-- The outcomes of activating a candidate, with or without a replacement. -/
theorem activate_cases {env : Env S R} {cx cx' : Context S R}
    {parent : Option (Summary S R × Dependency S R)} {c : Candidate S R} {method : Method}
    {out : Activation S R} (h : activate env cx parent c method = .ok (cx', out)) :
    ∃ mid, Marked cx c mid ∧
      ((out = .already ∧ cx' = mid ∧ c.Satisfied cx method) ∨
        ((∃ reqs infos, Context.Expanded env.registry c.chosen method reqs mid cx' infos ∧
            out = .frame ⟨c.chosen, false, infos⟩) ∨
          ∃ id reason, Context.Lacking c.chosen method (parent.map Prod.fst) mid cx' id ∧
            out = .conflict id reason) ∧ ¬ c.Satisfied cx method) := by
  obtain ⟨hlinked, hlinkedFeatures⟩ := link_marks cx parent c
  obtain ⟨⟨activated, mid⟩, hflag, h⟩ := bind_eq_ok.mp h
  obtain ⟨hactive, hfeatures, hb⟩ := flagActivated_marks hflag
  rw [hlinked] at hactive hb
  rw [alreadyActivated_congr hlinkedFeatures] at hb
  rw [hlinkedFeatures] at hfeatures
  cases hreplace : c.replace with
  | none =>
    have hchosen : c.chosen = c.summary := by simp [Candidate.chosen, hreplace]
    have hsatisfied : c.Satisfied cx method ↔ activated = true := by
      rw [hb, Candidate.Satisfied, hchosen, and_self_iff]
    refine ⟨mid, ⟨fun id => ?_, hfeatures⟩, ?_⟩
    · rw [hactive, hchosen, or_self_iff]
    · simp only [hreplace] at h
      rw [hsatisfied, hchosen]
      split at h
      · rename_i hactivated
        cases h
        exact Or.inl ⟨rfl, rfl, hactivated⟩
      · rename_i hactivated
        exact Or.inr ⟨expand_cases h, hactivated⟩
  | some replace =>
    have hchosen : c.chosen = replace := by simp [Candidate.chosen, hreplace]
    simp only [hreplace] at h
    obtain ⟨⟨replaceActivated, mid'⟩, hflag', h⟩ := bind_eq_ok.mp h
    obtain ⟨hactive', hfeatures', hb'⟩ := flagActivated_marks hflag'
    -- The note about the replacement touches neither activations nor features.
    have hb'' : replaceActivated = true ↔ mid.isActive replace.packageId = true ∧
        cx.alreadyActivated replace method = true := by
      rw [← alreadyActivated_congr hfeatures]
      exact hb'
    have hsatisfied : c.Satisfied cx method ↔ (replaceActivated && activated) = true := by
      rw [Bool.and_eq_true, hb, hb'', Candidate.Satisfied, hchosen]
      constructor
      · rintro ⟨hc, hr, hall⟩
        exact ⟨⟨(hactive _).mpr (Or.inl hr), hall⟩, hc⟩
      · rintro ⟨⟨hr, hall⟩, hc⟩
        refine ⟨hc, ?_, hall⟩
        rcases (hactive _).mp hr with hr | hr
        · exact hr
        · rw [hr]
          exact hc.1
    refine ⟨mid', ⟨fun id => ?_, hfeatures'.trans hfeatures⟩, ?_⟩
    · rw [hactive', hchosen, ← or_assoc]
      exact or_congr_left (hactive id)
    · rw [hsatisfied, hchosen]
      simp only at h
      split at h
      · rename_i hactivated
        cases h
        exact Or.inl ⟨rfl, rfl, hactivated⟩
      · rename_i hactivated
        exact Or.inr ⟨expand_cases h, hactivated⟩

/-- If the candidate is to be expanded although it is active, something is recorded that
was not. -/
def Renews (cx : Context S R) (c : Candidate S R) (method : Method) : Prop :=
  cx.isActive c.summary.packageId = true → cx.isActive c.chosen.packageId = true →
    ¬ c.Satisfied cx method → ∀ reqs, buildRequirements c.chosen method = .ok reqs →
    ¬ reqs.used ⊆ cx.features c.chosen.packageId

variable {env : Env S R} {cx cx' : Context S R} {c : Candidate S R} {method : Method}
  {parent : Option (Summary S R × Dependency S R)} {out : Activation S R}

theorem Context.SameButFeatures.le {mid : Context S R} (hmark : Marked cx c mid)
    (h : Context.SameButFeatures mid cx') (hfeatures : ∀ id, mid.features id ⊆ cx'.features id) :
    cx.Le cx' := by
  refine ⟨fun id hid => ?_, fun id => ?_⟩
  · rw [h.isActive]
    exact (hmark.active id).mpr (Or.inl hid)
  · rw [← hmark.features]
    exact hfeatures id

theorem Context.Expanded.features_subset {registry : RegistryQueryer S R} {s : Summary S R}
    {reqs : Requirements} {infos : List (DepInfo S R)}
    (h : Context.Expanded registry s method reqs cx cx' infos) (id : PackageId S) :
    cx.features id ⊆ cx'.features id := by
  rw [h.features]
  split
  · exact Finset.subset_union_left
  · exact subset_rfl

/-- Activation takes nothing away. -/
theorem activate_le (h : activate env cx parent c method = .ok (cx', out)) : cx.Le cx' := by
  obtain ⟨mid, hmark, ⟨-, rfl, -⟩ | ⟨⟨reqs, infos, hexp, -⟩ | ⟨id, reason, hlacking, -⟩, -⟩⟩ :=
    activate_cases h
  · exact ⟨fun id hid => (hmark.active id).mpr (Or.inl hid), fun id => by rw [hmark.features]⟩
  · exact hexp.same.le hmark hexp.features_subset
  · exact hlacking.same.le hmark fun id => by rw [hlacking.features]

/-- An expansion that renews the candidate leaves less lacking. -/
theorem lacks_lt_of_frame {packages : List (Summary S R)} {A : Finset String}
    {frame : DepsFrame S R} (h : activate env cx parent c method = .ok (cx', .frame frame))
    (hsummary : c.summary ∈ packages) (hchosen : c.chosen ∈ packages)
    (hwithin : ∀ reqs, buildRequirements c.chosen method = .ok reqs → reqs.used ⊆ A)
    (hrenews : Renews cx c method) : lacks packages A cx' < lacks packages A cx := by
  have hle := activate_le h
  obtain ⟨mid, hmark, ⟨hout, -⟩ | ⟨⟨reqs, infos, hexp, -⟩ | ⟨_, _, -, hout⟩, hnot⟩⟩ :=
    activate_cases h
  · cases hout
  · have hactive : ∀ id, mid.isActive id = true → cx'.isActive id = true := by
      rw [hexp.same.isActive]
      exact fun _ hid => hid
    by_cases hs : cx.isActive c.summary.packageId = true
    · by_cases hc : cx.isActive c.chosen.packageId = true
      · obtain ⟨n, hn, hnew⟩ := Finset.not_subset.mp (hrenews hs hc hnot reqs hexp.reqs_eq)
        refine lacks_lt_of_recorded hle hchosen (hwithin reqs hexp.reqs_eq hn) hnew ?_
        rw [hexp.features, if_pos rfl]
        exact Finset.mem_union_right _ hn
      · exact lacks_lt_of_active hle hchosen (Bool.eq_false_iff.mpr hc)
          (hactive _ ((hmark.active _).mpr (Or.inr (Or.inr rfl))))
    · exact lacks_lt_of_active hle hsummary (Bool.eq_false_iff.mpr hs)
        (hactive _ ((hmark.active _).mpr (Or.inr (Or.inl rfl))))
  · cases hout

end Activate

end Cargo.Resolver
