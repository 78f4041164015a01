import Cargo.Resolver.Requirements

/-!
# The closure of features

The features that are asked of a package enable other features, dependencies, and features of
dependencies. `build_requirements` follows them with one set of visited names, which features and
dependencies share. This gives the closure because `Summary::new` has sorted the values: those
read as features name features, and those read as dependencies name none.

## Main definitions

* `Reached` — the values that are reached from those asked for
* `ListsItself` — a feature has itself among its values
* `Adds` — what a walk adds to the requirements

## Main results

* `values_valid` — what `Summary::new` makes sure of
* `requireFeature_spec` — one walk
* `buildRequirements_closure` — all that is asked for
-/

set_option autoImplicit false

namespace Cargo.Resolver

open Cargo.Core Cargo.Math

variable {S R : Type}

/-! ### Values -/

/-- The summary of a package without namespaced features. -/
def Accepted (s : Summary S R) : Prop :=
  ∃ packageId dependencies features links,
    Summary.new packageId dependencies features links false = .ok s

/-- What is asked for apart from the defaults. -/
def requestedValues (s : Summary S R) : Method → List FeatureValue
  | .everything | .required _ _ true _ =>
    (sortedKeys s.features).map .feature ++
      (s.dependencies.filter (·.optional)).map fun d => .crate d.nameInToml
  | .required _ requested false _ => requested.map (featureValue s)

/-- What is asked for. -/
def starts (s : Summary S R) (method : Method) : List FeatureValue :=
  requestedValues s method ++
    if method.usesDefault ∧ "default" ∈ s.features then [.feature "default"] else []

/-- The values reached: those to start from, and with a feature all its values. -/
inductive Reached (s : Summary S R) (starts : List FeatureValue) : FeatureValue → Prop
  | start {v : FeatureValue} (h : v ∈ starts) : Reached s starts v
  | next {f : String} {values : List FeatureValue} {v : FeatureValue}
    (hf : Reached s starts (.feature f)) (hvalues : s.features.lookup f = some values)
    (hv : v ∈ values) : Reached s starts v

/-- The feature has itself among its values. -/
def ListsItself (s : Summary S R) (f : String) : Prop :=
  ∃ values, s.features.lookup f = some values ∧ .feature f ∈ values

/-- A feature is one of the package, and a dependency has not the name of one. -/
def ValidValue (s : Summary S R) : FeatureValue → Prop
  | .feature f => f ∈ s.features
  | .crate n => n ∉ s.features
  | .crateFeature _ _ => True

/-- What a text is read as without namespaced features. -/
theorem build_cases (text : String) (isFeature : String → Bool) :
    (∃ dep feat, FeatureValue.build text isFeature false = .crateFeature dep feat) ∨
      (FeatureValue.build text isFeature false = .feature text ∧ isFeature text = true) ∨
      FeatureValue.build text isFeature false = .crate text ∧ isFeature text = false := by
  unfold FeatureValue.build
  split
  · exact .inl ⟨_, _, rfl⟩
  · simp only [Bool.false_eq_true, if_false]
    split
    · rename_i hfeature
      exact .inr (.inl ⟨rfl, hfeature⟩)
    · rename_i hfeature
      exact .inr (.inr ⟨rfl, Bool.eq_false_iff.mpr hfeature⟩)

/-- The map has all features of the manifest, with the values that their texts are read as. -/
theorem buildFeatureMap_values {features : Finmap fun _ : String => List String}
    {dependencies : List (Dependency S R)} {map : FeatureMap}
    (h : buildFeatureMap features dependencies false = .ok map) :
    (∀ f ∈ features, f ∈ map) ∧ ∀ f values, map.lookup f = some values → ∀ v ∈ values,
      ∃ text, v = FeatureValue.build text (fun name => decide (name ∈ features)) false := by
  have hfold := foldlM_ok_induction
    (P := fun pre (m : FeatureMap) => (∀ f ∈ pre, f ∈ m) ∧
      ∀ f values, m.lookup f = some values → ∀ v ∈ values,
        ∃ text, v = FeatureValue.build text (fun name => decide (name ∈ features)) false)
    h ⟨nofun, fun f values hlookup => by simp at hlookup⟩ ?_
  · refine ⟨fun f hf => hfold.1 f ?_, hfold.2⟩
    rw [sortedKeys, Finset.mem_sort, Finmap.mem_keys]
    exact hf
  · rintro pre feature post m m' - ⟨hpre, hvalues⟩ hstep
    obtain ⟨needed, -, hstep⟩ := bind_eq_ok.mp hstep
    obtain ⟨m'', hcheck, hstep⟩ := bind_eq_ok.mp hstep
    -- without namespaced features the check of the values adds nothing
    have hm'' : m'' = m :=
      foldlM_ok_induction (P := fun _ (x : FeatureMap) => x = m) hcheck rfl
        (fun pre value post x x' _ hx hx' => (Summary.checkValue_eq hx').trans hx)
    split at hstep
    · cases hstep
    · cases hstep
      subst hm''
      refine ⟨fun f hf => ?_, fun f values hlookup v hv => ?_⟩
      · rw [Finmap.mem_insert]
        rcases List.mem_append.mp hf with hf | hf
        · exact .inr (hpre f hf)
        · exact .inl (List.mem_singleton.mp hf)
      · by_cases hf : f = feature
        · subst hf
          rw [Finmap.lookup_insert] at hlookup
          cases hlookup
          obtain ⟨text, -, heq⟩ := List.mem_map.mp hv
          exact ⟨text, heq.symm⟩
        · rw [Finmap.lookup_insert_of_ne _ hf] at hlookup
          exact hvalues f values hlookup v hv

/-- The values of the features of an accepted summary are valid. -/
theorem values_valid {s : Summary S R} (h : Accepted s) :
    s.namespacedFeatures = false ∧ ∀ f values, s.features.lookup f = some values →
      ∀ v ∈ values, ValidValue s v := by
  obtain ⟨packageId, dependencies, features, links, h⟩ := h
  obtain ⟨-, hmap, -, -, -, -, hnamespaced⟩ := Summary.new_eq_ok.mp h
  refine ⟨hnamespaced, fun f values hlookup v hv => ?_⟩
  obtain ⟨hall, hvalues⟩ := buildFeatureMap_values hmap
  obtain ⟨text, rfl⟩ := hvalues f values hlookup v hv
  rcases build_cases text (fun name => decide (name ∈ features)) with
    ⟨dep, feat, heq⟩ | ⟨heq, hfeature⟩ | ⟨heq, hfeature⟩
  · rw [heq]
    trivial
  · rw [heq]
    exact hall text (of_decide_eq_true hfeature)
  · rw [heq]
    exact fun hmem => of_decide_eq_false hfeature (Summary.mem_of_mem_buildFeatureMap hmap hmem)

/-! ### What a walk adds -/

/-- The requirements are there because of values in `V`. -/
structure Justified (s : Summary S R) (V : FeatureValue → Prop) (reqs : Requirements) : Prop where
  visited : ∀ x ∈ reqs.visited, V (.feature x) ∨ V (.crate x)
  used : ∀ x, x ∈ reqs.used ↔ x ∈ reqs.visited ∨ x ∈ reqs.deps
  /-- A name that is visited and is not that of a feature was asked for as a dependency. -/
  plain : ∀ n ∈ reqs.visited, n ∉ s.features → ∃ fs, reqs.deps.lookup n = some (true, fs)
  flag : ∀ n fs, reqs.deps.lookup n = some (true, fs) → V (.crate n)
  features : ∀ n flag fs, reqs.deps.lookup n = some (flag, fs) → ∀ g ∈ fs, V (.crateFeature n g)
  entry : ∀ n fs, reqs.deps.lookup n = some (false, fs) → fs ≠ []

/-- The value is accounted for. -/
def Met (reqs : Requirements) : FeatureValue → Prop
  | .feature f => f ∈ reqs.visited
  | .crate n => ∃ fs, reqs.deps.lookup n = some (true, fs)
  | .crateFeature n g => ∃ flag fs, reqs.deps.lookup n = some (flag, fs) ∧ g ∈ fs

/-- What is there stays, and the values of the features that are new are accounted for. -/
structure Adds (s : Summary S R) (V : FeatureValue → Prop) (a b : Requirements) : Prop where
  justified : Justified s V b
  visited : a.visited ⊆ b.visited
  deps : ∀ n flag fs, a.deps.lookup n = some (flag, fs) →
    ∃ flag' fs', b.deps.lookup n = some (flag', fs') ∧ (flag = true → flag' = true) ∧ fs ⊆ fs'
  complete : ∀ f ∈ b.visited, f ∉ a.visited → f ∈ s.features →
    ¬ListsItself s f ∧ ∀ values, s.features.lookup f = some values → ∀ v ∈ values, Met b v

section Walk

variable {s : Summary S R} {V : FeatureValue → Prop} {a b c : Requirements}

theorem Met.mono (h : Adds s V a b) {v : FeatureValue} (hv : Met a v) : Met b v := by
  cases v with
  | feature f => exact h.visited hv
  | crate n =>
    obtain ⟨fs, hlookup⟩ := hv
    obtain ⟨flag', fs', hlookup', hflag, -⟩ := h.deps n true fs hlookup
    rw [hflag rfl] at hlookup'
    exact ⟨fs', hlookup'⟩
  | crateFeature n g =>
    obtain ⟨flag, fs, hlookup, hg⟩ := hv
    obtain ⟨flag', fs', hlookup', -, hfs⟩ := h.deps n flag fs hlookup
    exact ⟨flag', fs', hlookup', hfs hg⟩

theorem Adds.refl (h : Justified s V a) : Adds s V a a where
  justified := h
  visited := subset_rfl
  deps _ flag fs hlookup := ⟨flag, fs, hlookup, id, fun _ hg => hg⟩
  complete _ hf hnew := absurd hf hnew

theorem Adds.trans (hab : Adds s V a b) (hbc : Adds s V b c) : Adds s V a c where
  justified := hbc.justified
  visited := hab.visited.trans hbc.visited
  deps n flag fs hlookup := by
    obtain ⟨flag', fs', hlookup', hflag, hfs⟩ := hab.deps n flag fs hlookup
    obtain ⟨flag'', fs'', hlookup'', hflag', hfs'⟩ := hbc.deps n flag' fs' hlookup'
    exact ⟨flag'', fs'', hlookup'', fun h => hflag' (hflag h), fun g hg => hfs' (hfs hg)⟩
  complete f hf hnew hfeature := by
    by_cases hb : f ∈ b.visited
    · obtain ⟨hself, hvalues⟩ := hab.complete f hb hnew hfeature
      exact ⟨hself, fun values hlookup v hv => (hvalues values hlookup v hv).mono hbc⟩
    · exact hbc.complete f hf hb hfeature

/-- A new entry for a dependency, which keeps what the old one says. -/
theorem adds_insert (h : Justified s V a) {n : String} {flag : Bool} {fs : List String}
    {visited : Finset String} (hsub : a.visited ⊆ visited)
    (hnew : ∀ x ∈ visited, x ∉ a.visited → x = n ∧ n ∉ s.features ∧ flag = true)
    (hflag : flag = true → V (.crate n)) (hkeep : (a.entry n).1 = true → flag = true)
    (hfs : ∀ g ∈ fs, V (.crateFeature n g)) (hsubfs : (a.entry n).2 ⊆ fs)
    (hentry : flag = false → fs ≠ []) :
    Adds s V a ⟨a.deps.insert n (flag, fs), insert n a.used, visited⟩ := by
  have hlookup : ∀ m e, (a.deps.insert n (flag, fs)).lookup m = some e →
      m = n ∧ e = (flag, fs) ∨ m ≠ n ∧ a.deps.lookup m = some e := by
    intro m e he
    by_cases hm : m = n
    · subst hm
      rw [Finmap.lookup_insert] at he
      exact .inl ⟨rfl, (Option.some.inj he).symm⟩
    · rw [Finmap.lookup_insert_of_ne _ hm] at he
      exact .inr ⟨hm, he⟩
  -- at `n` the new entry, everywhere else what `a` has
  refine ⟨⟨?_, ?_, ?_, ?_, ?_, ?_⟩, hsub, ?_, ?_⟩
  · intro x hx
    by_cases hold : x ∈ a.visited
    · exact h.visited x hold
    · obtain ⟨rfl, -, htrue⟩ := hnew x hx hold
      exact .inr (hflag htrue)
  · intro x
    rw [Finset.mem_insert, h.used, Finmap.mem_insert]
    constructor
    · rintro (rfl | hx | hx)
      · exact .inr (.inl rfl)
      · exact .inl (hsub hx)
      · exact .inr (.inr hx)
    · rintro (hx | rfl | hx)
      · by_cases hold : x ∈ a.visited
        · exact .inr (.inl hold)
        · exact .inl (hnew x hx hold).1
      · exact .inl rfl
      · exact .inr (.inr hx)
  · intro x hx hfeature
    by_cases hxn : x = n
    · subst hxn
      have htrue : flag = true := by
        by_cases hold : x ∈ a.visited
        · obtain ⟨fs', hlookup'⟩ := h.plain x hold hfeature
          exact hkeep (by rw [Requirements.entry_eq hlookup'])
        · exact (hnew x hx hold).2.2
      exact ⟨fs, by rw [Finmap.lookup_insert, htrue]⟩
    · have hold : x ∈ a.visited := by
        by_contra hold
        exact hxn (hnew x hx hold).1
      obtain ⟨fs', hlookup'⟩ := h.plain x hold hfeature
      exact ⟨fs', by rw [Finmap.lookup_insert_of_ne _ hxn, hlookup']⟩
  · intro m fs' he
    rcases hlookup m _ he with ⟨rfl, heq⟩ | ⟨-, he⟩
    · cases heq
      exact hflag rfl
    · exact h.flag m fs' he
  · intro m flag' fs' he
    rcases hlookup m _ he with ⟨rfl, heq⟩ | ⟨-, he⟩
    · cases heq
      exact hfs
    · exact h.features m flag' fs' he
  · intro m fs' he
    rcases hlookup m _ he with ⟨rfl, heq⟩ | ⟨-, he⟩
    · cases heq
      exact hentry rfl
    · exact h.entry m fs' he
  · intro m flag' fs' he
    by_cases hm : m = n
    · subst hm
      rw [Requirements.entry_eq he] at hkeep hsubfs
      exact ⟨flag, fs, Finmap.lookup_insert _, hkeep, hsubfs⟩
    · exact ⟨flag', fs', by rw [Finmap.lookup_insert_of_ne _ hm, he], id, fun _ hg => hg⟩
  · intro f hf hold hfeature
    obtain ⟨rfl, hnot, -⟩ := hnew f hf hold
    exact absurd hfeature hnot

theorem Justified.entry_features (h : Justified s V a) (n : String) :
    ∀ g ∈ (a.entry n).2, V (.crateFeature n g) := by
  cases hlookup : a.deps.lookup n with
  | none => simp [Requirements.entry, hlookup]
  | some e =>
    rw [Requirements.entry_eq hlookup]
    exact h.features n e.1 e.2 hlookup

theorem Justified.entry_flag (h : Justified s V a) {n : String} (hflag : (a.entry n).1 = true) :
    V (.crate n) := by
  cases hlookup : a.deps.lookup n with
  | none => simp [Requirements.entry, hlookup] at hflag
  | some e =>
    rw [Requirements.entry_eq hlookup] at hflag
    exact h.flag n e.2 (by rw [hlookup, ← hflag])

theorem adds_crateFeature (h : Justified s V a) {n g : String} (hv : V (.crateFeature n g)) :
    Adds s V a (a.requireCrateFeature n g) ∧
      Met (a.requireCrateFeature n g) (.crateFeature n g) := by
  refine ⟨adds_insert h subset_rfl (fun x hx hnot => absurd hx hnot)
    (fun hflag => h.entry_flag hflag)
    id (fun g' hg' => ?_) (List.subset_append_left _ _) fun _ => by simp, ?_⟩
  · rcases List.mem_append.mp hg' with hg' | hg'
    · exact h.entry_features n g' hg'
    · exact List.mem_singleton.mp hg' ▸ hv
  · exact ⟨_, _, Finmap.lookup_insert _, by simp⟩

theorem adds_dependency (h : Justified s V a) {n : String} (hv : V (.crate n))
    (hn : n ∉ s.features) :
    Adds s V a (a.requireDependency n) ∧ Met (a.requireDependency n) (.crate n) := by
  rw [Requirements.requireDependency]
  split
  · rename_i hvisited
    exact ⟨.refl h, h.plain n hvisited hn⟩
  · refine ⟨adds_insert h (Finset.subset_insert _ _) (fun x hx hnot => ?_) (fun _ => hv)
      (fun _ => rfl) (h.entry_features n) (fun _ hg => hg) (by simp), ?_⟩
    · exact ⟨(Finset.mem_insert.mp hx).resolve_right hnot, hn, rfl⟩
    · exact ⟨_, Finmap.lookup_insert _⟩

theorem Justified.mark (h : Justified s V a) {f : String} (hv : V (.feature f))
    (hf : f ∈ s.features) : Justified s V (a.mark f) where
  visited x hx := by
    rcases Finset.mem_insert.mp hx with rfl | hx
    · exact .inl hv
    · exact h.visited x hx
  used x := by
    simp only [Requirements.mark, Finset.mem_insert, h.used, or_assoc]
  plain n hn hnot := by
    rcases Finset.mem_insert.mp hn with rfl | hn
    · exact absurd hf hnot
    · exact h.plain n hn hnot
  flag := h.flag
  features := h.features
  entry := h.entry

/-! ### One walk -/

/-- The error says which feature lists itself. -/
def Cyclic (s : Summary S R) (V : FeatureValue → Prop) (e : Failure S R) : Prop :=
  ∃ f, e = .cyclicFeature f ∧ V (.feature f) ∧ ListsItself s f

/-- The values are valid, and closed under the values of features. -/
structure Closed (s : Summary S R) (V : FeatureValue → Prop) : Prop where
  valid : ∀ v, V v → ValidValue s v
  next : ∀ f values v, V (.feature f) → s.features.lookup f = some values → v ∈ values → V v
  named : "" ∉ s.features

/-- Requiring a feature adds it with all that it enables, or finds a feature that lists itself. -/
theorem requireFeature_spec (hV : Closed s V) {fuel : ℕ} {self : Requirements} {feat : String}
    (hself : Justified s V self) (hfeat : V (.feature feat))
    (hfuel : (s.features.keys \ self.visited).card < fuel) :
    (∃ self', Requirements.requireFeature s fuel self feat = .ok self' ∧ Adds s V self self' ∧
      feat ∈ self'.visited) ∨
    ∃ e, Requirements.requireFeature s fuel self feat = .error e ∧ Cyclic s V e := by
  induction fuel generalizing self feat with
  | zero => omega
  | succ fuel ih =>
    have hmem : feat ∈ s.features := hV.valid _ hfeat
    have hne : feat ≠ "" := fun heq => hV.named (heq ▸ hmem)
    rw [Requirements.requireFeature]
    by_cases hvisited : feat ∈ self.visited
    · rw [if_pos (.inr hvisited)]
      exact .inl ⟨self, rfl, .refl hself, hvisited⟩
    rw [if_neg (not_or.mpr ⟨hne, hvisited⟩)]
    obtain ⟨values, hvalues⟩ := Finmap.mem_iff.mp hmem
    simp only [hvalues]
    have hcard := card_unvisited_mark_lt hmem hvisited
    have hmark : Adds s V (self.mark feat) (self.mark feat) := .refl (hself.mark hfeat hmem)
    -- the loop over the values: all that was met stays met
    refine Or.imp_left ?_ (foldlM_cases
      (P := fun pre r => Adds s V (self.mark feat) r ∧ ∀ v ∈ pre, Met r v ∧ v ≠ .feature feat)
      ⟨hmark, by simp⟩ ?_)
    · rintro ⟨self', hfold, hadds, hmet⟩
      refine ⟨self', hfold, ⟨hadds.justified, ?_, hadds.deps, ?_⟩, ?_⟩
      · exact (Finset.subset_insert _ _).trans hadds.visited
      · intro f hf hnew hfeature
        by_cases hff : f = feat
        · subst hff
          refine ⟨?_, fun values' hvalues' v hv => ?_⟩
          · rintro ⟨values', hvalues', hlists⟩
            cases hvalues.symm.trans hvalues'
            exact (hmet _ hlists).2 rfl
          · cases hvalues.symm.trans hvalues'
            exact (hmet v hv).1
        · apply hadds.complete f hf _ hfeature
          simp [Requirements.mark, hff, hnew]
      · exact hadds.visited (Finset.mem_insert_self _ _)
    · rintro pre value post r hl ⟨hadds, hmet⟩
      have hvalue : value ∈ values := by rw [hl]; simp
      have hV' : V value := hV.next feat values value hfeat hvalues hvalue
      -- one more value is met, and the others stay so
      have hmore : ∀ {r'}, Adds s V r r' → Met r' value → value ≠ .feature feat →
          Adds s V (self.mark feat) r' ∧ ∀ v ∈ pre ++ [value], Met r' v ∧ v ≠ .feature feat := by
        intro r' hadds' hmet' hother
        refine ⟨hadds.trans hadds', fun v hv => ?_⟩
        rcases List.mem_append.mp hv with hv | hv
        · exact ⟨(hmet v hv).1.mono hadds', (hmet v hv).2⟩
        · rw [List.mem_singleton.mp hv]
          exact ⟨hmet', hother⟩
      cases value with
      | feature g =>
        by_cases hg : g = feat
        · subst hg
          simp only [if_true]
          exact .inr ⟨_, rfl, g, rfl, hfeat, values, hvalues, hvalue⟩
        · simp only [hg, if_false]
          have hless : (s.features.keys \ r.visited).card < fuel :=
            lt_of_le_of_lt (Finset.card_le_card
              (Finset.sdiff_subset_sdiff subset_rfl hadds.visited)) (by omega)
          refine Or.imp_left ?_ (ih hadds.justified hV' hless)
          rintro ⟨r', hr', hadds', hmet'⟩
          exact ⟨r', hr', hmore hadds' hmet' (by simpa using hg)⟩
      | crate n =>
        obtain ⟨hadds', hmet'⟩ := adds_dependency hadds.justified hV' (hV.valid _ hV')
        exact .inl ⟨_, rfl, hmore hadds' hmet' (by simp)⟩
      | crateFeature n g =>
        obtain ⟨hadds', hmet'⟩ := adds_crateFeature hadds.justified hV'
        exact .inl ⟨_, rfl, hmore hadds' hmet' (by simp)⟩

/-- Requiring a value. -/
theorem requireValue_spec (hV : Closed s V) {self : Requirements} {v : FeatureValue}
    (hself : Justified s V self) (hv : V v) :
    (∃ self', self.requireValue s v = .ok self' ∧ Adds s V self self' ∧ Met self' v) ∨
    ∃ e, self.requireValue s v = .error e ∧ Cyclic s V e := by
  cases v with
  | feature f =>
    apply requireFeature_spec hV hself hv
    exact Nat.lt_succ_of_le (Finset.card_le_card Finset.sdiff_subset)
  | crate n =>
    obtain ⟨hadds, hmet⟩ := adds_dependency hself hv (hV.valid _ hv)
    exact .inl ⟨_, rfl, hadds, hmet⟩
  | crateFeature n g =>
    obtain ⟨hadds, hmet⟩ := adds_crateFeature hself hv
    exact .inl ⟨_, rfl, hadds, hmet⟩

end Walk

/-! ### All that is asked for -/

/-- Features as values. -/
theorem foldlM_requireFeature (s : Summary S R) (keys : List String) (reqs : Requirements) :
    keys.foldlM (Requirements.requireFeature s (Requirements.featureFuel s)) reqs =
      (keys.map FeatureValue.feature).foldlM (fun reqs v => reqs.requireValue s v) reqs := by
  rw [List.foldlM_map]
  rfl

/-- Dependencies as values. -/
theorem foldl_requireDependency (s : Summary S R) (deps : List (Dependency S R))
    (reqs : Requirements) :
    .ok (deps.foldl (fun reqs dep => reqs.requireDependency dep.nameInToml) reqs) =
      (deps.map fun d => FeatureValue.crate d.nameInToml).foldlM
        (fun reqs v => reqs.requireValue s v) reqs := by
  induction deps generalizing reqs with
  | nil => rfl
  | cons d deps ih =>
    rw [List.map_cons, List.foldlM_cons, List.foldl_cons, ih]
    rfl

/-- The values that are asked for are required one after the other. -/
theorem buildRequirements_eq (s : Summary S R) (method : Method) :
    buildRequirements s method =
      (starts s method).foldlM (fun reqs v => reqs.requireValue s v) Requirements.new := by
  have hdefault : ∀ reqs : Requirements,
      (if method.usesDefault ∧ "default" ∈ s.features then
        Requirements.requireFeature s (Requirements.featureFuel s) reqs "default"
      else .ok reqs) =
      (if method.usesDefault ∧ "default" ∈ s.features then [FeatureValue.feature "default"]
        else []).foldlM (fun reqs v => reqs.requireValue s v) reqs := by
    intro reqs
    split
    · rw [List.foldlM_cons]
      change _ = Requirements.requireFeature s (Requirements.featureFuel s) reqs "default" >>= _
      cases Requirements.requireFeature s (Requirements.featureFuel s) reqs "default" with
      | error e => rfl
      | ok r => rfl
    · rfl
  have hall : ((sortedKeys s.features).foldlM
        (Requirements.requireFeature s (Requirements.featureFuel s)) Requirements.new >>=
      fun reqs => .ok ((s.dependencies.filter (·.optional)).foldl
        (fun reqs dep => reqs.requireDependency dep.nameInToml) reqs)) =
      ((sortedKeys s.features).map FeatureValue.feature ++
        (s.dependencies.filter (·.optional)).map fun d => FeatureValue.crate d.nameInToml).foldlM
          (fun reqs v => reqs.requireValue s v) Requirements.new := by
    rw [List.foldlM_append, ← foldlM_requireFeature]
    simp only [foldl_requireDependency s]
  rw [buildRequirements, starts, List.foldlM_append]
  simp only [hdefault]
  cases method with
  | everything =>
    dsimp only [requireRequested, requestedValues]
    rw [hall]
  | required devDeps requested allFeatures usesDefault =>
    cases allFeatures with
    | true =>
      dsimp only [requireRequested, requestedValues]
      rw [hall]
    | false =>
      dsimp only [requireRequested, requestedValues]
      rw [List.foldlM_map]

/-- What is reached from what is asked for. -/
theorem closed_reached {s : Summary S R} (hs : Accepted s) (hnames : "" ∉ s.features)
    (method : Method) : Closed s (Reached s (starts s method)) := by
  obtain ⟨hplain, hvalues⟩ := values_valid hs
  have hall : ∀ v ∈ (sortedKeys s.features).map FeatureValue.feature ++
      (s.dependencies.filter (·.optional)).map fun d => FeatureValue.crate d.nameInToml,
      ValidValue s v := by
    intro v hv
    rcases List.mem_append.mp hv with hv | hv
    · obtain ⟨f, hf, rfl⟩ := List.mem_map.mp hv
      rw [sortedKeys, Finset.mem_sort, Finmap.mem_keys] at hf
      exact hf
    · obtain ⟨d, hd, rfl⟩ := List.mem_map.mp hv
      exact s.names_disjoint hplain d (List.mem_filter.mp hd).1
  refine ⟨fun v hv => ?_, fun f values v hf hlookup hv => .next hf hlookup hv, hnames⟩
  induction hv with
  | next _ hlookup hmem _ => exact hvalues _ _ hlookup _ hmem
  | start hmem =>
    rcases List.mem_append.mp hmem with hmem | hmem
    · cases method with
      | everything => exact hall _ hmem
      | required devDeps requested allFeatures usesDefault =>
        cases allFeatures with
        | true => exact hall _ hmem
        | false =>
          -- a requested text is read as what it names: a feature of the package, or else a crate
          obtain ⟨f, -, rfl⟩ := List.mem_map.mp hmem
          rw [featureValue, hplain]
          rcases build_cases f (fun name => decide (name ∈ s.features)) with
            ⟨dep, feat, heq⟩ | ⟨heq, hfeature⟩ | ⟨heq, hfeature⟩
          · rw [heq]
            trivial
          · have hmem : f ∈ s.features := of_decide_eq_true hfeature
            rw [heq]
            exact hmem
          · have hnot : f ∉ s.features := of_decide_eq_false hfeature
            rw [heq]
            exact hnot
    · split at hmem
      · rename_i hdefault
        rw [List.mem_singleton.mp hmem]
        exact hdefault.2
      · cases hmem

/-- The requirements are the closure `V`. -/
structure IsClosure (s : Summary S R) (V : FeatureValue → Prop) (reqs : Requirements) : Prop where
  /-- The features that are visited. -/
  visited : ∀ f, f ∈ reqs.visited ∧ f ∈ s.features ↔ V (.feature f)
  used : ∀ x, x ∈ reqs.used ↔ V (.feature x) ∨ V (.crate x) ∨ ∃ g, V (.crateFeature x g)
  deps : ∀ n, n ∈ reqs.deps ↔ V (.crate n) ∨ ∃ g, V (.crateFeature n g)
  entry : ∀ n flag features, reqs.deps.lookup n = some (flag, features) →
    (flag = true ↔ V (.crate n)) ∧ ∀ g, g ∈ features ↔ V (.crateFeature n g)

/-- Requirements that are justified and meet every value are the closure. -/
theorem isClosure_of_met {s : Summary S R} {V : FeatureValue → Prop} {reqs : Requirements}
    (hV : Closed s V) (hreqs : Justified s V reqs) (hmet : ∀ v, V v → Met reqs v) :
    IsClosure s V reqs := by
  -- an entry is there for the crate itself or for a feature that is asked of it
  have hdeps : ∀ n, n ∈ reqs.deps ↔ V (.crate n) ∨ ∃ g, V (.crateFeature n g) := by
    intro n
    constructor
    · intro hn
      obtain ⟨⟨flag, fs⟩, hlookup⟩ := Finmap.mem_iff.mp hn
      cases flag with
      | true => exact .inl (hreqs.flag n fs hlookup)
      | false =>
        obtain ⟨g, hg⟩ := List.exists_mem_of_ne_nil fs (hreqs.entry n fs hlookup)
        exact .inr ⟨g, hreqs.features n false fs hlookup g hg⟩
    · rintro (hn | ⟨g, hg⟩)
      · obtain ⟨fs, hlookup⟩ := hmet _ hn
        exact Finmap.mem_of_lookup_eq_some hlookup
      · obtain ⟨flag, fs, hlookup, -⟩ := hmet _ hg
        exact Finmap.mem_of_lookup_eq_some hlookup
  refine ⟨fun f => ⟨?_, fun hf => ⟨hmet _ hf, hV.valid _ hf⟩⟩, fun x => ?_, hdeps, ?_⟩
  · rintro ⟨hvisited, hfeature⟩
    exact (hreqs.visited f hvisited).resolve_right fun hcrate => hV.valid _ hcrate hfeature
  · rw [hreqs.used, hdeps]
    constructor
    · rintro (hvisited | hdep)
      · exact (hreqs.visited x hvisited).imp_right .inl
      · exact .inr hdep
    · rintro (hfeature | hdep)
      · exact .inl (hmet _ hfeature)
      · exact .inr hdep
  · intro n flag features hlookup
    refine ⟨⟨?_, fun hn => ?_⟩, fun g => ⟨hreqs.features n flag features hlookup g, fun hg => ?_⟩⟩
    · rintro rfl
      exact hreqs.flag n features hlookup
    · obtain ⟨fs, hlookup'⟩ := hmet _ hn
      cases hlookup.symm.trans hlookup'
      rfl
    · obtain ⟨flag', fs, hlookup', hmem⟩ := hmet _ hg
      cases hlookup.symm.trans hlookup'
      exact hmem

/-- What is asked of a package gives the closure of the features, unless one that is reached lists
itself; then that is the error. -/
theorem buildRequirements_closure (s : Summary S R) (hs : Accepted s) (hnames : "" ∉ s.features)
    (method : Method) :
    (∃ reqs, buildRequirements s method = .ok reqs ∧
      (∀ f, Reached s (starts s method) (.feature f) → ¬ListsItself s f) ∧
      IsClosure s (Reached s (starts s method)) reqs) ∨
    ∃ f, buildRequirements s method = .error (.cyclicFeature f) ∧
      Reached s (starts s method) (.feature f) ∧ ListsItself s f := by
  have hV := closed_reached hs hnames method
  have hnew : Justified s (Reached s (starts s method)) Requirements.new := by
    constructor <;> simp [Requirements.new, Finmap.notMem_empty]
  rw [buildRequirements_eq]
  have hloop := foldlM_cases
    (P := fun pre r => Adds s (Reached s (starts s method)) Requirements.new r ∧
      ∀ v ∈ pre, Met r v)
    (Q := Cyclic s (Reached s (starts s method)))
    (f := fun reqs v => Requirements.requireValue s reqs v) (l := starts s method)
    ⟨Adds.refl hnew, by simp⟩ ?_
  · rcases hloop with ⟨reqs, hreqs, hadds, hmet⟩ | ⟨e, he, f, rfl, hf, hself⟩
    · have hall : ∀ v, Reached s (starts s method) v → Met reqs v := by
        intro v hv
        induction hv with
        | start hmem => exact hmet _ hmem
        | next hf hlookup hmem ih =>
          exact (hadds.complete _ ih (Finset.notMem_empty _) (hV.valid _ hf)).2 _ hlookup _ hmem
      refine .inl ⟨reqs, hreqs, fun f hf => ?_, isClosure_of_met hV hadds.justified hall⟩
      exact (hadds.complete f (hall _ hf) (Finset.notMem_empty f) (hV.valid _ hf)).1
    · exact .inr ⟨f, he, hf, hself⟩
  · rintro pre v post r hl ⟨hadds, hmet⟩
    have hv : Reached s (starts s method) v := .start (by rw [hl]; simp)
    refine Or.imp_left ?_ (requireValue_spec hV hadds.justified hv)
    rintro ⟨r', hr', hadds', hmet'⟩
    refine ⟨r', hr', hadds.trans hadds', fun v' hv' => ?_⟩
    rcases List.mem_append.mp hv' with hv' | hv'
    · exact (hmet v' hv').mono hadds'
    · exact List.mem_singleton.mp hv' ▸ hmet'

/-! ### Features that enable each other -/

/-- The features of the manifest: `a` and `b` enable each other, and `b` also an optional
dependency with one of its features. -/
def cyclicFeatures : Finmap fun _ : String => List String :=
  (Finmap.singleton "a" ["b"]).insert "b" ["a", "log", "log/std"]

/-- The optional dependency. -/
def cyclicDependencies : List (Dependency ℕ (List Version)) :=
  [{ Dependency.parse "log" [⟨1, 0, 0, []⟩] 0 with optional := true }]

theorem sortedKeys_cyclicFeatures : sortedKeys cyclicFeatures = ["a", "b"] := by
  have hkeys : cyclicFeatures.keys = insert "a" {"b"} := by decide
  rw [sortedKeys, hkeys, Finset.sort_insert, Finset.sort_singleton]
  · decide
  · decide

/-- The map that `Summary::new` makes of the features. -/
def cyclicMap : FeatureMap :=
  (Finmap.singleton "a" [.feature "b"]).insert "b"
    [.feature "a", .crate "log", .crateFeature "log" "std"]

theorem buildFeatureMap_cyclic :
    buildFeatureMap cyclicFeatures cyclicDependencies false = .ok cyclicMap := by
  rw [buildFeatureMap, sortedKeys_cyclicFeatures]
  rfl

/-- The package with these features. -/
def cyclicPackage : Summary ℕ (List Version) where
  packageId := ⟨"p", ⟨1, 0, 0, []⟩, 0⟩
  dependencies := cyclicDependencies
  features := cyclicMap
  checksum := none
  links := none
  namespacedFeatures := false
  names_disjoint := by decide
  optional_transitive := by decide

/-- The summary is accepted, and what `a` asks of it is the closure. -/
theorem buildRequirements_closure_cyclic :
    Accepted cyclicPackage ∧ ∃ reqs,
      buildRequirements cyclicPackage (.required false ["a"] false false) = .ok reqs ∧
      IsClosure cyclicPackage
        (Reached cyclicPackage (starts cyclicPackage (.required false ["a"] false false)))
        reqs := by
  have haccepted : Accepted cyclicPackage := by
    refine ⟨cyclicPackage.packageId, cyclicDependencies, cyclicFeatures, none, ?_⟩
    exact Summary.new_eq_ok.mpr ⟨rfl, buildFeatureMap_cyclic, rfl, rfl, rfl, rfl, rfl⟩
  refine ⟨haccepted, ?_⟩
  rcases buildRequirements_closure cyclicPackage haccepted (by decide)
    (.required false ["a"] false false) with ⟨reqs, hreqs, -, hclosure⟩ | ⟨f, hf, -⟩
  · exact ⟨reqs, hreqs, hclosure⟩
  · have hok :
        (buildRequirements cyclicPackage (.required false ["a"] false false)).toOption.isSome =
        true := by decide +kernel
    rw [hf] at hok
    cases hok

end Cargo.Resolver
