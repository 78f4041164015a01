import Cargo.Util.DependencyQueue

/-!
# What the operations of the dependency queue do

The queue is described by a `Plan`: the keys that were queued, the dependencies
each was first queued with, and the keys first queued dirty. While it runs, the
state of the queue is a function of the plan and of three sets: the keys handed
out, the keys finished, and the keys finished dirty. `Tracks` states that, and
each operation gets one lemma that says how it moves the sets.

## Main definitions

* `Plan` — what was queued
* `Queued plan q` — `q` is the queue just after queueing `plan`
* `Tracks plan out done stale q` — `q` after handing out `out` and finishing `done`

## Main results

* `Queued.queue` — queueing one more key extends the plan
* `exists_depthOf_ok` — the depth computation returns the longest chain of dependents
* `Queued.exists_queueFinished` — `queueFinished` does not panic
* `Tracks.dequeue`, `Tracks.finish` — the two running operations do not panic
-/

set_option autoImplicit false

namespace Cargo.Util.DependencyQueue

open Cargo.Math Relation

variable {K V : Type} [DecidableEq K]

/-- What has been queued. Only the values of `deps` at the keys matter. -/
structure Plan (K : Type) where
  keys : Finset K
  deps : K → Finset K
  dirty : Finset K

namespace Plan

/-- Nothing has been queued. -/
def empty : Plan K := ⟨∅, fun _ => ∅, ∅⟩

/-- The plan after one more call of `queue`. -/
def add (plan : Plan K) (freshness : Freshness) (key : K) (dependencies : List K) : Plan K :=
  if key ∈ plan.keys then plan
  else
    { keys := insert key plan.keys
      deps := Function.update plan.deps key dependencies.toFinset
      dirty := if freshness = .dirty then insert key plan.dirty else plan.dirty }

/-- `b` was queued as depending on `a`. -/
def Dependent (plan : Plan K) (a b : K) : Prop := b ∈ plan.keys ∧ a ∈ plan.deps b

end Plan

/-- The maps of the queue that queueing fills and running leaves alone. -/
def ReverseOf (plan : Plan K) (map : Finmap fun _ : K => Finset K) : Prop :=
  ∀ a b, b ∈ dependentsOf map a ↔ plan.Dependent a b

/-- `q` is the queue right after the calls of `queue` that make up `plan`. -/
structure Queued (plan : Plan K) (q : DependencyQueue K V) : Prop where
  mem_depMap : ∀ k, k ∈ q.depMap ↔ k ∈ plan.keys
  deps_eq : ∀ k deps value, q.depMap.lookup k = some (deps, value) → deps = plan.deps k
  reverse : ReverseOf plan q.reverseDepMap
  dirty_eq : q.dirty = plan.dirty
  dirty_subset : plan.dirty ⊆ plan.keys
  pending_eq : q.pending = ∅
  depth_eq : q.depth = ∅

/-! ### Queueing -/

theorem mem_dependentsOf_addDependent {map : Finmap fun _ : K => Finset K} {key dep a b : K} :
    b ∈ dependentsOf (addDependent map key dep) a ↔
      b ∈ dependentsOf map a ∨ a = dep ∧ b = key := by
  by_cases h : a = dep
  · subst h
    simp [dependentsOf, addDependent, or_comm]
  · simp [dependentsOf, addDependent, Finmap.lookup_insert_of_ne, h]

theorem mem_dependentsOf_foldl {map : Finmap fun _ : K => Finset K} {key a b : K} {deps : List K} :
    b ∈ dependentsOf (deps.foldl (fun map dep => addDependent map key dep) map) a ↔
      b ∈ dependentsOf map a ∨ a ∈ deps ∧ b = key := by
  induction deps generalizing map with
  | nil => simp
  | cons dep deps ih =>
    rw [List.foldl_cons, ih, mem_dependentsOf_addDependent, List.mem_cons]
    tauto

theorem queued_new : Queued (Plan.empty : Plan K) (new : DependencyQueue K V) where
  mem_depMap := by simp [Plan.empty, new, Finmap.notMem_empty]
  deps_eq := by simp [new]
  reverse := by simp [ReverseOf, dependentsOf, new, Plan.Dependent, Plan.empty]
  dirty_eq := rfl
  dirty_subset := by simp [Plan.empty]
  pending_eq := rfl
  depth_eq := rfl

/-- Queueing a key that is already there changes nothing. -/
theorem queue_of_mem {q : DependencyQueue K V} {freshness : Freshness} {key : K} {value : V}
    {deps : List K} (h : key ∈ q.depMap) : q.queue freshness key value deps = q := by
  obtain ⟨entry, hentry⟩ := Finmap.mem_iff.mp h
  simp [queue, hentry]

/-- Queueing one more key extends the plan by it. -/
theorem Queued.queue {plan : Plan K} {q : DependencyQueue K V} (h : Queued plan q)
    (freshness : Freshness) (key : K) (value : V) (deps : List K) :
    Queued (plan.add freshness key deps) (q.queue freshness key value deps) := by
  by_cases hkey : key ∈ plan.keys
  · rw [queue_of_mem ((h.mem_depMap key).mpr hkey), Plan.add, if_pos hkey]
    exact h
  · have hlookup : q.depMap.lookup key = none := by
      rw [Finmap.lookup_eq_none, h.mem_depMap]
      exact hkey
    have hne : ∀ k ∈ plan.keys, k ≠ key := fun k hk heq => hkey (heq ▸ hk)
    simp only [DependencyQueue.queue, hlookup, Plan.add, if_neg hkey]
    refine ⟨?_, ?_, ?_, ?_, ?_, h.pending_eq, h.depth_eq⟩
    · intro k
      simp [Finmap.mem_insert, h.mem_depMap]
    · intro k deps' value' hk
      by_cases hkk : k = key
      · subst hkk
        rw [Finmap.lookup_insert] at hk
        simp_all
      · rw [Finmap.lookup_insert_of_ne _ hkk] at hk
        simpa [Function.update_of_ne hkk] using h.deps_eq k deps' value' hk
    · intro a b
      rw [mem_dependentsOf_foldl, h.reverse]
      simp only [Plan.Dependent, Finset.mem_insert]
      by_cases hb : b = key
      · subst hb
        simp [hkey]
      · simp [hb]
    · rw [h.dirty_eq]
    · split
      · exact Finset.insert_subset_insert _ h.dirty_subset
      · exact h.dirty_subset.trans (Finset.subset_insert _ _)

/-- Writing to the value of a key is invisible to the plan. -/
theorem Queued.modifyValue {plan : Plan K} {q : DependencyQueue K V} (h : Queued plan q)
    (key : K) (f : V → V) : Queued plan (q.modifyValue key f) := by
  unfold DependencyQueue.modifyValue
  split
  · rename_i deps value hkey
    refine ⟨?_, ?_, h.reverse, h.dirty_eq, h.dirty_subset, h.pending_eq, h.depth_eq⟩
    · intro k
      rw [Finmap.mem_insert, ← h.mem_depMap]
      have := Finmap.mem_of_lookup_eq_some hkey
      constructor
      · rintro (rfl | hk) <;> assumption
      · exact Or.inr
    · intro k deps' value' hk
      by_cases hkk : k = key
      · subst hkk
        rw [Finmap.lookup_insert] at hk
        cases hk
        exact h.deps_eq _ _ _ hkey
      · rw [Finmap.lookup_insert_of_ne _ hkk] at hk
        exact h.deps_eq _ _ _ hk
  · exact h

/-! ### The depth of a key -/

/-- The memo table of the depth computation. -/
abbrev Memo (K : Type) := Finmap fun _ : K => Option ℕ

/-- Every depth in the table is right. -/
def MemoOk (plan : Plan K) (results : Memo K) : Prop :=
  ∀ k d, results.lookup k = some (some d) → IsLongestChain plan.Dependent k d

/-- `results'` adds only right depths to `results` and marks no further key as under
way. -/
structure Extends (plan : Plan K) (results results' : Memo K) : Prop where
  ok : MemoOk plan results'
  keeps : ∀ k e, results.lookup k = some e → results'.lookup k = some e
  inProgress : ∀ k, results'.lookup k = some none → results.lookup k = some none

theorem Extends.refl {plan : Plan K} {results : Memo K} (h : MemoOk plan results) :
    Extends plan results results :=
  ⟨h, fun _ _ he => he, fun _ hk => hk⟩

theorem Extends.trans {plan : Plan K} {r₁ r₂ r₃ : Memo K} (h₁ : Extends plan r₁ r₂)
    (h₂ : Extends plan r₂ r₃) : Extends plan r₁ r₃ :=
  ⟨h₂.ok, fun k e he => h₂.keeps k e (h₁.keeps k e he),
    fun k hk => h₁.inProgress k (h₂.inProgress k hk)⟩

theorem Extends.keys_subset {plan : Plan K} {r₁ r₂ : Memo K} (h : Extends plan r₁ r₂) :
    r₁.keys ⊆ r₂.keys := by
  intro k hk
  obtain ⟨e, he⟩ := Finmap.mem_iff.mp (Finmap.mem_keys.mp hk)
  exact Finmap.mem_keys.mpr (Finmap.mem_of_lookup_eq_some (h.keeps k e he))

/-- Marking `key` as under way and later recording its depth extends the table that
did not know `key`. -/
theorem Extends.close {plan : Plan K} {results res : Memo K} {key : K} {d : ℕ}
    (hkey : results.lookup key = none) (h : Extends plan (results.insert key none) res)
    (hd : IsLongestChain plan.Dependent key d) :
    Extends plan results (res.insert key (some d)) := by
  refine ⟨?_, ?_, ?_⟩
  · intro k e hk
    by_cases hkk : k = key
    · subst hkk
      rw [Finmap.lookup_insert] at hk
      cases hk
      exact hd
    · rw [Finmap.lookup_insert_of_ne _ hkk] at hk
      exact h.ok k e hk
  · intro k e hk
    have hkk : k ≠ key := by
      rintro rfl
      rw [hkey] at hk
      cases hk
    rw [Finmap.lookup_insert_of_ne _ hkk]
    exact h.keeps k e (by rwa [Finmap.lookup_insert_of_ne _ hkk])
  · intro k hk
    have hkk : k ≠ key := by
      rintro rfl
      rw [Finmap.lookup_insert] at hk
      cases hk
    rw [Finmap.lookup_insert_of_ne _ hkk] at hk
    have := h.inProgress k hk
    rwa [Finmap.lookup_insert_of_ne _ hkk] at this

/-- Marking a queued key as under way leaves fewer keys unknown. -/
theorem card_unknown_insert_lt {plan : Plan K} {results res : Memo K} {key : K}
    (hmem : key ∈ plan.keys) (hkey : results.lookup key = none)
    (hsub : (results.insert key none).keys ⊆ res.keys) :
    (plan.keys \ res.keys).card < (plan.keys \ results.keys).card := by
  apply Finset.card_lt_card
  refine ⟨?_, fun hback => ?_⟩
  · intro k hk
    rw [Finset.mem_sdiff] at hk ⊢
    refine ⟨hk.1, fun hkr => hk.2 (hsub ?_)⟩
    rw [Finmap.mem_keys] at hkr ⊢
    exact Finmap.mem_insert.mpr (Or.inr hkr)
  · have hin : key ∈ plan.keys \ results.keys := by
      rw [Finset.mem_sdiff, Finmap.mem_keys, ← Finmap.lookup_eq_none]
      exact ⟨hmem, hkey⟩
    refine (Finset.mem_sdiff.mp (hback hin)).2 (hsub ?_)
    exact Finmap.mem_keys.mpr (Finmap.mem_insert.mpr (Or.inl rfl))

/-- Entering a key leaves the depths that are known. -/
theorem MemoOk.enter {plan : Plan K} {results : Memo K} (h : MemoOk plan results) (key : K) :
    MemoOk plan (results.insert key none) := by
  intro k d hk
  by_cases hkk : k = key
  · subst hkk
    rw [Finmap.lookup_insert] at hk
    cases hk
  · rw [Finmap.lookup_insert_of_ne _ hkk] at hk
    exact h k d hk

/-- What the loop over dependents has after those of `pre`: depths, and the largest one met. -/
structure Deepest (plan : Plan K) (results : Memo K) (pre : List K) (s : ℕ × Memo K) : Prop where
  ext : Extends plan results s.2
  bound : ∀ b ∈ pre, ∃ d, IsLongestChain plan.Dependent b d ∧ d ≤ s.1
  attained : s.1 = 0 ∨ ∃ b ∈ pre, IsLongestChain plan.Dependent b s.1

theorem Deepest.visit {plan : Plan K} {results res res' : Memo K} {pre : List K} {dep : K}
    {m d : ℕ} (h : Deepest plan results pre (m, res)) (hd : IsLongestChain plan.Dependent dep d)
    (hext : Extends plan res res') :
    Deepest plan results (pre ++ [dep]) (max m d, res') := by
  refine ⟨h.ext.trans hext, ?_, ?_⟩
  · intro b hb
    rcases List.mem_append.mp hb with hb | hb
    · obtain ⟨e, he, hle⟩ := h.bound b hb
      exact ⟨e, he, hle.trans (le_max_left _ _)⟩
    · obtain rfl := List.mem_singleton.mp hb
      exact ⟨d, hd, le_max_right _ _⟩
  · rcases le_total m d with hmd | hdm
    · exact Or.inr ⟨dep, by simp, by simpa [max_eq_right hmd] using hd⟩
    · rcases h.attained with hm | ⟨b, hb, hb'⟩
      -- nothing was met before, so that `d` would be zero
      · have hpos := hd.pos
        simp only at hm
        omega
      · exact Or.inr ⟨b, by simp [hb], by simpa [max_eq_left hdm] using hb'⟩

theorem Deepest.isLongestChain {plan : Plan K} {results res : Memo K} {l : List K} {m : ℕ}
    {key : K} (h : Deepest plan results l (m, res))
    (hmem : ∀ b, plan.Dependent key b ↔ b ∈ l) : IsLongestChain plan.Dependent key (1 + m) := by
  refine isLongestChain_of_successors (fun b hb => h.bound b ((hmem b).mp hb)) ?_
  rcases h.attained with hm | ⟨b, hb, hb'⟩
  · exact Or.inl hm
  · exact Or.inr ⟨b, (hmem b).mpr hb, hb'⟩

/-- On an acyclic plan the depth computation never meets a key under way, so it
returns the length of the longest chain of dependents. -/
theorem exists_depthOf_ok {plan : Plan K} {map : Finmap fun _ : K => Finset K}
    (hrev : ReverseOf plan map) (hacyclic : Acyclic plan.Dependent) (ho : HashOrder K)
    (fuel : ℕ) :
    ∀ (key : K) (results : Memo K), key ∈ plan.keys → MemoOk plan results →
      (∀ p, results.lookup p = some none → TransGen plan.Dependent p key) →
      (plan.keys \ results.keys).card < fuel →
      ∃ d results', depthOf ho map fuel key results = .ok (d, results') ∧
        IsLongestChain plan.Dependent key d ∧ results'.lookup key = some (some d) ∧
        Extends plan results results' := by
  induction fuel with
  | zero => intro _ _ _ _ _ hfuel; omega
  | succ fuel ih =>
    intro key results hmem hok hbusy hfuel
    cases hkey : results.lookup key with
    | some entry =>
      cases entry with
      | some d => exact ⟨d, results, by simp [depthOf, hkey], hok _ _ hkey, hkey, .refl hok⟩
      | none => exact absurd (hbusy key hkey) (hacyclic key)
    | none =>
      have hdependent : ∀ b, plan.Dependent key b ↔
          b ∈ (ho.of key).enum (dependentsOf map key) := by
        intro b
        rw [SetOrder.mem_enum, hrev]
      obtain ⟨⟨m, res⟩, hfold, hdeepest⟩ := exists_foldlM_ok
        (f := fun (s : ℕ × Memo K) dep => do
          let visited ← depthOf ho map fuel dep s.2
          .ok (max s.1 visited.1, visited.2))
        (P := Deepest plan (results.insert key none))
        (l := (ho.of key).enum (dependentsOf map key)) (s := (0, results.insert key none))
        ⟨.refl (hok.enter key), by simp, Or.inl rfl⟩
        (by
          rintro pre dep post ⟨m, res⟩ hl h
          have hdep : plan.Dependent key dep := by
            rw [hdependent, hl]
            simp
          -- what is under way leads to `key`, and from there to its dependent
          have hbusy' : ∀ p, res.lookup p = some none → TransGen plan.Dependent p dep := by
            intro p hp
            have hp' := h.ext.inProgress p hp
            by_cases hpk : p = key
            · subst hpk
              exact .single hdep
            · rw [Finmap.lookup_insert_of_ne _ hpk] at hp'
              exact (hbusy p hp').tail hdep
          have hfuel' : (plan.keys \ res.keys).card < (plan.keys \ results.keys).card :=
            card_unknown_insert_lt hmem hkey h.ext.keys_subset
          obtain ⟨d, res', hrun, hd, -, hext⟩ :=
            ih dep res hdep.1 h.ext.ok hbusy' (by omega)
          exact ⟨(max m d, res'), by simp [hrun, bind, Except.bind], h.visit hd hext⟩)
      have hlong := hdeepest.isLongestChain hdependent
      refine ⟨1 + m, res.insert key (some (1 + m)), ?_, hlong, Finmap.lookup_insert _,
        hdeepest.ext.close hkey hlong⟩
      rw [depthOf, hkey]
      simp only [bind, Except.bind] at hfold ⊢
      rw [hfold]

/-! ### Running -/

/-- `q` is the queue of `plan` after the keys in `out` were handed out, those in
`done` were finished, and those in `stale` were finished dirty. -/
structure Tracks (plan : Plan K) (out done stale : Finset K) (q : DependencyQueue K V) :
    Prop where
  mem_depMap : ∀ k, k ∈ q.depMap ↔ k ∈ plan.keys ∧ k ∉ out
  deps_eq : ∀ k deps value, q.depMap.lookup k = some (deps, value) → deps = plan.deps k \ done
  reverse : ReverseOf plan q.reverseDepMap
  mem_dirty : ∀ k, k ∈ q.dirty ↔
    k ∈ plan.dirty ∨ k ∈ plan.keys ∧ ∃ d ∈ plan.deps k, d ∈ stale
  pending_eq : q.pending = out \ done
  depth_ok : ∀ k ∈ plan.keys, ∃ d, q.depth.lookup k = some (some d) ∧
    IsLongestChain plan.Dependent k d
  out_subset : out ⊆ plan.keys
  done_subset : done ⊆ out
  deps_done : ∀ k ∈ out, plan.deps k ⊆ done

/-- Computing the depths never panics on an acyclic plan, and makes the queue ready
to run. -/
theorem Queued.exists_queueFinished {plan : Plan K} {q : DependencyQueue K V}
    (h : Queued plan q) (hacyclic : Acyclic plan.Dependent) (ho : HashOrder K) :
    ∃ q', q.queueFinished ho = .ok q' ∧ Tracks plan ∅ ∅ ∅ q' ∧ q'.valueOf = q.valueOf := by
  have hkeys : q.depMap.keys = plan.keys := by
    ext k
    rw [Finmap.mem_keys, h.mem_depMap]
  -- Every key met so far has its depth, and nothing is under way between keys.
  obtain ⟨depth, hfold, hok, hidle, hall⟩ := exists_foldlM_ok
    (f := fun (results : Memo K) key => do
      let visited ← depthOf ho q.reverseDepMap (q.depMap.keys.card + 1) key results
      .ok visited.2)
    (P := fun pre results => MemoOk plan results ∧ (∀ k, results.lookup k ≠ some none) ∧
      ∀ k ∈ pre, ∃ d, results.lookup k = some (some d))
    (l := ho.enum q.depMap.keys) (s := q.depth)
    (by simp [h.depth_eq, MemoOk])
    (by
      rintro pre key post results hl ⟨hok, hidle, hall⟩
      have hmem : key ∈ plan.keys := by
        rw [← hkeys, ← SetOrder.mem_enum, hl]
        simp
      have hfuel : (plan.keys \ results.keys).card < q.depMap.keys.card + 1 := by
        rw [hkeys]
        exact Nat.lt_succ_of_le (Finset.card_le_card Finset.sdiff_subset)
      obtain ⟨d, results', hrun, -, hkey, hext⟩ := exists_depthOf_ok h.reverse hacyclic ho _
        key results hmem hok (fun p hp => absurd hp (hidle p)) hfuel
      refine ⟨results', by simp [hrun, bind, Except.bind], hext.ok,
        fun k hk => hidle k (hext.inProgress k hk), ?_⟩
      intro k hk
      rcases List.mem_append.mp hk with hk | hk
      · obtain ⟨e, he⟩ := hall k hk
        exact ⟨e, hext.keeps k _ he⟩
      · obtain rfl := List.mem_singleton.mp hk
        exact ⟨d, hkey⟩)
  refine ⟨{ q with depth }, ?_, ?_, rfl⟩
  · simp only [queueFinished, bind, Except.bind] at hfold ⊢
    rw [hfold]
  · refine ⟨by simpa using h.mem_depMap, by simpa using h.deps_eq, h.reverse, ?_, ?_, ?_,
      by simp, by simp, by simp⟩
    · simp [h.dirty_eq]
    · simp [h.pending_eq]
    · intro k hk
      obtain ⟨d, hd⟩ := hall k (by rwa [SetOrder.mem_enum, hkeys])
      exact ⟨d, hd, hok k d hd⟩

/-- A queued key is ready when everything it depends on is finished. -/
def Plan.Ready (plan : Plan K) (out done : Finset K) (k : K) : Prop :=
  k ∈ plan.keys ∧ k ∉ out ∧ plan.deps k ⊆ done

theorem Tracks.mem_readyKeys {plan : Plan K} {out done stale : Finset K}
    {q : DependencyQueue K V} (h : Tracks plan out done stale q) (ho : HashOrder K) (k : K) :
    k ∈ q.readyKeys ho ↔ plan.Ready out done k := by
  simp only [readyKeys, List.mem_filter, SetOrder.mem_enum, Finmap.mem_keys]
  cases hk : q.depMap.lookup k with
  | none =>
    have hout : k ∉ q.depMap := Finmap.lookup_eq_none.mp hk
    simp only [Bool.false_eq_true, and_false, false_iff]
    intro hready
    exact hout ((h.mem_depMap k).mpr ⟨hready.1, hready.2.1⟩)
  | some entry =>
    obtain ⟨deps, value⟩ := entry
    have hin := (h.mem_depMap k).mp (Finmap.mem_of_lookup_eq_some hk)
    have hdeps := h.deps_eq k deps value hk
    simp only [Finmap.mem_of_lookup_eq_some hk, true_and, decide_eq_true_eq, hdeps,
      Finset.sdiff_eq_empty_iff_subset, Plan.Ready, hin, not_false_eq_true]

/-- The selection loop returns one of the deepest keys. -/
theorem exists_maxByDepth (plan : Plan K) (depth : Memo K) (keys : List K)
    (hdepth : ∀ k ∈ keys, ∃ d, depth.lookup k = some (some d) ∧
      IsLongestChain plan.Dependent k d) :
    ∃ best, maxByDepth depth keys = .ok best ∧
      (best = none → keys = []) ∧
      ∀ k d, best = some (k, d) → k ∈ keys ∧ IsLongestChain plan.Dependent k d ∧
        ∀ k' ∈ keys, ∀ n, ChainFrom plan.Dependent k' n → n ≤ d := by
  obtain ⟨best, hrun, hnone, hsome⟩ := exists_foldlM_ok (f := deeper depth)
    (P := fun pre best => (best = none → pre = []) ∧
      ∀ k d, best = some (k, d) → k ∈ pre ∧ IsLongestChain plan.Dependent k d ∧
        ∀ k' ∈ pre, ∀ n, ChainFrom plan.Dependent k' n → n ≤ d)
    (l := keys) (s := none) (by simp)
    (by
      rintro pre key post best hl ⟨hnone, hsome⟩
      obtain ⟨d, hd, hlong⟩ := hdepth key (by rw [hl]; simp)
      cases best with
      | none =>
        refine ⟨some (key, d), by simp [deeper, hd], by simp, ?_⟩
        rintro k d' ⟨⟩
        rw [hnone rfl]
        exact ⟨by simp, hlong, by simpa using hlong.2⟩
      | some pair =>
        obtain ⟨b, e⟩ := pair
        obtain ⟨hb, hlongb, hmax⟩ := hsome b e rfl
        refine ⟨some (if e ≤ d then (key, d) else (b, e)), by simp [deeper, hd], by simp, ?_⟩
        intro k d' hk
        simp only [Option.some.injEq] at hk
        split at hk
        -- on a tie the later key wins
        · rename_i hed
          cases hk
          refine ⟨by simp, hlong, ?_⟩
          intro k' hk' n hn
          rcases List.mem_append.mp hk' with hk' | hk'
          · exact (hmax k' hk' n hn).trans hed
          · obtain rfl := List.mem_singleton.mp hk'
            exact hlong.2 n hn
        · rename_i hed
          cases hk
          refine ⟨by simp [hb], hlongb, ?_⟩
          intro k' hk' n hn
          rcases List.mem_append.mp hk' with hk' | hk'
          · exact hmax k' hk' n hn
          · obtain rfl := List.mem_singleton.mp hk'
            have := hlong.2 n hn
            omega)
  exact ⟨best, hrun, hnone, hsome⟩

/-- `dequeue` does not panic. It returns nothing only when no key is ready, and
otherwise a ready key whose longest chain of dependents no ready key exceeds. -/
theorem Tracks.dequeue {plan : Plan K} {out done stale : Finset K} {q : DependencyQueue K V}
    (h : Tracks plan out done stale q) (ho : HashOrder K) :
    (q.dequeue ho = .ok (none, q) ∧ ∀ k, ¬ plan.Ready out done k) ∨
    ∃ freshness k value q', q.dequeue ho = .ok (some (freshness, k, value), q') ∧
      plan.Ready out done k ∧ (freshness = .dirty ↔ k ∈ q.dirty) ∧
      q.valueOf k = some value ∧
      (∃ d, IsLongestChain plan.Dependent k d ∧
        ∀ k', plan.Ready out done k' → ∀ n, ChainFrom plan.Dependent k' n → n ≤ d) ∧
      Tracks plan (insert k out) done stale q' ∧
      ∀ k', k' ≠ k → q'.valueOf k' = q.valueOf k' := by
  obtain ⟨best, hrun, hnone, hsome⟩ := exists_maxByDepth plan q.depth (q.readyKeys ho)
    (fun k hk => h.depth_ok k ((h.mem_readyKeys ho k).mp hk).1)
  cases best with
  | none =>
    left
    -- the deepest of no keys
    refine ⟨by simp [DependencyQueue.dequeue, hrun, bind, Except.bind], ?_⟩
    intro k hk
    have := (h.mem_readyKeys ho k).mpr hk
    rw [hnone rfl] at this
    simp at this
  | some pair =>
    right
    obtain ⟨k, d⟩ := pair
    obtain ⟨hk, hlong, hmax⟩ := hsome k d rfl
    have hready := (h.mem_readyKeys ho k).mp hk
    obtain ⟨⟨deps, value⟩, hlookup⟩ :=
      Finmap.mem_iff.mp ((h.mem_depMap k).mpr ⟨hready.1, hready.2.1⟩)
    refine ⟨if k ∈ q.dirty then .dirty else .fresh, k, value,
      { q with depMap := q.depMap.erase k, pending := insert k q.pending }, ?_, hready, ?_, ?_,
      ⟨d, hlong, fun k' hk' => hmax k' ((h.mem_readyKeys ho k').mpr hk')⟩, ?_, ?_⟩
    · simp [DependencyQueue.dequeue, hrun, hlookup, bind, Except.bind]
    · split <;> simp_all
    · simp [valueOf, hlookup]
    · refine ⟨?_, ?_, h.reverse, h.mem_dirty, ?_, h.depth_ok, ?_, ?_, ?_⟩
      · intro k'
        -- the key moves from the map to the pending ones; who depends on whom is as before
        rw [Finmap.mem_erase, h.mem_depMap, Finset.mem_insert]
        tauto
      · intro k' deps' value' hk'
        have hne : k' ≠ k := by
          rintro rfl
          rw [Finmap.lookup_erase] at hk'
          cases hk'
        rw [Finmap.lookup_erase_ne hne] at hk'
        exact h.deps_eq k' deps' value' hk'
      · have hkd : k ∉ done := fun hkd => hready.2.1 (h.done_subset hkd)
        simp only [h.pending_eq]
        ext x
        simp only [Finset.mem_insert, Finset.mem_sdiff]
        constructor
        · rintro (rfl | ⟨hx, hxd⟩)
          · exact ⟨Or.inl rfl, hkd⟩
          · exact ⟨Or.inr hx, hxd⟩
        · rintro ⟨rfl | hx, hxd⟩
          · exact Or.inl rfl
          · exact Or.inr ⟨hx, hxd⟩
      · exact Finset.insert_subset hready.1 h.out_subset
      · exact h.done_subset.trans (Finset.subset_insert _ _)
      · intro k' hk'
        rcases Finset.mem_insert.mp hk' with rfl | hk'
        · exact hready.2.2
        · exact h.deps_done k' hk'
    · intro k' hk'
      simp [valueOf, Finmap.lookup_erase_ne hk']

/-- A key that waits for an unfinished one has not been handed out. -/
theorem Tracks.notMem_out_of_dependent {plan : Plan K} {out done stale : Finset K}
    {q : DependencyQueue K V} (h : Tracks plan out done stale q) {a b : K}
    (hab : plan.Dependent a b) (ha : a ∉ done) : b ∉ out :=
  fun hb => ha (h.deps_done b hb hab.2)

/-- The queue when `finish` has met the dependents in `pre`: these no longer wait for `key`. -/
structure Released (plan : Plan K) (done : Finset K) (key : K) (freshness : Freshness)
    (q : DependencyQueue K V) (pre : List K) (q' : DependencyQueue K V) : Prop where
  mem_depMap : ∀ k, k ∈ q'.depMap ↔ k ∈ q.depMap
  deps_eq : ∀ k deps value, q'.depMap.lookup k = some (deps, value) →
    deps = if k ∈ pre then plan.deps k \ insert key done else plan.deps k \ done
  mem_dirty : ∀ k, k ∈ q'.dirty ↔ k ∈ q.dirty ∨ freshness = .dirty ∧ k ∈ pre
  reverse : q'.reverseDepMap = q.reverseDepMap
  pending : q'.pending = q.pending.erase key
  depth : q'.depth = q.depth
  valueOf : q'.valueOf = q.valueOf

/-- Releasing one more dependent does not panic. -/
theorem Released.release {plan : Plan K} {done : Finset K} {key dep : K} {freshness : Freshness}
    {q q' : DependencyQueue K V} {pre : List K} (h : Released plan done key freshness q pre q')
    (hdependent : plan.Dependent key dep) (hdone : key ∉ done) (hin : dep ∈ q.depMap)
    (hnotin : dep ∉ pre) :
    ∃ q'', DependencyQueue.release key freshness q' dep = .ok q'' ∧
      Released plan done key freshness q (pre ++ [dep]) q'' := by
  obtain ⟨⟨deps, value⟩, hlookup⟩ := Finmap.mem_iff.mp ((h.mem_depMap dep).mpr hin)
  have hdeps := h.deps_eq dep deps value hlookup
  rw [if_neg hnotin] at hdeps
  have hkey : key ∈ deps := by
    rw [hdeps, Finset.mem_sdiff]
    exact ⟨hdependent.2, hdone⟩
  refine ⟨{ q' with
      dirty := if freshness = .dirty then insert dep q'.dirty else q'.dirty
      depMap := q'.depMap.insert dep (deps.erase key, value) },
    by simp [DependencyQueue.release, hlookup, hkey], ?_, ?_, ?_, h.reverse, h.pending, h.depth,
    ?_⟩
  · intro k
    rw [Finmap.mem_insert, h.mem_depMap]
    constructor
    · rintro (rfl | hk)
      · exact hin
      · exact hk
    · exact Or.inr
  · intro k deps' value' hk
    by_cases hkd : k = dep
    · subst hkd
      rw [Finmap.lookup_insert] at hk
      cases hk
      simp [hdeps, Finset.sdiff_insert]
    · rw [Finmap.lookup_insert_of_ne _ hkd] at hk
      simpa [hkd] using h.deps_eq k deps' value' hk
  · intro k
    cases freshness with
    | fresh => simpa using h.mem_dirty k
    | dirty =>
      simp only [if_true, Finset.mem_insert, h.mem_dirty, List.mem_append, List.mem_singleton,
        true_and]
      tauto
  · rw [← h.valueOf]
    funext k
    by_cases hkd : k = dep
    · subst hkd
      simp [DependencyQueue.valueOf, hlookup]
    · simp [DependencyQueue.valueOf, Finmap.lookup_insert_of_ne _ hkd]

/-- `finish` does not panic on a key that was handed out and is unfinished. -/
theorem Tracks.finish {plan : Plan K} {out done stale : Finset K} {q : DependencyQueue K V}
    (h : Tracks plan out done stale q) (ho : HashOrder K) {key : K} (hout : key ∈ out)
    (hdone : key ∉ done) (freshness : Freshness) :
    ∃ q', q.finish ho key freshness = .ok q' ∧
      Tracks plan out (insert key done)
        (if freshness = .dirty then insert key stale else stale) q' ∧
      q'.valueOf = q.valueOf := by
  have hpending : key ∈ q.pending := by
    rw [h.pending_eq, Finset.mem_sdiff]
    exact ⟨hout, hdone⟩
  obtain ⟨q', hfold, hreleased⟩ := exists_foldlM_ok
    (f := release key freshness) (P := Released plan done key freshness q)
    (l := (ho.of key).enum (dependentsOf q.reverseDepMap key))
    (s := { q with pending := q.pending.erase key })
    ⟨fun _ => Iff.rfl, by simpa using h.deps_eq, by simp, rfl, rfl, rfl, rfl⟩
    (by
      intro pre dep post q' hl hreleased
      have hdependent : plan.Dependent key dep := by
        rw [← h.reverse, ← SetOrder.mem_enum, hl]
        simp
      have hin : dep ∈ q.depMap := by
        rw [h.mem_depMap]
        exact ⟨hdependent.1, h.notMem_out_of_dependent hdependent hdone⟩
      have hnotin : dep ∉ pre := by
        have hnodup := (ho.of key).nodup_enum (dependentsOf q.reverseDepMap key)
        rw [hl, List.nodup_append] at hnodup
        exact fun hpre => hnodup.2.2 dep hpre dep (by simp) rfl
      exact hreleased.release hdependent hdone hin hnotin)
  refine ⟨q', by simp [DependencyQueue.finish, hpending, hfold], ⟨?_, ?_, ?_, ?_, ?_, ?_,
    h.out_subset, Finset.insert_subset hout h.done_subset, ?_⟩, hreleased.valueOf⟩
  · intro k
    rw [hreleased.mem_depMap, h.mem_depMap]
  · intro k deps value hk
    rw [hreleased.deps_eq k deps value hk]
    split
    · rfl
    · rename_i hnot
      have hkeys := ((h.mem_depMap k).mp ((hreleased.mem_depMap k).mp
        (Finmap.mem_of_lookup_eq_some hk))).1
      have hkey : key ∉ plan.deps k := fun hkey =>
        hnot ((SetOrder.mem_enum _).mpr ((h.reverse key k).mpr ⟨hkeys, hkey⟩))
      rw [Finset.sdiff_insert, Finset.erase_eq_of_notMem]
      exact fun hk' => hkey (Finset.mem_sdiff.mp hk').1
  · rw [hreleased.reverse]
    exact h.reverse
  · intro k
    rw [hreleased.mem_dirty, h.mem_dirty, SetOrder.mem_enum, h.reverse]
    cases freshness with
    | fresh => simp
    | dirty =>
      simp only [if_true, Finset.mem_insert, true_and, Plan.Dependent]
      constructor
      · rintro ((hd | ⟨hk, d, hd, hs⟩) | ⟨hk, hd⟩)
        · exact Or.inl hd
        · exact Or.inr ⟨hk, d, hd, Or.inr hs⟩
        · exact Or.inr ⟨hk, key, hd, Or.inl rfl⟩
      · rintro (hd | ⟨hk, d, hd, rfl | hs⟩)
        · exact Or.inl (Or.inl hd)
        · exact Or.inr ⟨hk, hd⟩
        · exact Or.inl (Or.inr ⟨hk, d, hd, hs⟩)
  · rw [hreleased.pending, h.pending_eq, Finset.sdiff_insert]
  · rw [hreleased.depth]
    exact h.depth_ok
  · intro k hk
    exact (h.deps_done k hk).trans (Finset.subset_insert _ _)

/-- While something is left that was not handed out and everything handed out is
finished, some key is ready. -/
theorem Plan.exists_ready {plan : Plan K} {out : Finset K} (hacyclic : Acyclic plan.Dependent)
    (hclosed : ∀ k ∈ plan.keys, plan.deps k ⊆ plan.keys) (hleft : ∃ k ∈ plan.keys, k ∉ out) :
    ∃ k, plan.Ready out out k := by
  have hne : (plan.keys \ out).Nonempty := by
    obtain ⟨k, hk, hkout⟩ := hleft
    exact ⟨k, Finset.mem_sdiff.mpr ⟨hk, hkout⟩⟩
  obtain ⟨k, hk, hsink⟩ := hacyclic.swap.exists_sink hne
  rw [Finset.mem_sdiff] at hk
  refine ⟨k, hk.1, hk.2, fun d hd => ?_⟩
  by_contra hdout
  exact hsink d (Finset.mem_sdiff.mpr ⟨hclosed k hk.1 hd, hdout⟩) ⟨hk.1, hd⟩

end Cargo.Util.DependencyQueue
