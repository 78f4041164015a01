import Mathlib.Data.Multiset.Filter
import Mathlib.Data.Multiset.AddSub
import Cargo.Compiler.JobQueue
import Cargo.Util.DependencyQueue.Spec

/-!
# What a build is asked to do

The jobs of a build are a multiset of tasks, `tasks`, in which every job already carries
the freshness it has to be run with: dirty if it was enqueued so or if some job of a
transitive dependency was. Enqueueing them leaves the dependency queue as `planOf`
describes it, with the jobs of each key as its value.

## Main definitions

* `Tainted`, `runFreshness` — how dirtiness reaches a job
* `tasks` — the jobs of a build with the freshness each has to be run with
* `Enqueued` — the job queue before it is drained

## Main results

* `tainted_iff` — a key is tainted through its direct dependencies
* `enqueued_enqueueAll` — what enqueueing a list of jobs leaves
-/

set_option autoImplicit false

namespace Cargo.Compiler

open Cargo.Math Cargo.Util Cargo.Util.DependencyQueue Relation

variable {K J P E : Type}

/-! ### What the build is asked to do -/

/-- `a` is a dependency of `b`. -/
def Units.DependsOn (units : Units K P) (a b : K) : Prop := a ∈ units.dependencies b

/-- Some job of a transitive dependency of `k` was enqueued dirty. -/
def Tainted (units : Units K P) (jobs : List (K × J × Freshness)) (k : K) : Prop :=
  ∃ d, TransGen units.DependsOn d k ∧ ∃ job, (d, job, Freshness.dirty) ∈ jobs

/-- Some job of `k` or of a transitive dependency of `k` was enqueued dirty. -/
def Soiled (units : Units K P) (jobs : List (K × J × Freshness)) (k : K) : Prop :=
  (∃ job, (k, job, Freshness.dirty) ∈ jobs) ∨ Tainted units jobs k

open Classical in
/-- The freshness a job of `k` enqueued as `freshness` has to be run with. -/
noncomputable def runFreshness (units : Units K P) (jobs : List (K × J × Freshness)) (k : K)
    (freshness : Freshness) : Freshness :=
  if freshness = .dirty ∨ Tainted units jobs k then .dirty else .fresh

/-- The task that an enqueued job has to become. -/
noncomputable def taskOf (units : Units K P) (jobs : List (K × J × Freshness))
    (entry : K × J × Freshness) : Task K J :=
  ⟨entry.1, entry.2.1, runFreshness units jobs entry.1 entry.2.2⟩

/-- All the tasks of the build. -/
noncomputable def tasks (units : Units K P) (jobs : List (K × J × Freshness)) :
    Multiset (Task K J) :=
  jobs.map (taskOf units jobs)

theorem tainted_iff {units : Units K P} {jobs : List (K × J × Freshness)} {k : K} :
    Tainted units jobs k ↔ ∃ d ∈ units.dependencies k, Soiled units jobs d := by
  constructor
  · rintro ⟨d, hd, hdirty⟩
    rcases TransGen.tail'_iff.mp hd with ⟨c, hdc, hck⟩
    rcases reflTransGen_iff_eq_or_transGen.mp hdc with rfl | hdc
    · exact ⟨c, hck, Or.inl hdirty⟩
    · exact ⟨c, hck, Or.inr ⟨d, hdc, hdirty⟩⟩
  · rintro ⟨d, hd, hdirty | ⟨c, hcd, hdirty⟩⟩
    · exact ⟨d, .single hd, hdirty⟩
    · exact ⟨c, hcd.tail hd, hdirty⟩

theorem runFreshness_eq_dirty {units : Units K P} {jobs : List (K × J × Freshness)} {k : K}
    {freshness : Freshness} :
    runFreshness units jobs k freshness = .dirty ↔
      freshness = .dirty ∨ Tainted units jobs k := by
  unfold runFreshness
  split <;> simp_all

/-- Freshnesses are equal when they are dirty together. -/
theorem freshness_ext {f g : Freshness} (h : f = .dirty ↔ g = .dirty) : f = g := by
  cases f <;> cases g <;> simp_all

variable [DecidableEq K]

/-- The plan the dependency queue is given. -/
def planOf (units : Units K P) (jobs : List (K × J × Freshness)) : Plan K where
  keys := (jobs.map Prod.fst).toFinset
  deps k := (units.dependencies k).toFinset
  dirty := ∅

/-- The jobs enqueued under `k`, in order. -/
def jobsOf (jobs : List (K × J × Freshness)) (k : K) : List (J × Freshness) :=
  (jobs.filter (·.1 = k)).map Prod.snd

theorem mem_planOf_keys {units : Units K P} {jobs : List (K × J × Freshness)} {k : K} :
    k ∈ (planOf units jobs).keys ↔ ∃ entry ∈ jobs, entry.1 = k := by
  simp [planOf]

theorem tasks_filter_key (units : Units K P) (jobs : List (K × J × Freshness)) (k : K) :
    (tasks units jobs).filter (·.key = k) =
      ((jobsOf jobs k).map fun entry =>
        (⟨k, entry.1, runFreshness units jobs k entry.2⟩ : Task K J) : List (Task K J)) := by
  have hcomp : (fun entry : K × J × Freshness => decide ((taskOf units jobs entry).key = k)) =
      fun entry => decide (entry.1 = k) := rfl
  simp only [tasks, Multiset.filter_coe, jobsOf, List.filter_map, Function.comp_def, hcomp,
    List.map_map]
  congr 1
  apply List.map_congr_left
  intro entry hentry
  have hkey : entry.1 = k := by simpa using (List.mem_filter.mp hentry).2
  simp [taskOf, hkey]

theorem tasks_countP_key (units : Units K P) (jobs : List (K × J × Freshness)) (k : K) :
    (tasks units jobs).countP (·.key = k) = (jobsOf jobs k).length := by
  rw [Multiset.countP_eq_card_filter, tasks_filter_key]
  simp

theorem jobsOf_pos {units : Units K P} {jobs : List (K × J × Freshness)} {k : K}
    (h : k ∈ (planOf units jobs).keys) : 0 < (jobsOf jobs k).length := by
  obtain ⟨entry, hentry, rfl⟩ := mem_planOf_keys.mp h
  simp only [jobsOf, List.length_map]
  exact List.length_pos_of_mem (List.mem_filter.mpr ⟨hentry, by simp⟩)

/-! ### Enqueueing -/

/-- Two plans that agree on the queued keys describe the same queue. -/
theorem queued_congr {V : Type} {plan plan' : Plan K} {q : DependencyQueue K V}
    (h : Queued plan q) (hkeys : plan.keys = plan'.keys)
    (hdeps : ∀ k ∈ plan.keys, plan.deps k = plan'.deps k) (hdirty : plan.dirty = plan'.dirty) :
    Queued plan' q := by
  refine ⟨?_, ?_, ?_, ?_, ?_, h.pending_eq, h.depth_eq⟩
  · rw [← hkeys]
    exact h.mem_depMap
  · intro k deps value hk
    rw [h.deps_eq k deps value hk]
    exact hdeps k ((h.mem_depMap k).mp (Finmap.mem_of_lookup_eq_some hk))
  · intro a b
    rw [h.reverse, Plan.Dependent, Plan.Dependent, ← hkeys]
    constructor
    · rintro ⟨hb, ha⟩
      exact ⟨hb, hdeps b hb ▸ ha⟩
    · rintro ⟨hb, ha⟩
      exact ⟨hb, hdeps b hb ▸ ha⟩
  · rw [h.dirty_eq, hdirty]
  · rw [← hdirty, ← hkeys]
    exact h.dirty_subset

variable [DecidableEq P]

/-- The value of the keys after one job more was enqueued. -/
theorem valueOf_enqueue {units : Units K P} {self : JobQueue K J P} {key : K} {job : J}
    {freshness : Freshness} (k : K) :
    (self.enqueue units key job freshness).queue.valueOf k =
      if k = key then some ((self.queue.valueOf k).getD [] ++ [(job, freshness)])
      else self.queue.valueOf k := by
  simp only [JobQueue.enqueue, DependencyQueue.queue, DependencyQueue.modifyValue, valueOf]
  cases hkey : self.queue.depMap.lookup key with
  | some entry =>
    by_cases hk : k = key
    · subst hk
      simp [hkey]
    · simp [hkey, hk, Finmap.lookup_insert_of_ne]
  | none =>
    by_cases hk : k = key
    · subst hk
      simp [hkey]
    · simp [hk, Finmap.lookup_insert_of_ne]

/-- The queue before it is drained. -/
structure Enqueued (units : Units K P) (jobs : List (K × J × Freshness))
    (jq : JobQueue K J P) : Prop where
  queued : Queued (planOf units jobs) jq.queue
  value : ∀ k ∈ (planOf units jobs).keys, jq.queue.valueOf k = some (jobsOf jobs k)
  active : jq.active = []
  counts : ∀ p, (jq.counts.lookup p).getD 0 = jobs.countP (units.pkg ·.1 = p)

theorem enqueued_nil (units : Units K P) :
    Enqueued units ([] : List (K × J × Freshness)) JobQueue.new where
  queued := queued_congr queued_new rfl (by simp [Plan.empty]) rfl
  value := by simp [planOf]
  active := rfl
  counts := by simp [JobQueue.new]

theorem Enqueued.enqueue {units : Units K P} {jobs : List (K × J × Freshness)}
    {jq : JobQueue K J P} (h : Enqueued units jobs jq) (key : K) (job : J)
    (freshness : Freshness) :
    Enqueued units (jobs ++ [(key, job, freshness)]) (jq.enqueue units key job freshness) := by
  refine ⟨?_, ?_, h.active, ?_⟩
  · have hq := (h.queued.queue .fresh key [] (units.dependencies key)).modifyValue key
      (· ++ [(job, freshness)])
    -- the plan of the longer list is the plan with one key more
    refine queued_congr hq ?_ ?_ ?_
    · ext k
      by_cases hkey : key ∈ (planOf units jobs).keys
      · simp only [Plan.add, if_pos hkey]
        simp only [mem_planOf_keys, List.mem_append, List.mem_singleton] at hkey ⊢
        grind
      · simp only [Plan.add, if_neg hkey, Finset.mem_insert]
        simp only [mem_planOf_keys, List.mem_append, List.mem_singleton]
        grind
    · intro k hk
      by_cases hkey : key ∈ (planOf units jobs).keys
      · simp only [Plan.add, if_pos hkey]
        rfl
      · simp only [Plan.add, if_neg hkey]
        by_cases hkk : k = key
        · subst hkk
          simp [planOf]
        · simp [planOf, Function.update_of_ne hkk]
    · unfold Plan.add
      split <;> simp [planOf]
  · intro k hk
    rw [valueOf_enqueue]
    by_cases hkk : k = key
    · subst hkk
      by_cases hmem : k ∈ (planOf units jobs).keys
      · simp [h.value k hmem, jobsOf, List.filter_append]
      -- the first job of its key
      · have hnone : jq.queue.valueOf k = none := by
          have : k ∉ jq.queue.depMap := fun hk => hmem ((h.queued.mem_depMap k).mp hk)
          simp [valueOf, Finmap.lookup_eq_none.mpr this]
        have hnil : jobs.filter (·.1 = k) = [] := by
          rw [List.filter_eq_nil_iff]
          intro entry hentry hkey
          exact hmem (mem_planOf_keys.mpr ⟨entry, hentry, by simpa using hkey⟩)
        simp [hnone, jobsOf, List.filter_append, hnil]
    · have hmem : k ∈ (planOf units jobs).keys := by
        obtain ⟨entry, hentry, rfl⟩ := mem_planOf_keys.mp hk
        rcases List.mem_append.mp hentry with hentry | hentry
        · exact mem_planOf_keys.mpr ⟨entry, hentry, rfl⟩
        · obtain rfl := List.mem_singleton.mp hentry
          exact absurd rfl hkk
      simp [hkk, h.value k hmem, jobsOf, List.filter_append, Ne.symm hkk]
  · intro p
    by_cases hp : p = units.pkg key
    · subst hp
      simp [JobQueue.enqueue, h.counts]
    · simp [JobQueue.enqueue, Finmap.lookup_insert_of_ne _ hp, h.counts, Ne.symm hp]

theorem enqueued_enqueueAll (units : Units K P) (jobs : List (K × J × Freshness)) :
    Enqueued units jobs (JobQueue.enqueueAll units jobs) := by
  induction jobs using List.reverseRecOn with
  | nil => exact enqueued_nil units
  | append_singleton jobs entry ih =>
    simp only [JobQueue.enqueueAll, List.foldl_append, List.foldl_cons, List.foldl_nil]
    exact ih.enqueue entry.1 entry.2.1 entry.2.2

end Cargo.Compiler
