import Mathlib.Tactic.IntervalCases
import Cargo.Util.DependencyQueue.Spec

/-!
# Runs of the dependency queue

A run queues a list of items, calls `queueFinished`, and then interleaves `dequeue`
and `finish` in any order, finishing only what was handed out and each key once.
The log of a run lists the keys handed out and finished, in order, with their
freshness. The guarantees of the queue are statements about the log.

## Main definitions

* `Item`, `queueAll` — the calls of `queue` that precede a run
* `Event`, `Run` — the log and the runs that produce it
* `RunGuarantees` — what holds of every run

## Main results

* `Run.tracks` — the log determines the state of the queue
* `run_guarantees` — every run on an acyclic plan meets the guarantees
-/

set_option autoImplicit false

namespace Cargo.Util.DependencyQueue

open Cargo.Math Relation

variable {K V : Type} [DecidableEq K]

/-- The arguments of one call of `queue`. -/
structure Item (K V : Type) where
  freshness : Freshness
  key : K
  value : V
  dependencies : List K

/-- Queue every item, in order. -/
def queueAll (items : List (Item K V)) : DependencyQueue K V :=
  items.foldl (fun q item => q.queue item.freshness item.key item.value item.dependencies) new

/-- The call that decides what is recorded for `k`: the first one. -/
def firstItem (items : List (Item K V)) (k : K) : Option (Item K V) :=
  items.find? fun item => decide (item.key = k)

/-- `k` was queued. -/
def IsQueued (items : List (Item K V)) (k : K) : Prop := ∃ item, firstItem items k = some item

/-- `k` was first queued as dirty. -/
def QueuedDirty (items : List (Item K V)) (k : K) : Prop :=
  ∃ item, firstItem items k = some item ∧ item.freshness = .dirty

/-- `k` was first queued with `d` among its dependencies. -/
def DependsOn (items : List (Item K V)) (k d : K) : Prop :=
  ∃ item, firstItem items k = some item ∧ d ∈ item.dependencies

/-! ### The plan of a list of items -/

/-- The plan that queueing the items makes. -/
def planOf (items : List (Item K V)) : Plan K :=
  items.foldl (fun plan item => plan.add item.freshness item.key item.dependencies) .empty

theorem queued_queueAll (items : List (Item K V)) : Queued (planOf items) (queueAll items) := by
  suffices h : ∀ (plan : Plan K) (q : DependencyQueue K V), Queued plan q →
      Queued (items.foldl (fun plan item => plan.add item.freshness item.key item.dependencies)
        plan)
      (items.foldl (fun q item => q.queue item.freshness item.key item.value item.dependencies)
        q) from h _ _ queued_new
  induction items with
  | nil => exact fun _ _ h => h
  | cons item items ih => exact fun plan q h => ih _ _ (h.queue _ _ _ _)

/-- Later items only matter for keys that the plan does not have yet. -/
private theorem foldl_add_spec (items : List (Item K V)) (plan : Plan K)
    (hdirty : plan.dirty ⊆ plan.keys) (k : K) :
    let plan' := items.foldl
      (fun plan item => plan.add item.freshness item.key item.dependencies) plan
    (k ∈ plan'.keys ↔ k ∈ plan.keys ∨ IsQueued items k) ∧
    plan'.deps k = (if k ∈ plan.keys then plan.deps k else
      ((firstItem items k).map fun item => item.dependencies.toFinset).getD (plan.deps k)) ∧
    (k ∈ plan'.dirty ↔ k ∈ plan.dirty ∨ k ∉ plan.keys ∧ QueuedDirty items k) := by
  induction items generalizing plan with
  | nil => simp [IsQueued, QueuedDirty, firstItem]
  | cons item items ih =>
    have hdirty' : (plan.add item.freshness item.key item.dependencies).dirty ⊆
        (plan.add item.freshness item.key item.dependencies).keys := by
      unfold Plan.add
      split_ifs with hmem hfresh
      · exact hdirty
      · exact Finset.insert_subset_insert _ hdirty
      · exact hdirty.trans (Finset.subset_insert _ _)
    obtain ⟨hkeys, hdeps, hdirt⟩ := ih _ hdirty'
    simp only [List.foldl_cons]
    rw [hkeys, hdeps, hdirt]
    by_cases hmem : item.key ∈ plan.keys
    · -- The item repeats a key of the plan and is ignored.
      simp only [Plan.add, if_pos hmem]
      by_cases hk : k ∈ plan.keys
      · simp [hk]
      · have hne : item.key ≠ k := fun h => hk (h ▸ hmem)
        simp [hk, IsQueued, QueuedDirty, firstItem, hne]
    · simp only [Plan.add, if_neg hmem]
      by_cases hk : item.key = k
      · subst hk
        have hnot : item.key ∉ plan.dirty := fun h => hmem (hdirty h)
        cases hf : item.freshness <;> simp [hmem, hnot, IsQueued, QueuedDirty, firstItem, hf]
      · have hk' : k ≠ item.key := fun h => hk h.symm
        cases hf : item.freshness <;>
          simp [hk, hk', IsQueued, QueuedDirty, firstItem]

theorem mem_planOf_keys (items : List (Item K V)) (k : K) :
    k ∈ (planOf items).keys ↔ IsQueued items k := by
  have := (foldl_add_spec items .empty (by simp [Plan.empty]) k).1
  simpa [planOf, Plan.empty] using this

theorem mem_planOf_dirty (items : List (Item K V)) (k : K) :
    k ∈ (planOf items).dirty ↔ QueuedDirty items k := by
  have := (foldl_add_spec items .empty (by simp [Plan.empty]) k).2.2
  simpa [planOf, Plan.empty] using this

theorem planOf_dependent (items : List (Item K V)) (d k : K) :
    (planOf items).Dependent d k ↔ DependsOn items k d := by
  have hdeps := (foldl_add_spec items .empty (by simp [Plan.empty]) k).2.1
  rw [Plan.Dependent, mem_planOf_keys]
  unfold planOf
  rw [hdeps]
  cases hfirst : firstItem items k with
  | none => simp [IsQueued, DependsOn, hfirst]
  | some item => simp [IsQueued, DependsOn, hfirst, Plan.empty]

/-! ### Runs and their logs -/

/-- What a run records. -/
inductive Event (K : Type)
  | dequeued (freshness : Freshness) (key : K)
  | finished (key : K) (freshness : Freshness)
  deriving DecidableEq

/-- `k` was handed out. -/
def WasDequeued (log : List (Event K)) (k : K) : Prop := ∃ f, .dequeued f k ∈ log

/-- `k` was finished. -/
def WasFinished (log : List (Event K)) (k : K) : Prop := ∃ f, .finished k f ∈ log

/-- `k` was handed out and is not finished. -/
def InFlight (log : List (Event K)) (k : K) : Prop := WasDequeued log k ∧ ¬ WasFinished log k

/-- `k` could be handed out after `log`: it is queued, not handed out, and all its
dependencies are finished. -/
def ReadyAfter (items : List (Item K V)) (log : List (Event K)) (k : K) : Prop :=
  IsQueued items k ∧ ¬ WasDequeued log k ∧ ∀ d, DependsOn items k d → WasFinished log d

/-- The runs on `items`: any interleaving of `dequeue` and `finish`, each with its own
iteration order, in which only keys in flight are finished. -/
inductive Run (items : List (Item K V)) : DependencyQueue K V → List (Event K) → Prop
  | start {ho : HashOrder K} {q : DependencyQueue K V} :
      (queueAll items).queueFinished ho = .ok q → Run items q []
  | dequeue {ho : HashOrder K} {q q' : DependencyQueue K V} {log : List (Event K)}
      {freshness : Freshness} {key : K} {value : V} :
      Run items q log → q.dequeue ho = .ok (some (freshness, key, value), q') →
      Run items q' (log ++ [.dequeued freshness key])
  | idle {ho : HashOrder K} {q q' : DependencyQueue K V} {log : List (Event K)} :
      Run items q log → q.dequeue ho = .ok (none, q') → Run items q' log
  | finish {ho : HashOrder K} {q q' : DependencyQueue K V} {log : List (Event K)} {key : K}
      {freshness : Freshness} :
      Run items q log → InFlight log key → q.finish ho key freshness = .ok q' →
      Run items q' (log ++ [.finished key freshness])

/-- The keys handed out in `log`. -/
def outOf (log : List (Event K)) : Finset K :=
  (log.filterMap fun | .dequeued _ k => some k | .finished _ _ => none).toFinset

/-- The keys finished in `log`. -/
def doneOf (log : List (Event K)) : Finset K :=
  (log.filterMap fun | .dequeued _ _ => none | .finished k _ => some k).toFinset

/-- The keys finished dirty in `log`. -/
def staleOf (log : List (Event K)) : Finset K :=
  (log.filterMap fun | .finished k .dirty => some k | _ => none).toFinset

theorem mem_outOf {log : List (Event K)} {k : K} : k ∈ outOf log ↔ WasDequeued log k := by
  simp only [outOf, List.mem_toFinset, List.mem_filterMap, WasDequeued]
  constructor
  · rintro ⟨⟨f, k'⟩ | ⟨k', f⟩, hmem, heq⟩
    · obtain rfl := Option.some.inj heq
      exact ⟨f, hmem⟩
    · cases heq
  · rintro ⟨f, hmem⟩
    exact ⟨_, hmem, rfl⟩

theorem mem_doneOf {log : List (Event K)} {k : K} : k ∈ doneOf log ↔ WasFinished log k := by
  simp only [doneOf, List.mem_toFinset, List.mem_filterMap, WasFinished]
  constructor
  · rintro ⟨⟨f, k'⟩ | ⟨k', f⟩, hmem, heq⟩
    · cases heq
    · obtain rfl := Option.some.inj heq
      exact ⟨f, hmem⟩
  · rintro ⟨f, hmem⟩
    exact ⟨_, hmem, rfl⟩

theorem mem_staleOf {log : List (Event K)} {k : K} :
    k ∈ staleOf log ↔ .finished k .dirty ∈ log := by
  simp only [staleOf, List.mem_toFinset, List.mem_filterMap]
  constructor
  · rintro ⟨⟨f, k'⟩ | ⟨k', _ | _⟩, hmem, heq⟩
    · cases heq
    · cases heq
    · obtain rfl := Option.some.inj heq
      exact hmem
  · exact fun hmem => ⟨_, hmem, rfl⟩

@[simp] theorem outOf_append_dequeued (log : List (Event K)) (f : Freshness) (k : K) :
    outOf (log ++ [.dequeued f k]) = insert k (outOf log) := by
  simp [outOf, List.filterMap_append]

@[simp] theorem outOf_append_finished (log : List (Event K)) (f : Freshness) (k : K) :
    outOf (log ++ [.finished k f]) = outOf log := by
  simp [outOf, List.filterMap_append]

@[simp] theorem doneOf_append_dequeued (log : List (Event K)) (f : Freshness) (k : K) :
    doneOf (log ++ [.dequeued f k]) = doneOf log := by
  simp [doneOf, List.filterMap_append]

@[simp] theorem doneOf_append_finished (log : List (Event K)) (f : Freshness) (k : K) :
    doneOf (log ++ [.finished k f]) = insert k (doneOf log) := by
  simp [doneOf, List.filterMap_append]

@[simp] theorem staleOf_append_dequeued (log : List (Event K)) (f : Freshness) (k : K) :
    staleOf (log ++ [.dequeued f k]) = staleOf log := by
  simp [staleOf, List.filterMap_append]

@[simp] theorem staleOf_append_finished (log : List (Event K)) (f : Freshness) (k : K) :
    staleOf (log ++ [.finished k f]) =
      if f = .dirty then insert k (staleOf log) else staleOf log := by
  cases f <;> simp [staleOf, List.filterMap_append]

theorem inFlight_iff {log : List (Event K)} {k : K} :
    InFlight log k ↔ k ∈ outOf log ∧ k ∉ doneOf log := by
  rw [mem_outOf, mem_doneOf, InFlight]

theorem readyAfter_iff {items : List (Item K V)} {log : List (Event K)} {k : K} :
    ReadyAfter items log k ↔ (planOf items).Ready (outOf log) (doneOf log) k := by
  rw [ReadyAfter, Plan.Ready, mem_planOf_keys, mem_outOf]
  refine and_congr_right fun hk => and_congr_right fun _ => ?_
  simp only [Finset.subset_iff, mem_doneOf, ← planOf_dependent, Plan.Dependent,
    mem_planOf_keys, hk, true_and]

/-- The log determines the state of the queue, as `Tracks` describes it. -/
theorem Run.tracks {items : List (Item K V)} (hacyclic : Acyclic (DependsOn items))
    {q : DependencyQueue K V} {log : List (Event K)} (h : Run items q log) :
    Tracks (planOf items) (outOf log) (doneOf log) (staleOf log) q := by
  have hplan : Acyclic (planOf items).Dependent :=
    hacyclic.swap.mono fun a b hab => (planOf_dependent items a b).mp hab
  induction h with
  | @start ho q hq =>
    obtain ⟨q', hq', htracks, -⟩ := (queued_queueAll items).exists_queueFinished hplan ho
    obtain rfl := Except.ok.inj (hq.symm.trans hq')
    exact htracks
  | @dequeue ho q q' log f key value _ hq ih =>
    rcases ih.dequeue ho with ⟨hnone, -⟩ | ⟨f', k', v', q'', hsome, -, -, -, -, htracks, -⟩
    · rw [hnone] at hq
      simp at hq
    · rw [hsome] at hq
      obtain ⟨⟨rfl, rfl, rfl⟩, rfl⟩ : (f' = f ∧ k' = key ∧ v' = value) ∧ q'' = q' := by
        simpa using hq
      simpa using htracks
  | @idle ho q q' log _ hq ih =>
    rcases ih.dequeue ho with ⟨hnone, -⟩ | ⟨f', k', v', q'', hsome, -⟩
    · rw [hnone] at hq
      obtain rfl : q = q' := by simpa using hq
      exact ih
    · rw [hsome] at hq
      simp at hq
  | @finish ho q q' log key f _ hflight hq ih =>
    obtain ⟨hout, hdone⟩ := inFlight_iff.mp hflight
    obtain ⟨q'', hq'', htracks, -⟩ := ih.finish ho hout hdone f
    obtain rfl := Except.ok.inj (hq.symm.trans hq'')
    simpa using htracks

/-! ### The guarantees -/

/-- How often `k` was handed out. -/
def dequeueCount (log : List (Event K)) (k : K) : ℕ :=
  log.countP fun | .dequeued _ k' => decide (k' = k) | .finished _ _ => false

/-- What holds of a run on `items` that has led to the queue `q` with log `log`. -/
structure RunGuarantees (items : List (Item K V)) (q : DependencyQueue K V)
    (log : List (Event K)) : Prop where
  /-- A key is handed out at most once, and only after its dependencies finished. -/
  in_order : ∀ pre f k post, log = pre ++ .dequeued f k :: post →
    IsQueued items k ∧ ¬ WasDequeued pre k ∧ ∀ d, DependsOn items k d → WasFinished pre d
  /-- `dequeue` does not panic. -/
  dequeue_ok : ∀ ho, ∃ r, q.dequeue ho = .ok r
  /-- `finish` does not panic on a key in flight. -/
  finish_ok : ∀ k, InFlight log k → ∀ ho f, ∃ q', q.finish ho k f = .ok q'
  /-- While keys remain and nothing is in flight, `dequeue` returns one. -/
  progress : (∃ k, IsQueued items k ∧ ¬ WasDequeued log k) → (∀ k, ¬ InFlight log k) →
    ∀ ho, ∃ entry q', q.dequeue ho = .ok (some entry, q')
  /-- A run with nothing in flight in which `dequeue` returns nothing has handed out
  every key exactly once. -/
  complete : (∀ k, ¬ InFlight log k) → (∃ ho q', q.dequeue ho = .ok (none, q')) →
    ∀ k, IsQueued items k →
      dequeueCount log k = 1
  /-- No run goes on for ever: every event hands out or finishes another key. -/
  bounded : log.length ≤ 2 * (items.map Item.key).toFinset.card
  /-- A key is handed out dirty exactly when it was first queued dirty or one of its
  direct dependencies was finished dirty. -/
  dirtiness : ∀ pre f k post, log = pre ++ .dequeued f k :: post →
    (f = .dirty ↔ QueuedDirty items k ∨ ∃ d, DependsOn items k d ∧ .finished d .dirty ∈ pre)
  /-- A key is handed out only if no ready key has a longer chain of dependents. -/
  deepest : ∀ pre f k post, log = pre ++ .dequeued f k :: post →
    ReadyAfter items pre k ∧ ∀ k', ReadyAfter items pre k' →
      ∀ n, ChainFrom (fun d k => DependsOn items k d) k' n →
        ∃ m, n ≤ m ∧ ChainFrom (fun d k => DependsOn items k d) k m

/-- A statement about each hand-out and the log before it holds of a whole run when it
holds of its last step. -/
theorem Run.forall_dequeued {items : List (Item K V)}
    {P : List (Event K) → Freshness → K → Prop}
    (hstep : ∀ (q : DependencyQueue K V) (log : List (Event K)) (ho : HashOrder K)
      (f : Freshness) (k : K) (v : V) (q' : DependencyQueue K V), Run items q log →
      q.dequeue ho = .ok (some (f, k, v), q') → P log f k)
    {q : DependencyQueue K V} {log : List (Event K)} (h : Run items q log) :
    ∀ pre f k post, log = pre ++ .dequeued f k :: post → P pre f k := by
  induction h with
  | start => intro pre f k post heq; simp at heq
  | @dequeue ho q q' log f' key value hrun hq ih =>
    intro pre f k post heq
    rcases List.eq_nil_or_concat post with rfl | ⟨post, e, rfl⟩
    · obtain ⟨rfl, hlast⟩ := List.append_inj' heq rfl
      obtain ⟨rfl, rfl⟩ : f' = f ∧ key = k := by simpa using hlast
      exact hstep q _ ho _ _ value q' hrun hq
    · rw [List.concat_eq_append, ← List.cons_append, ← List.append_assoc] at heq
      exact ih pre f k post (List.append_inj' heq rfl).1
  | idle _ _ ih => exact ih
  | @finish ho q q' log key f' hrun _ hq ih =>
    intro pre f k post heq
    rcases List.eq_nil_or_concat post with rfl | ⟨post, e, rfl⟩
    · have hlast := (List.append_inj' heq rfl).2
      simp at hlast
    · rw [List.concat_eq_append, ← List.cons_append, ← List.append_assoc] at heq
      exact ih pre f k post (List.append_inj' heq rfl).1

/-- What one hand-out establishes, in the words of the plan. -/
theorem Run.dequeue_spec {items : List (Item K V)} (hacyclic : Acyclic (DependsOn items))
    {q q' : DependencyQueue K V} {log : List (Event K)} {ho : HashOrder K} {f : Freshness}
    {k : K} {v : V} (h : Run items q log) (hq : q.dequeue ho = .ok (some (f, k, v), q')) :
    ReadyAfter items log k ∧
    (f = .dirty ↔ QueuedDirty items k ∨ ∃ d, DependsOn items k d ∧ .finished d .dirty ∈ log) ∧
    ∃ d, IsLongestChain (fun d k => DependsOn items k d) k d ∧
      ∀ k', ReadyAfter items log k' →
        ∀ n, ChainFrom (fun d k => DependsOn items k d) k' n → n ≤ d := by
  have hrel : (planOf items).Dependent = fun d k => DependsOn items k d := by
    funext d k
    exact propext (planOf_dependent items d k)
  have htracks := h.tracks hacyclic
  rcases htracks.dequeue ho with ⟨hnone, -⟩ | ⟨f', k', v', q'', hsome, hready, hf, -, hmax, -, -⟩
  · rw [hnone] at hq
    simp at hq
  · rw [hsome] at hq
    obtain ⟨⟨rfl, rfl, rfl⟩, rfl⟩ : (f' = f ∧ k' = k ∧ v' = v) ∧ q'' = q' := by simpa using hq
    refine ⟨readyAfter_iff.mpr hready, ?_, ?_⟩
    · rw [hf, htracks.mem_dirty, mem_planOf_dirty]
      refine or_congr Iff.rfl ⟨?_, ?_⟩
      · rintro ⟨hk, d, hd, hs⟩
        exact ⟨d, (planOf_dependent items d k').mp ⟨hk, hd⟩, mem_staleOf.mp hs⟩
      · rintro ⟨d, hd, hs⟩
        obtain ⟨hk, hd⟩ := (planOf_dependent items d k').mpr hd
        exact ⟨hk, d, hd, mem_staleOf.mpr hs⟩
    · obtain ⟨d, hlong, hle⟩ := hmax
      rw [← hrel]
      exact ⟨d, hlong, fun k hk => hle k (readyAfter_iff.mp hk)⟩

theorem isQueued_iff_mem {items : List (Item K V)} {k : K} :
    IsQueued items k ↔ k ∈ (items.map Item.key).toFinset := by
  simp only [IsQueued, firstItem, List.mem_toFinset, List.mem_map]
  constructor
  · rintro ⟨item, hitem⟩
    exact ⟨item, List.mem_of_find?_eq_some hitem, by simpa using List.find?_some hitem⟩
  · rintro ⟨item, hmem, hkey⟩
    cases hfind : items.find? (fun item => decide (item.key = k)) with
    | some item' => exact ⟨item', rfl⟩
    | none =>
      rw [List.find?_eq_none] at hfind
      exact absurd (by simpa using hkey) (hfind item hmem)

/-- Each event of a run adds a key to those handed out or to those finished. -/
theorem Run.length_eq {items : List (Item K V)} (hacyclic : Acyclic (DependsOn items))
    {q : DependencyQueue K V} {log : List (Event K)} (h : Run items q log) :
    log.length = (outOf log).card + (doneOf log).card := by
  induction h with
  | start => rfl
  | @dequeue ho q q' log f key value hrun hq ih =>
    have hready := (hrun.dequeue_spec hacyclic hq).1
    have hnot : key ∉ outOf log := fun hmem => hready.2.1 (mem_outOf.mp hmem)
    simp only [List.length_append, List.length_singleton, outOf_append_dequeued,
      doneOf_append_dequeued, Finset.card_insert_of_notMem hnot]
    omega
  | idle _ _ ih => exact ih
  | @finish ho q q' log key f _ hflight _ ih =>
    have hnot := (inFlight_iff.mp hflight).2
    simp only [List.length_append, List.length_singleton, outOf_append_finished,
      doneOf_append_finished, Finset.card_insert_of_notMem hnot]
    omega

theorem Run.dequeueCount_eq {items : List (Item K V)} (hacyclic : Acyclic (DependsOn items))
    {q : DependencyQueue K V} {log : List (Event K)} (h : Run items q log) (k : K) :
    dequeueCount log k = if k ∈ outOf log then 1 else 0 := by
  induction h with
  | start => rfl
  | @dequeue ho q q' log f key value hrun hq ih =>
    have hready := (hrun.dequeue_spec hacyclic hq).1
    have hnot : key ∉ outOf log := fun hmem => hready.2.1 (mem_outOf.mp hmem)
    rw [dequeueCount, List.countP_append, ← dequeueCount, ih, outOf_append_dequeued]
    by_cases hk : key = k
    · subst hk
      simp [hnot]
    · have hk' : k ≠ key := fun h => hk h.symm
      simp [hk, hk']
  | idle _ _ ih => exact ih
  | @finish ho q q' log key f _ hflight _ ih =>
    rw [dequeueCount, List.countP_append, ← dequeueCount, ih, outOf_append_finished]
    simp

/-- Every run on an acyclic plan all of whose dependencies are queued: the depth
computation does not panic, and each state the run leads to meets the guarantees. -/
theorem run_guarantees (items : List (Item K V))
    (hqueued : ∀ k d, DependsOn items k d → IsQueued items d)
    (hacyclic : Acyclic (DependsOn items)) :
    (∀ ho, ∃ q, (queueAll items).queueFinished ho = .ok q) ∧
    ∀ q log, Run items q log → RunGuarantees items q log := by
  have hplan : Acyclic (planOf items).Dependent :=
    hacyclic.swap.mono fun a b hab => (planOf_dependent items a b).mp hab
  have hclosed : ∀ k ∈ (planOf items).keys, (planOf items).deps k ⊆ (planOf items).keys := by
    intro k hk d hd
    rw [mem_planOf_keys]
    exact hqueued k d ((planOf_dependent items d k).mp ⟨hk, hd⟩)
  constructor
  · intro ho
    obtain ⟨q, hq, -⟩ := (queued_queueAll items).exists_queueFinished hplan ho
    exact ⟨q, hq⟩
  intro q log hrun
  have htracks := hrun.tracks hacyclic
  -- Nothing in flight means that everything handed out is finished.
  have hsettled : (∀ k, ¬ InFlight log k) → doneOf log = outOf log := by
    intro hnone
    refine htracks.done_subset.antisymm fun k hk => ?_
    by_contra hdone
    exact hnone k (inFlight_iff.mpr ⟨hk, hdone⟩)
  have hprogress : (∃ k, IsQueued items k ∧ ¬ WasDequeued log k) →
      (∀ k, ¬ InFlight log k) → ∃ k, (planOf items).Ready (outOf log) (doneOf log) k := by
    rintro ⟨k, hk, hkout⟩ hnone
    rw [hsettled hnone]
    refine Plan.exists_ready hplan hclosed ⟨k, (mem_planOf_keys items k).mpr hk, ?_⟩
    rwa [mem_outOf]
  refine ⟨?_, ?_, ?_, ?_, ?_, ?_, ?_, ?_⟩
  · exact hrun.forall_dequeued fun q log ho f k v q' h hq => (h.dequeue_spec hacyclic hq).1
  · intro ho
    rcases htracks.dequeue ho with ⟨h, -⟩ | ⟨f, k, v, q', h, -⟩ <;> exact ⟨_, h⟩
  · intro k hk ho f
    obtain ⟨hout, hdone⟩ := inFlight_iff.mp hk
    obtain ⟨q', hq', -⟩ := htracks.finish ho hout hdone f
    exact ⟨q', hq'⟩
  · intro hleft hnone ho
    obtain ⟨k, hk⟩ := hprogress hleft hnone
    rcases htracks.dequeue ho with ⟨-, hidle⟩ | ⟨f, k, v, q', h, -⟩
    · exact absurd hk (hidle k)
    · exact ⟨_, q', h⟩
  · rintro hnone ⟨ho, q', hq'⟩ k hk
    rw [hrun.dequeueCount_eq hacyclic]
    by_contra hcount
    have hkout : ¬ WasDequeued log k := by
      rw [← mem_outOf]
      intro hmem
      simp [hmem] at hcount
    obtain ⟨k', hk'⟩ := hprogress ⟨k, hk, hkout⟩ hnone
    rcases htracks.dequeue ho with ⟨-, hidle⟩ | ⟨f, k, v, q'', h, -⟩
    · exact hidle k' hk'
    · rw [hq'] at h
      simp at h
  · have hkeys : (planOf items).keys = (items.map Item.key).toFinset := by
      ext k
      rw [mem_planOf_keys, isQueued_iff_mem]
    have hout := Finset.card_le_card htracks.out_subset
    have hdone := Finset.card_le_card htracks.done_subset
    rw [hkeys] at hout
    rw [hrun.length_eq hacyclic]
    omega
  · exact hrun.forall_dequeued fun q log ho f k v q' h hq => (h.dequeue_spec hacyclic hq).2.1
  · refine hrun.forall_dequeued fun q log ho f k v q' h hq => ?_
    obtain ⟨hready, -, d, hlong, hle⟩ := h.dequeue_spec hacyclic hq
    exact ⟨hready, fun k' hk' n hn => ⟨d, hle k' hk' n hn, hlong.1⟩⟩

/-- The five items of the queue's own test: `2` needs `1`, `4` needs `2` and `3`, `5`
needs `4` and `3`. -/
def deepFirst : List (Item ℕ Unit) :=
  [⟨.fresh, 1, (), []⟩, ⟨.fresh, 2, (), [1]⟩, ⟨.fresh, 3, (), []⟩, ⟨.fresh, 4, (), [2, 3]⟩,
    ⟨.fresh, 5, (), [4, 3]⟩]

theorem deepFirst_dependsOn {k d : ℕ} (h : DependsOn deepFirst k d) : 0 < d ∧ d < k ∧ k < 6 := by
  obtain ⟨item, hfind, hd⟩ := h
  have hkey : item.key = k := by simpa using List.find?_some hfind
  have hmem := List.mem_of_find?_eq_some hfind
  subst hkey
  simp only [deepFirst, List.mem_cons, List.not_mem_nil, or_false] at hmem
  rcases hmem with rfl | rfl | rfl | rfl | rfl <;> simp at hd ⊢ <;> omega

theorem run_guarantees_deepFirst :
    (∀ ho, ∃ q, (queueAll deepFirst).queueFinished ho = .ok q) ∧
    ∀ q log, Run deepFirst q log → RunGuarantees deepFirst q log := by
  refine run_guarantees deepFirst (fun k d h => ?_) (acyclic_of_rank id fun k d h => ?_)
  · obtain ⟨hpos, hlt, hk⟩ := deepFirst_dependsOn h
    rw [isQueued_iff_mem]
    have : d < 5 := by omega
    interval_cases d <;> decide
  · exact (deepFirst_dependsOn h).2.1

end Cargo.Util.DependencyQueue
