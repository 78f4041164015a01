import Mathlib.Tactic.Abel
import Cargo.Compiler.JobQueue.Tasks

/-!
# Draining the job queue

What holds in every state that the main thread, the jobs and the jobserver's helper can
reach together, whatever the order of their messages.

A state splits the tasks of the build: some keys have been dequeued, the tasks of those
keys are waiting, in flight, succeeded or failed, and the dependency queue has finished
exactly the dequeued keys all of whose tasks succeeded. `Splits` says so, every step keeps
it, and the guarantees of a run are read off it.

## Main definitions

* `Splits` — how a state splits the tasks of the build
* `Guarantees` — what a run promises in every state
* `work` — a bound on the number of steps that are left

## Main results

* `Splits.step` — no step panics, every step keeps the invariant and lowers `work`
* `drain_guarantees` — every reachable state of every run meets the guarantees
-/

set_option autoImplicit false

namespace Cargo.Compiler

open Cargo.Math Cargo.Util Cargo.Util.DependencyQueue Relation

variable {K J P E : Type}

/-! ### Reading the history -/

namespace JobEvent

/-- The tasks started, oldest first. -/
def startedTasks : List (JobEvent K J E) → List (Task K J) :=
  List.filterMap fun
    | .started task => some task
    | .finished _ _ => none

/-- The tasks that succeeded, oldest first. -/
def succeededTasks : List (JobEvent K J E) → List (Task K J) :=
  List.filterMap fun
    | .finished task (.ok ()) => some task
    | _ => none

/-- The tasks that failed, oldest first. -/
def failedTasks : List (JobEvent K J E) → List (Task K J) :=
  List.filterMap fun
    | .finished task (.error _) => some task
    | _ => none

@[simp] theorem startedTasks_started (log : List (JobEvent K J E)) (task : Task K J) :
    startedTasks (log ++ [.started task]) = startedTasks log ++ [task] := by
  simp [startedTasks]

@[simp] theorem startedTasks_finished (log : List (JobEvent K J E)) (task : Task K J)
    (result : Except E Unit) :
    startedTasks (log ++ [.finished task result]) = startedTasks log := by
  simp [startedTasks]

@[simp] theorem succeededTasks_started (log : List (JobEvent K J E)) (task : Task K J) :
    succeededTasks (log ++ [.started task]) = succeededTasks log := by
  simp [succeededTasks]

@[simp] theorem succeededTasks_ok (log : List (JobEvent K J E)) (task : Task K J) :
    succeededTasks (log ++ [.finished task (.ok ())]) = succeededTasks log ++ [task] := by
  simp [succeededTasks]

@[simp] theorem succeededTasks_error (log : List (JobEvent K J E)) (task : Task K J) (e : E) :
    succeededTasks (log ++ [.finished task (.error e)]) = succeededTasks log := by
  simp [succeededTasks]

@[simp] theorem failedTasks_started (log : List (JobEvent K J E)) (task : Task K J) :
    failedTasks (log ++ [.started task]) = failedTasks log := by
  simp [failedTasks]

@[simp] theorem failedTasks_ok (log : List (JobEvent K J E)) (task : Task K J) :
    failedTasks (log ++ [.finished task (.ok ())]) = failedTasks log := by
  simp [failedTasks]

@[simp] theorem failedTasks_error (log : List (JobEvent K J E)) (task : Task K J) (e : E) :
    failedTasks (log ++ [.finished task (.error e)]) = failedTasks log ++ [task] := by
  simp [failedTasks]

end JobEvent

open JobEvent

/-- The tasks whose `Finish` is on its way. -/
def finishing : List (Message K J E) → List (Task K J) :=
  List.filterMap fun
    | .finish task _ => some task
    | .token => none

@[simp] theorem finishing_append (channel channel' : List (Message K J E)) :
    finishing (channel ++ channel') = finishing channel ++ finishing channel' :=
  List.filterMap_append

@[simp] theorem finishing_finish (task : Task K J) (result : Except E Unit)
    (channel : List (Message K J E)) :
    finishing (.finish task result :: channel) = task :: finishing channel := rfl

@[simp] theorem finishing_token (channel : List (Message K J E)) :
    finishing (.token :: channel) = finishing channel := rfl

@[simp] theorem finishing_nil : finishing ([] : List (Message K J E)) = [] := rfl

/-- The tasks started whose `Finish` was not received. -/
def Drain.inFlight (s : Drain K J P E) : List (Task K J) := s.running ++ finishing s.channel

variable [DecidableEq K]

/-- What the order of events has to obey. -/
structure History (units : Units K P) (jobs : List (K × J × Freshness))
    (log : List (JobEvent K J E)) : Prop where
  /-- When a job starts, every job of every dependency has succeeded. -/
  deps_first : ∀ pre task post, log = pre ++ .started task :: post →
    ∀ d, TransGen units.DependsOn d task.key → (∃ entry ∈ jobs, entry.1 = d) ∧
      Multiset.filter (fun t : Task K J => t.key = d) (succeededTasks pre) =
        (tasks units jobs).filter (·.key = d)
  /-- No job starts after one has failed. -/
  no_start : ∀ pre task e post, log = pre ++ .finished task (.error e) :: post →
    startedTasks post = []

/-- The events before a given one, seen from a history with one event more. -/
theorem split_concat {α : Type} {l pre post : List α} {a b : α}
    (h : l ++ [b] = pre ++ a :: post) :
    (pre = l ∧ a = b ∧ post = []) ∨ ∃ post', post = post' ++ [b] ∧ l = pre ++ a :: post' := by
  rcases List.eq_nil_or_concat post with rfl | ⟨post', c, rfl⟩
  · obtain ⟨hl, hb⟩ := List.append_inj' h rfl
    exact Or.inl ⟨hl.symm, by simpa using hb.symm, rfl⟩
  · rw [List.concat_eq_append, ← List.cons_append, ← List.append_assoc] at h
    obtain ⟨hl, hb⟩ := List.append_inj' h rfl
    exact Or.inr ⟨post', by simpa using hb.symm, hl⟩

theorem History.started {units : Units K P} {jobs : List (K × J × Freshness)}
    {log : List (JobEvent K J E)} (h : History units jobs log) {task : Task K J}
    (hfailed : failedTasks log = [])
    (hdeps : ∀ d, TransGen units.DependsOn d task.key → (∃ entry ∈ jobs, entry.1 = d) ∧
      Multiset.filter (fun t : Task K J => t.key = d) (succeededTasks log) =
        (tasks units jobs).filter (·.key = d)) :
    History units jobs (log ++ [.started task]) := by
  refine ⟨?_, ?_⟩
  · intro pre task' post hlog
    rcases split_concat hlog with ⟨rfl, htask, -⟩ | ⟨post', -, hlog'⟩
    · cases htask
      exact hdeps
    · exact h.deps_first pre task' post' hlog'
  · intro pre task' e post hlog
    rcases split_concat hlog with ⟨-, htask, -⟩ | ⟨post', -, rfl⟩
    · cases htask
    · simp [failedTasks] at hfailed

theorem History.finished {units : Units K P} {jobs : List (K × J × Freshness)}
    {log : List (JobEvent K J E)} (h : History units jobs log) (task : Task K J)
    (result : Except E Unit) : History units jobs (log ++ [.finished task result]) := by
  refine ⟨?_, ?_⟩
  · intro pre task' post hlog
    rcases split_concat hlog with ⟨-, htask, -⟩ | ⟨post', -, hlog'⟩
    · cases htask
    · exact h.deps_first pre task' post' hlog'
  · intro pre task' e post hlog
    rcases split_concat hlog with ⟨-, -, rfl⟩ | ⟨post', rfl, hlog'⟩
    · rfl
    · have := h.no_start pre task' e post' hlog'
      simpa [startedTasks] using this

/-! ### The invariant -/

variable [DecidableEq P]

/-- How a state splits the tasks of the build, when the keys in `out` were dequeued, those
in `done` were finished, and those in `stale` were finished dirty. -/
structure Splits (units : Units K P) (jobs : List (K × J × Freshness)) (out done stale : Finset K)
    (s : Drain K J P E) : Prop where
  tracks : Tracks (planOf units jobs) out done stale s.self.queue
  value : ∀ k ∈ (planOf units jobs).keys, k ∉ out →
    s.self.queue.valueOf k = some (jobsOf jobs k)
  /-- The tasks of the dequeued keys wait or were started. -/
  split : (s.queue + startedTasks s.log : Multiset (Task K J)) =
    (tasks units jobs).filter (·.key ∈ out)
  /-- The tasks started are in flight, have succeeded or have failed. -/
  flight : (s.inFlight + succeededTasks s.log + failedTasks s.log : Multiset (Task K J)) =
    startedTasks s.log
  active : s.self.active.Perm (s.inFlight.map Task.key)
  pending : ∀ k ∈ out, ∃ build, s.self.pending.lookup k = some build ∧
    build.amt + (succeededTasks s.log).countP (·.key = k) =
      (tasks units jobs).countP (·.key = k) ∧
    (build.fresh = .dirty ↔ Soiled units jobs k)
  done_iff : ∀ k, k ∈ done ↔ k ∈ out ∧
    (succeededTasks s.log).countP (·.key = k) = (tasks units jobs).countP (·.key = k)
  stale_iff : ∀ k, k ∈ stale ↔ k ∈ done ∧ Soiled units jobs k
  counts : ∀ p, (s.self.counts.lookup p).getD 0 +
    (startedTasks s.log).countP (units.pkg ·.key = p) = jobs.countP (units.pkg ·.1 = p)
  error_iff : s.error = none ↔ failedTasks s.log = []
  tokens : s.self.active.length ≤ s.tokens + 1
  recv : s.phase = .recv → s.self.active.length = s.tokens + 1
  ended : ∀ r, s.phase = .done r → s.self.active = [] ∧ r = s.outcome
  history : History units jobs s.log

/-- The steps that are left, counted generously: every job that was not dequeued causes at
most two messages, and every message at most three steps of the main thread. -/
def work (jobs : List (K × J × Freshness)) (s : Drain K J P E) : ℕ :=
  10 * (jobs.length - (s.queue.length + (startedTasks s.log).length)) + 5 * s.queue.length +
    4 * s.running.length + 4 * s.requested + 3 * s.channel.length +
    match s.phase with
    | .dequeue => 2
    | .start => 1
    | _ => 0

section Splits

variable {units : Units K P} {jobs : List (K × J × Freshness)} {out done stale : Finset K}
  {s : Drain K J P E}

theorem Splits.started_le (h : Splits units jobs out done stale s) :
    (startedTasks s.log : Multiset (Task K J)) ≤ (tasks units jobs).filter (·.key ∈ out) := by
  rw [← h.split]
  exact Multiset.le_add_left _ _

theorem Splits.succeeded_le (h : Splits units jobs out done stale s) :
    (succeededTasks s.log : Multiset (Task K J)) ≤ (tasks units jobs).filter (·.key ∈ out) := by
  refine le_trans ?_ h.started_le
  rw [← h.flight, add_right_comm]
  exact Multiset.le_add_left _ _

/-- The tasks that were dequeued are no more than there are. -/
theorem Splits.length_le (h : Splits units jobs out done stale s) :
    s.queue.length + (startedTasks s.log).length ≤ jobs.length := by
  have hcard := congrArg Multiset.card h.split
  have hle := Multiset.card_le_card (Multiset.filter_le (·.key ∈ out) (tasks units jobs))
  simp only [Multiset.card_add, Multiset.coe_card, tasks, List.length_map] at hcard hle
  omega

/-- A task that waits or was started belongs to a dequeued key. -/
theorem Splits.mem_out (h : Splits units jobs out done stale s) {task : Task K J}
    (htask : task ∈ s.queue ∨ task ∈ startedTasks s.log) : task.key ∈ out := by
  have : task ∈ (s.queue + startedTasks s.log : Multiset (Task K J)) := by
    simpa using htask
  rw [h.split] at this
  exact (Multiset.mem_filter.mp this).2

/-- Everything below a dequeued key has been finished. -/
theorem Splits.mem_done_of_transGen (h : Splits units jobs out done stale s) {d k : K}
    (hdk : TransGen units.DependsOn d k) (hk : k ∈ out) : d ∈ done := by
  have hstep : ∀ a b, units.DependsOn a b → b ∈ out → a ∈ done := by
    intro a b hab hb
    exact h.tracks.deps_done b hb (List.mem_toFinset.mpr hab)
  induction hdk using TransGen.head_induction_on with
  | single hab => exact hstep _ _ hab hk
  | head hab _ ih => exact hstep _ _ hab (h.tracks.done_subset ih)

/-- All the tasks of a finished key have succeeded. -/
theorem Splits.succeeded_of_done (h : Splits units jobs out done stale s) {d : K} (hd : d ∈ done) :
    Multiset.filter (fun t : Task K J => t.key = d) (succeededTasks s.log) =
      (tasks units jobs).filter (·.key = d) := by
  refine Multiset.eq_of_le_of_card_le ?_ ?_
  · exact Multiset.filter_le_filter _ (h.succeeded_le.trans (Multiset.filter_le _ _))
  · rw [← Multiset.countP_eq_card_filter, ← Multiset.countP_eq_card_filter,
      Multiset.coe_countP, ((h.done_iff d).mp hd).2]

/-- A key is tainted when one of its dependencies was finished dirty. -/
theorem Splits.tainted_iff_stale (h : Splits units jobs out done stale s) {k : K}
    (hdeps : (planOf units jobs).deps k ⊆ done) :
    Tainted units jobs k ↔ ∃ d ∈ (planOf units jobs).deps k, d ∈ stale := by
  rw [tainted_iff]
  constructor
  · rintro ⟨d, hd, hsoiled⟩
    have hd' : d ∈ (planOf units jobs).deps k := by simpa [planOf] using hd
    exact ⟨d, hd', (h.stale_iff d).mpr ⟨hdeps hd', hsoiled⟩⟩
  · rintro ⟨d, hd, hstale⟩
    exact ⟨d, by simpa [planOf] using hd, ((h.stale_iff d).mp hstale).2⟩

end Splits

/-! ### Dequeueing -/

omit [DecidableEq K] [DecidableEq P] in
/-- Dequeued jobs go to the end of the local queue, with one token requested for each. -/
theorem Drain.foldl_pushJob (key : K) (freshness : Freshness) (entries : List (J × Freshness))
    (s : Drain K J P E) :
    entries.foldl (pushJob key freshness) s =
      { s with
        queue := s.queue ++ entries.map fun entry => ⟨key, entry.1, entry.2.combine freshness⟩
        requested := s.requested + entries.length } := by
  induction entries generalizing s with
  | nil => simp
  | cons entry entries ih =>
    rw [List.foldl_cons, ih]
    simp [pushJob, Nat.add_assoc, Nat.add_comm 1]

/-- The freshness of a whole key. -/
theorem foldl_combine_eq_dirty {entries : List (J × Freshness)} {freshness : Freshness} :
    entries.foldl (fun total entry => entry.2.combine total) freshness = .dirty ↔
      freshness = .dirty ∨ ∃ entry ∈ entries, entry.2 = .dirty := by
  induction entries generalizing freshness with
  | nil => simp
  | cons entry entries ih =>
    rw [List.foldl_cons, ih, Freshness.combine_eq_dirty]
    simp only [List.exists_mem_cons_iff]
    tauto

omit [DecidableEq P] in
theorem mem_jobsOf {jobs : List (K × J × Freshness)} {k : K} {entry : J × Freshness} :
    entry ∈ jobsOf jobs k ↔ (k, entry.1, entry.2) ∈ jobs := by
  simp only [jobsOf, List.mem_map, List.mem_filter]
  constructor
  · rintro ⟨⟨k', entry'⟩, ⟨hmem, hk⟩, rfl⟩
    obtain rfl : k' = k := by simpa using hk
    exact hmem
  · intro hmem
    exact ⟨(k, entry), ⟨hmem, by simp⟩, rfl⟩

section Steps

variable {units : Units K P} {jobs : List (K × J × Freshness)} {out done stale : Finset K}
  {s : Drain K J P E}

omit [DecidableEq P] in
/-- The tasks of one key more. -/
theorem tasks_filter_insert (units : Units K P) (jobs : List (K × J × Freshness)) {k : K}
    (hk : k ∉ out) :
    (tasks units jobs).filter (·.key ∈ insert k out) =
      (tasks units jobs).filter (·.key = k) + (tasks units jobs).filter (·.key ∈ out) := by
  have hnone : ∀ t ∈ tasks units jobs, ¬ (t.key = k ∧ t.key ∈ out) := by
    rintro t - ⟨rfl, hout⟩
    exact hk hout
  rw [Multiset.filter_add_filter, Multiset.filter_eq_nil.mpr hnone, add_zero]
  simp only [Finset.mem_insert]

theorem Splits.dequeueUnit (h : Splits units jobs out done stale s) (hphase : s.phase = .dequeue)
    (ho : HashOrder K) :
    ∃ s' out', s.dequeueUnit ho = .ok s' ∧ Splits units jobs out' done stale s' ∧
      work jobs s' < work jobs s := by
  rcases h.tracks.dequeue ho with ⟨hdeq, -⟩ | ⟨freshness, k, entries, q, hdeq, hready, hfresh,
    hvalue, -, htracks, hothers⟩
  · refine ⟨{ s with phase := .start }, out, ?_, ?_, ?_⟩
    · simp [Drain.dequeueUnit, hdeq, Except.mapError, bind, Except.bind]
    · exact ⟨h.tracks, h.value, h.split, h.flight, h.active, h.pending, h.done_iff, h.stale_iff,
        h.counts, h.error_iff, h.tokens, by simp, by simp, h.history⟩
    · simp [work, hphase]
  · obtain ⟨hkeys, hout, hdeps⟩ := hready
    obtain rfl : entries = jobsOf jobs k := by
      rw [h.value k hkeys hout] at hvalue
      exact (Option.some.inj hvalue).symm
    have hpos := jobsOf_pos hkeys
    have hcount := tasks_countP_key units jobs k
    -- The queue hands the key out dirty exactly when it is tainted.
    have htainted : freshness = .dirty ↔ Tainted units jobs k := by
      rw [hfresh, h.tracks.mem_dirty, h.tainted_iff_stale hdeps]
      have hclean : k ∉ (planOf units jobs).dirty := Finset.notMem_empty k
      simp only [hclean, hkeys, true_and, false_or]
    have hrun : ∀ f : Freshness, f.combine freshness = runFreshness units jobs k f := by
      intro f
      apply freshness_ext
      rw [Freshness.combine_eq_dirty, runFreshness_eq_dirty, htainted]
    have hsucc : (succeededTasks s.log).countP (·.key = k) = 0 := by
      rw [List.countP_eq_zero]
      intro t ht hk
      have hmem := Multiset.mem_of_le h.succeeded_le (Multiset.mem_coe.mpr ht)
      have hk' : t.key = k := by simpa using hk
      exact hout (hk' ▸ (Multiset.mem_filter.mp hmem).2)
    refine ⟨{ s with
        self := { s.self with
          queue := q
          pending := s.self.pending.insert k
            { amt := (jobsOf jobs k).length
              fresh := (jobsOf jobs k).foldl (fun total entry => entry.2.combine total)
                freshness } }
        queue := s.queue ++
          (jobsOf jobs k).map fun entry => ⟨k, entry.1, entry.2.combine freshness⟩
        requested := s.requested + (jobsOf jobs k).length },
      insert k out, ?_, ⟨htracks, ?_, ?_, h.flight, h.active, ?_, ?_, h.stale_iff, h.counts,
        h.error_iff, h.tokens, by simp [hphase], by simp [hphase], h.history⟩, ?_⟩
    · simp only [Drain.dequeueUnit, hdeq, Except.mapError, bind, Except.bind]
      rw [Drain.foldl_pushJob]
    · intro k' hk' hk'out
      rw [Finset.mem_insert, not_or] at hk'out
      rw [← h.value k' hk' hk'out.2]
      exact hothers k' hk'out.1
    · simp only [hrun]
      rw [tasks_filter_insert units jobs hout, ← h.split, tasks_filter_key, ← Multiset.coe_add]
      abel
    · intro k' hk'
      by_cases hkk : k' = k
      · subst hkk
        refine ⟨_, Finmap.lookup_insert _, ?_, ?_⟩
        · simp [hsucc, hcount]
        · simp only [foldl_combine_eq_dirty, htainted, Soiled]
          rw [or_comm]
          refine or_congr ?_ Iff.rfl
          constructor
          · rintro ⟨⟨job, f⟩, hmem, rfl⟩
            exact ⟨job, mem_jobsOf.mp hmem⟩
          · rintro ⟨job, hmem⟩
            exact ⟨(job, .dirty), mem_jobsOf.mpr hmem, rfl⟩
      · simp only [Finmap.lookup_insert_of_ne _ hkk]
        exact h.pending k' ((Finset.mem_insert.mp hk').resolve_left hkk)
    · intro k'
      rw [h.done_iff, Finset.mem_insert]
      constructor
      · rintro ⟨hk', hc⟩
        exact ⟨Or.inr hk', hc⟩
      · rintro ⟨rfl | hk', hc⟩
        · simp only [hsucc, hcount] at hc
          omega
        · exact ⟨hk', hc⟩
    · have hle : s.queue.length + (startedTasks s.log).length + (jobsOf jobs k).length ≤
          jobs.length := by
        have hcard := congrArg Multiset.card (tasks_filter_insert units jobs hout)
        have hsub := Multiset.card_le_card
          (Multiset.filter_le (·.key ∈ insert k out) (tasks units jobs))
        rw [← h.split, tasks_filter_key] at hcard
        simp only [Multiset.card_add, Multiset.coe_card, List.length_map, tasks] at hcard hsub
        omega
      simp only [work, List.length_append, List.length_map]
      omega

/-! ### Starting jobs -/

/-- A job that waits is still counted for its package. -/
theorem Splits.exists_count (h : Splits units jobs out done stale s) {task : Task K J}
    (htask : task ∈ s.queue) :
    ∃ count, s.self.counts.lookup (units.pkg task.key) = some (count + 1) := by
  have hcounts := h.counts (units.pkg task.key)
  have hsplit := congrArg (Multiset.countP fun t : Task K J => units.pkg t.key = units.pkg task.key)
    h.split
  have hle := Multiset.countP_le_of_le (fun t : Task K J => units.pkg t.key = units.pkg task.key)
    (Multiset.filter_le (·.key ∈ out) (tasks units jobs))
  have hall : (tasks units jobs).countP (fun t => units.pkg t.key = units.pkg task.key) =
      jobs.countP (fun entry => units.pkg entry.1 = units.pkg task.key) := by
    simp only [tasks, Multiset.coe_countP, List.countP_map]
    rfl
  have hpos : 0 < s.queue.countP (fun t => units.pkg t.key = units.pkg task.key) :=
    List.countP_pos_iff.mpr ⟨task, htask, by simp⟩
  simp only [Multiset.countP_add, Multiset.coe_countP] at hsplit
  cases hlookup : s.self.counts.lookup (units.pkg task.key) with
  | none =>
    rw [hlookup, Option.getD_none] at hcounts
    omega
  | some n =>
    rw [hlookup, Option.getD_some] at hcounts
    exact ⟨n - 1, by congr 1; omega⟩

/-- Starting the first waiting job, wherever its `Finish` will come from. -/
theorem Splits.started (h : Splits units jobs out done stale s) {task : Task K J}
    {queue : List (Task K J)} (hqueue : s.queue = task :: queue) (herror : s.error = none)
    (hlt : s.self.active.length < s.tokens + 1) (hphase : s.phase = .start) {count : ℕ}
    (hcount : s.self.counts.lookup (units.pkg task.key) = some (count + 1))
    {channel : List (Message K J E)} {running : List (Task K J)}
    (hflight : (running ++ finishing channel).Perm (task :: s.inFlight)) :
    Splits units jobs out done stale
      { s with
        self := { s.self with
          active := s.self.active ++ [task.key]
          counts := s.self.counts.insert (units.pkg task.key) count }
        queue, channel, running, log := s.log ++ [JobEvent.started task] } := by
  have hout : task.key ∈ out := h.mem_out (Or.inl (by simp [hqueue]))
  refine ⟨h.tracks, h.value, ?_, ?_, ?_, ?_, ?_, h.stale_iff, ?_, ?_, ?_, by simp [hphase],
    by simp [hphase], ?_⟩
  -- the task moves from the waiting ones to the started ones
  · have hcons : (s.queue : Multiset (Task K J)) = {task} + queue := by
      rw [hqueue, Multiset.singleton_add, Multiset.cons_coe]
    rw [startedTasks_started, ← Multiset.coe_add, Multiset.coe_singleton, ← h.split, hcons]
    abel
  · have hperm : ((running ++ finishing channel : List (Task K J)) : Multiset (Task K J)) =
        {task} + s.inFlight := by
      rw [Multiset.singleton_add, Multiset.cons_coe, Multiset.coe_eq_coe]
      exact hflight
    simp only [Drain.inFlight, succeededTasks_started, failedTasks_started, startedTasks_started]
    rw [hperm, ← Multiset.coe_add, Multiset.coe_singleton, ← h.flight]
    abel
  · have := (hflight.map Task.key).symm
    refine List.Perm.trans ?_ this
    exact (List.perm_append_singleton _ _).trans (h.active.cons _)
  · simpa using h.pending
  · simpa using h.done_iff
  -- of its package, one job less is left and one more was started
  · intro p
    have hp := h.counts p
    by_cases hpk : p = units.pkg task.key
    · subst hpk
      simp only [hcount, Option.getD_some] at hp
      simp [List.countP_append]
      omega
    · simpa [Finmap.lookup_insert_of_ne _ hpk, List.countP_append, Ne.symm hpk] using hp
  · simpa using h.error_iff
  · simp only [List.length_append, List.length_singleton]
    omega
  · refine h.history.started (h.error_iff.mp herror) ?_
    intro d hd
    have hdone := h.mem_done_of_transGen hd hout
    exact ⟨mem_planOf_keys.mp (h.tracks.out_subset (h.tracks.done_subset hdone)),
      h.succeeded_of_done hdone⟩

theorem Splits.settle (h : Splits units jobs out done stale s) (hphase : s.phase = .start) :
    ∃ s', s.settle = .ok s' ∧ Splits units jobs out done stale s' ∧
      work jobs s' < work jobs s := by
  by_cases hactive : s.self.active = []
  · refine ⟨{ s with phase := .done s.outcome }, by simp [Drain.settle, hactive], ?_, ?_⟩
    · exact ⟨h.tracks, h.value, h.split, h.flight, h.active, h.pending, h.done_iff, h.stale_iff,
        h.counts, h.error_iff, h.tokens, by simp, by simp [hactive, Drain.outcome], h.history⟩
    · simp [work, hphase]
  · cases hlength : s.self.active.length with
    | zero => exact absurd (List.length_eq_zero_iff.mp hlength) hactive
    | succ bound =>
      have htokens := h.tokens
      refine ⟨{ s with tokens := min s.tokens bound, phase := .recv },
        by simp [Drain.settle, hactive, hlength], ?_, ?_⟩
      · refine ⟨h.tracks, h.value, h.split, h.flight, h.active, h.pending, h.done_iff,
          h.stale_iff, h.counts, h.error_iff, ?_, ?_, by simp, h.history⟩
        · simp only
          omega
        · simp only
          omega
      · simp [work, hphase]

theorem Splits.startJob (h : Splits units jobs out done stale s) (hphase : s.phase = .start)
    (result : Except E Unit) :
    ∃ s', s.startJob units result = .ok s' ∧ Splits units jobs out done stale s' ∧
      work jobs s' < work jobs s := by
  cases hqueue : s.queue with
  | nil =>
    simp only [Drain.startJob, hqueue]
    exact h.settle hphase
  | cons task queue =>
    by_cases hgo : s.error.isNone ∧ s.self.active.length < s.tokens + 1
    · have hmem : task ∈ s.queue := by simp [hqueue]
      obtain ⟨count, hcount⟩ := h.exists_count hmem
      have herror := Option.isNone_iff_eq_none.mp hgo.1
      simp only [Drain.startJob, hqueue, if_pos hgo, Drain.run, hcount]
      cases hfresh : task.fresh with
      | fresh =>
        refine ⟨_, rfl, h.started hqueue herror hgo.2 hphase hcount ?_, ?_⟩
        · rw [finishing_append, ← List.append_assoc]
          exact List.perm_append_singleton _ _
        · simp only [work, hqueue, hphase, List.length_cons, List.length_append,
            startedTasks_started, List.length_nil]
          omega
      | dirty =>
        refine ⟨_, rfl, h.started hqueue herror hgo.2 hphase hcount (List.Perm.refl _), ?_⟩
        simp only [work, hqueue, hphase, List.length_cons, List.length_append,
          startedTasks_started, List.length_nil]
        omega
    · simp only [Drain.startJob, hqueue, if_neg hgo]
      exact h.settle hphase

/-! ### Receiving messages -/

omit [DecidableEq P] [DecidableEq K] in
/-- There is a token to drop, because the jobs under way outnumber the tokens by one. -/
theorem exists_dropToken {active : List K} {tokens : ℕ} (h : active.length = tokens) :
    ∃ tokens', Drain.dropToken active tokens = .ok tokens' ∧ active.length ≤ tokens' + 1 := by
  unfold Drain.dropToken
  split
  · exact ⟨tokens, rfl, by omega⟩
  · rename_i hactive
    cases tokens with
    | zero => exact absurd (List.length_eq_zero_iff.mp h) hactive
    | succ tokens => exact ⟨tokens, rfl, h.le⟩

/-- The bookkeeping of a job that succeeded. -/
theorem Splits.finish (h : Splits units jobs out done stale s) (ho : HashOrder K)
    {task : Task K J} (htask : task ∈ s.inFlight) (active : List K) :
    ∃ self' done' stale', ({ s.self with active } : JobQueue K J P).finish ho task.key = .ok self' ∧
      self'.active = active ∧ self'.counts = s.self.counts ∧
      self'.queue.valueOf = s.self.queue.valueOf ∧
      Tracks (planOf units jobs) out done' stale' self'.queue ∧
      (∀ k ∈ out, ∃ build, self'.pending.lookup k = some build ∧
        build.amt + (succeededTasks s.log ++ [task]).countP (·.key = k) =
          (tasks units jobs).countP (·.key = k) ∧
        (build.fresh = .dirty ↔ Soiled units jobs k)) ∧
      (∀ k, k ∈ done' ↔ k ∈ out ∧ (succeededTasks s.log ++ [task]).countP (·.key = k) =
        (tasks units jobs).countP (·.key = k)) ∧
      ∀ k, k ∈ stale' ↔ k ∈ done' ∧ Soiled units jobs k := by
  have hstarted : task ∈ startedTasks s.log := by
    have : task ∈
        (s.inFlight + succeededTasks s.log + failedTasks s.log : Multiset (Task K J)) := by
      simp [htask]
    rwa [h.flight, Multiset.mem_coe] at this
  have hout := h.mem_out (Or.inr hstarted)
  obtain ⟨build, hlookup, hamt, hfresh⟩ := h.pending task.key hout
  -- The task itself has not succeeded yet, so the key has a job left.
  have hlt : (succeededTasks s.log).countP (·.key = task.key) <
      (tasks units jobs).countP (·.key = task.key) := by
    have hflight := congrArg (Multiset.countP fun t : Task K J => t.key = task.key) h.flight
    have hle := (Multiset.countP_le_of_le (fun t : Task K J => t.key = task.key) h.started_le).trans
      (Multiset.countP_le_of_le _ (Multiset.filter_le _ _))
    have hpos : 0 < s.inFlight.countP (·.key = task.key) :=
      List.countP_pos_iff.mpr ⟨task, htask, by simp⟩
    simp only [Multiset.countP_add, Multiset.coe_countP] at hflight hle
    omega
  have hdone : task.key ∉ done := fun hd => by
    have := ((h.done_iff _).mp hd).2
    omega
  obtain ⟨amt, hamt'⟩ : ∃ amt, build.amt = amt + 1 := ⟨build.amt - 1, by omega⟩
  have hpending : ∀ k ∈ out, ∃ build', (s.self.pending.insert task.key
      { build with amt }).lookup k = some build' ∧
        build'.amt + (succeededTasks s.log ++ [task]).countP (·.key = k) =
          (tasks units jobs).countP (·.key = k) ∧
        (build'.fresh = .dirty ↔ Soiled units jobs k) := by
    intro k hk
    by_cases hkk : k = task.key
    · subst hkk
      refine ⟨_, Finmap.lookup_insert _, ?_, hfresh⟩
      simp only [List.countP_append, List.countP_singleton, decide_true, if_true]
      omega
    · rw [Finmap.lookup_insert_of_ne _ hkk]
      simpa [List.countP_append, List.countP_singleton, Ne.symm hkk] using h.pending k hk
  have hothers : ∀ k, k ≠ task.key → (succeededTasks s.log ++ [task]).countP (·.key = k) =
      (succeededTasks s.log).countP (·.key = k) := by
    intro k hk
    simp [List.countP_append, Ne.symm hk]
  have hself : (succeededTasks s.log ++ [task]).countP (·.key = task.key) =
      (succeededTasks s.log).countP (·.key = task.key) + 1 := by
    simp [List.countP_append]
  by_cases hzero : amt = 0
  · obtain ⟨q, hfinish, htracks, hvalue⟩ := h.tracks.finish ho hout hdone build.fresh
    refine ⟨{ s.self with
        queue := q, active, pending := s.self.pending.insert task.key { build with amt } },
      insert task.key done, if build.fresh = .dirty then insert task.key stale else stale,
      ?_, rfl, rfl, hvalue, htracks, hpending, ?_, ?_⟩
    · simp [JobQueue.finish, hlookup, hamt', hzero, hfinish, Except.mapError, bind, Except.bind]
    · intro k
      by_cases hkk : k = task.key
      · subst hkk
        simp only [Finset.mem_insert, true_or, hout, true_and, true_iff, hself]
        omega
      · rw [Finset.mem_insert, hothers k hkk, or_iff_right hkk]
        exact h.done_iff k
    · intro k
      by_cases hkk : k = task.key
      · subst hkk
        have hstale : task.key ∉ stale := fun hs => hdone ((h.stale_iff _).mp hs).1
        split
        · simp_all
        · simp_all
      · have := h.stale_iff k
        split <;> simp [hkk, this]
  · refine ⟨{ s.self with
        active, pending := s.self.pending.insert task.key { build with amt } },
      done, stale, ?_, rfl, rfl, rfl, h.tracks, hpending, ?_, h.stale_iff⟩
    · simp [JobQueue.finish, hlookup, hamt', hzero]
    · intro k
      by_cases hkk : k = task.key
      · subst hkk
        rw [hself]
        constructor
        · exact fun hd => absurd hd hdone
        · rintro ⟨-, hc⟩
          omega
      · rw [hothers k hkk]
        exact h.done_iff k

theorem Splits.receive (h : Splits units jobs out done stale s) (hphase : s.phase = .recv)
    (ho : HashOrder K) {message : Message K J E} {rest : List (Message K J E)}
    (hchannel : s.channel = message :: rest) :
    ∃ s' done' stale', ({ s with channel := rest } : Drain K J P E).receive ho message = .ok s' ∧
      Splits units jobs out done' stale' s' ∧ work jobs s' < work jobs s := by
  cases message with
  | token =>
    refine ⟨_, done, stale, rfl, ?_, ?_⟩
    -- a token is one more to run with; no task moves
    · have hflight : s.running ++ finishing rest = s.inFlight := by
        simp [Drain.inFlight, hchannel]
      refine ⟨h.tracks, h.value, h.split, ?_, ?_, h.pending, h.done_iff, h.stale_iff, h.counts,
        h.error_iff, ?_, by simp, by simp, h.history⟩
      · simpa [Drain.inFlight, hchannel] using h.flight
      · simpa [Drain.inFlight, hchannel] using h.active
      · have := h.tokens
        simp only
        omega
    · simp only [work, hphase, hchannel, List.length_cons]
      omega
  | finish task result =>
    -- the task was in flight, so that its key is active; a token may be given back for it
    have hperm : s.inFlight.Perm (task :: (s.running ++ finishing rest)) := by
      simp only [Drain.inFlight, hchannel, finishing_finish]
      exact List.perm_middle
    have hactive : s.self.active.Perm (task.key :: (s.running ++ finishing rest).map Task.key) :=
      h.active.trans (hperm.map Task.key)
    have hmem : task.key ∈ s.self.active := hactive.mem_iff.mpr (by simp)
    have herase : (s.self.active.erase task.key).Perm
        ((s.running ++ finishing rest).map Task.key) := by
      have := hactive.erase task.key
      rwa [List.erase_cons_head] at this
    have hlength : (s.self.active.erase task.key).length = s.tokens := by
      rw [List.length_erase_of_mem hmem, h.recv hphase]
      omega
    obtain ⟨tokens, hdrop, htokens⟩ := exists_dropToken hlength
    have hcoe : (s.inFlight : Multiset (Task K J)) = {task} + (s.running ++ finishing rest :
        List (Task K J)) := by
      rw [Multiset.singleton_add, Multiset.cons_coe, Multiset.coe_eq_coe]
      exact hperm
    have hflight := h.flight
    rw [hcoe] at hflight
    cases result with
    | ok u =>
      -- the queue learns that it is done, which may taint the ones that depend on it
      have hflying : task ∈ s.inFlight := hperm.mem_iff.mpr (by simp)
      obtain ⟨self', done', stale', hfinish, hact, hcounts, hvalue, htracks, hpending, hdone,
        hstale⟩ := h.finish ho hflying (s.self.active.erase task.key)
      refine ⟨{ s with
          self := self', tokens, phase := .dequeue, channel := rest
          log := s.log ++ [.finished task (.ok ())] }, done', stale', ?_, ?_, ?_⟩
      · simp [Drain.receive, hmem, hdrop, hfinish, bind, Except.bind]
      · refine ⟨htracks, ?_, ?_, ?_, ?_, ?_, ?_, hstale, ?_, ?_, ?_, by simp, by simp,
          h.history.finished task _⟩
        · intro k hk hkout
          rw [hvalue]
          exact h.value k hk hkout
        · simpa using h.split
        · simp only [succeededTasks_ok, failedTasks_ok, startedTasks_finished, Drain.inFlight]
          rw [← hflight, ← Multiset.coe_add (succeededTasks s.log), Multiset.coe_singleton]
          abel
        · simpa [hact, Drain.inFlight] using herase
        · simpa using hpending
        · simpa using hdone
        · simpa [hcounts] using h.counts
        · simpa using h.error_iff
        · simpa [hact] using htokens
      · simp only [work, hphase, hchannel, List.length_cons, startedTasks_finished]
        omega
    | error e =>
      refine ⟨{ s with
          self := { s.self with active := s.self.active.erase task.key }
          -- the queue does not learn of it, so that no task that depends on it is ever ready
          tokens, phase := .dequeue, channel := rest
          log := s.log ++ [.finished task (.error e)]
          error := some (if s.self.active.erase task.key ≠ [] then .buildFailed else .job e) },
        done, stale, ?_, ?_, ?_⟩
      · simp [Drain.receive, hmem, hdrop, bind, Except.bind]
      · refine ⟨h.tracks, h.value, ?_, ?_, herase, ?_, ?_, h.stale_iff, ?_, ?_, htokens, by simp,
          by simp, h.history.finished task _⟩
        · simpa using h.split
        · simp only [succeededTasks_error, failedTasks_error, startedTasks_finished,
            Drain.inFlight]
          rw [← hflight, ← Multiset.coe_add (failedTasks s.log), Multiset.coe_singleton]
          abel
        · simpa using h.pending
        · simpa using h.done_iff
        · simpa using h.counts
        · simp
      · simp only [work, hphase, hchannel, List.length_cons, startedTasks_finished]
        omega

/-! ### Every step -/

/-- Moving a task from its thread to the channel keeps it in flight. -/
theorem Splits.of_inFlight (h : Splits units jobs out done stale s)
    {channel : List (Message K J E)} {running : List (Task K J)} {requested : ℕ}
    (hflight : (running ++ finishing channel).Perm s.inFlight) :
    Splits units jobs out done stale { s with channel, running, requested } := by
  refine ⟨h.tracks, h.value, h.split, ?_, ?_, h.pending, h.done_iff, h.stale_iff, h.counts,
    h.error_iff, h.tokens, h.recv, h.ended, h.history⟩
  · rw [← h.flight, Drain.inFlight, Multiset.coe_eq_coe.mpr hflight]
  · exact h.active.trans (hflight.map Task.key).symm

/-- No step panics, and every step keeps the invariant and lowers the work left. -/
theorem Splits.step (h : Splits units jobs out done stale s)
    {next : Except JobPanic (Drain K J P E)} (hstep : s.Step units next) :
    ∃ s' out' done' stale', next = .ok s' ∧ Splits units jobs out' done' stale' s' ∧
      work jobs s' < work jobs s := by
  cases hstep with
  | dequeue ho hphase =>
    obtain ⟨s', out', hrun, hsplits, hwork⟩ := h.dequeueUnit hphase ho
    exact ⟨s', out', done, stale, hrun, hsplits, hwork⟩
  | start result hphase =>
    obtain ⟨s', hrun, hsplits, hwork⟩ := h.startJob hphase result
    exact ⟨s', out, done, stale, hrun, hsplits, hwork⟩
  | recv ho hphase hchannel =>
    obtain ⟨s', done', stale', hrun, hsplits, hwork⟩ := h.receive hphase ho hchannel
    exact ⟨s', out, done', stale', hrun, hsplits, hwork⟩
  | @job before after task result hrunning =>
    refine ⟨_, out, done, stale, rfl, h.of_inFlight ?_, ?_⟩
    · simp only [Drain.inFlight, hrunning, finishing_append, finishing_finish, finishing_nil]
      rw [← List.append_assoc]
      refine (List.perm_append_singleton _ _).trans ?_
      rw [List.append_assoc, List.append_assoc, List.cons_append]
      exact List.perm_middle.symm
    · simp only [work, hrunning, List.length_append, List.length_cons, List.length_nil]
      omega
  | helper hrequested =>
    refine ⟨_, out, done, stale, rfl, h.of_inFlight ?_, ?_⟩
    · simp [Drain.inFlight]
    · simp only [work, hrequested, List.length_append, List.length_cons, List.length_nil]
      omega

end Steps

/-! ### Whole runs -/

/-- What a run of the job queue promises in the state `s`. -/
structure Guarantees (units : Units K P) (jobs : List (K × J × Freshness))
    (s : Drain K J P E) : Prop where
  /-- No underflow, no failed assertion, no missing entry. -/
  no_panic : ∀ next, s.Step units next → ∃ s', next = .ok s'
  /-- Until the function returns, somebody can move. -/
  not_stuck : (∀ r, s.phase ≠ .done r) → ∃ next, s.Step units next
  /-- Every step lowers the work that is left, so no run goes on for ever. -/
  terminates : ∀ s', s.Step units (.ok s') → work jobs s' < work jobs s
  /-- The active keys are those of the jobs under way. -/
  active : s.self.active.Perm (s.inFlight.map Task.key)
  /-- There is one job under way more than there are tokens, at most. -/
  active_le : s.inFlight.length ≤ s.tokens + 1
  /-- No job is started twice, and each is started with the right freshness. -/
  started_le : (startedTasks s.log : Multiset (Task K J)) ≤ tasks units jobs
  /-- A job is run dirty exactly if it was enqueued dirty or some job of a transitive
  dependency was. -/
  dirty_iff : ∀ task ∈ startedTasks s.log, ∃ freshness, (task.key, task.job, freshness) ∈ jobs ∧
    (task.fresh = .dirty ↔ freshness = .dirty ∨ Tainted units jobs task.key)
  /-- Dependencies first, and nothing after a failure. -/
  history : History units jobs s.log
  /-- The loop ends only when no job is running. -/
  idle : ∀ r, s.phase = .done r → s.running = [] ∧ finishing s.channel = []
  /-- The build succeeds exactly if every job was started and succeeded. -/
  ok_iff : ∀ r, s.phase = .done r → (r = .ok () ↔
    (startedTasks s.log : Multiset (Task K J)) = tasks units jobs ∧
      (succeededTasks s.log : Multiset (Task K J)) = tasks units jobs)

section Runs

variable {units : Units K P} {jobs : List (K × J × Freshness)} {out done stale : Finset K}
  {s : Drain K J P E}

omit [DecidableEq P] in
theorem key_mem_of_mem_tasks {task : Task K J} (h : task ∈ tasks units jobs) :
    task.key ∈ (planOf units jobs).keys := by
  obtain ⟨entry, hentry, rfl⟩ := List.mem_map.mp (Multiset.mem_coe.mp h)
  exact mem_planOf_keys.mpr ⟨entry, hentry, rfl⟩

/-- The dependency queue is empty exactly when all tasks have succeeded. -/
theorem Splits.isEmpty_iff (h : Splits units jobs out done stale s) :
    s.self.queue.isEmpty = true ↔
      (succeededTasks s.log : Multiset (Task K J)) = tasks units jobs := by
  simp only [DependencyQueue.isEmpty, decide_eq_true_eq]
  constructor
  · rintro ⟨hkeys, hpending⟩
    -- no key is left to be handed out, and none is pending
    have hall : ∀ k ∈ (planOf units jobs).keys, k ∈ done := by
      intro k hk
      have hout : k ∈ out := by
        by_contra hout
        have := Finmap.mem_keys.mpr ((h.tracks.mem_depMap k).mpr ⟨hk, hout⟩)
        simp [hkeys] at this
      by_contra hdone
      have : k ∈ s.self.queue.pending := by
        rw [h.tracks.pending_eq, Finset.mem_sdiff]
        exact ⟨hout, hdone⟩
      simp [hpending] at this
    classical
    ext a
    by_cases ha : a.key ∈ (planOf units jobs).keys
    · have hcount := congrArg (Multiset.count a) (h.succeeded_of_done (hall _ ha))
      simpa [Multiset.count_filter] using hcount
    · have hnone : a ∉ tasks units jobs := fun hmem => ha (key_mem_of_mem_tasks hmem)
      rw [Multiset.count_eq_zero.mpr hnone, Multiset.count_eq_zero]
      exact fun hmem =>
        hnone (Multiset.mem_of_le (h.succeeded_le.trans (Multiset.filter_le _ _)) hmem)
  · intro hall
    have hout : ∀ k ∈ (planOf units jobs).keys, k ∈ out := by
      intro k hk
      obtain ⟨entry, hentry, rfl⟩ := mem_planOf_keys.mp hk
      have hmem : taskOf units jobs entry ∈ tasks units jobs :=
        Multiset.mem_coe.mpr (List.mem_map.mpr ⟨entry, hentry, rfl⟩)
      rw [← hall] at hmem
      exact (Multiset.mem_filter.mp (Multiset.mem_of_le h.succeeded_le hmem)).2
    refine ⟨?_, ?_⟩
    · rw [Finset.eq_empty_iff_forall_notMem]
      intro k hk
      obtain ⟨hkeys, hnot⟩ := (h.tracks.mem_depMap k).mp (Finmap.mem_keys.mp hk)
      exact hnot (hout k hkeys)
    · rw [h.tracks.pending_eq, Finset.sdiff_eq_empty_iff_subset]
      intro k hk
      refine (h.done_iff k).mpr ⟨hk, ?_⟩
      rw [← hall, Multiset.coe_countP]

theorem Splits.inFlight_of_active (h : Splits units jobs out done stale s)
    (hactive : s.self.active = []) : s.inFlight = [] := by
  have hperm := h.active
  rw [hactive, List.nil_perm, List.map_eq_nil_iff] at hperm
  exact hperm

/-- Until the function returns, some party has a step to take. -/
theorem Splits.exists_step (h : Splits units jobs out done stale s) (ho : HashOrder K)
    (hphase : ∀ r, s.phase ≠ .done r) : ∃ next, s.Step units next := by
  cases hp : s.phase with
  | dequeue => exact ⟨_, .dequeue ho hp⟩
  | start => exact ⟨_, .start (.ok ()) hp⟩
  | done r => exact absurd hp (hphase r)
  | recv =>
    cases hchannel : s.channel with
    | cons message rest => exact ⟨_, .recv ho hp hchannel⟩
    | nil =>
      -- Nothing is on its way, so the job that is waited for is still running.
      have hlength : 0 < s.running.length := by
        have hactive := h.active.length_eq
        have hrecv := h.recv hp
        simp only [Drain.inFlight, hchannel, finishing_nil, List.append_nil, List.length_map]
          at hactive
        omega
      obtain ⟨task, rest, hrunning⟩ := List.exists_cons_of_length_pos hlength
      have hsplit : s.running = [] ++ task :: rest := hrunning
      exact ⟨_, .job (.ok ()) hsplit⟩

/-- The guarantees are read off the invariant. -/
theorem Splits.guarantees (h : Splits units jobs out done stale s) (ho : HashOrder K) :
    Guarantees units jobs s := by
  have hstarted : (startedTasks s.log : Multiset (Task K J)) ≤ tasks units jobs :=
    h.started_le.trans (Multiset.filter_le _ _)
  refine ⟨?_, h.exists_step ho, ?_, h.active, ?_, hstarted, ?_, h.history, ?_, ?_⟩
  · intro next hstep
    obtain ⟨s', -, -, -, hnext, -, -⟩ := h.step hstep
    exact ⟨s', hnext⟩
  · intro s' hstep
    obtain ⟨s'', -, -, -, hs'', -, hwork⟩ := h.step hstep
    cases hs''
    exact hwork
  · have hlength := h.active.length_eq
    have htokens := h.tokens
    rw [List.length_map] at hlength
    omega
  · intro task htask
    have hmem := Multiset.mem_of_le hstarted (Multiset.mem_coe.mpr htask)
    obtain ⟨⟨key, job, freshness⟩, hentry, rfl⟩ := List.mem_map.mp (Multiset.mem_coe.mp hmem)
    exact ⟨freshness, hentry, runFreshness_eq_dirty⟩
  · intro r hr
    have hflight := h.inFlight_of_active (h.ended r hr).1
    simpa [Drain.inFlight] using hflight
  · intro r hr
    obtain ⟨hactive, hresult⟩ := h.ended r hr
    -- a build ends well exactly if its queue is empty
    have hok : r = .ok () ↔ s.self.queue.isEmpty = true := by
      rw [hresult, Drain.outcome]
      split
      · simp_all
      · split <;> simp_all
    rw [hok, h.isEmpty_iff]
    constructor
    · intro hall
      refine ⟨le_antisymm hstarted ?_, hall⟩
      rw [← hall, ← h.flight, add_right_comm]
      exact Multiset.le_add_left _ _
    · exact fun hall => hall.2

end Runs

/-- The state in which `drain_the_queue` is entered. -/
theorem exists_execute {units : Units K P} {jobs : List (K × J × Freshness)} (ho : HashOrder K)
    (hacyclic : Acyclic (planOf units jobs).Dependent) :
    ∃ s : Drain K J P E, (JobQueue.enqueueAll units jobs).execute ho = .ok s ∧
      Splits units jobs ∅ ∅ ∅ s := by
  have henq := enqueued_enqueueAll units jobs
  obtain ⟨q, hfinished, htracks, hvalue⟩ := henq.queued.exists_queueFinished hacyclic ho
  refine ⟨.init { JobQueue.enqueueAll units jobs with queue := q }, ?_, ?_⟩
  · simp [JobQueue.execute, hfinished, Except.mapError, bind, Except.bind]
  · refine ⟨htracks, ?_, ?_, rfl, ?_, by simp, by simp, by simp, ?_, by simp [Drain.init,
      failedTasks], ?_, by simp [Drain.init], by simp [Drain.init], ?_⟩
    · intro k hk _
      rw [← henq.value k hk]
      exact congrFun hvalue k
    · simp [Drain.init, startedTasks]
    · simp [Drain.init, henq.active, Drain.inFlight]
    · simpa [Drain.init, startedTasks] using henq.counts
    · simp [Drain.init, henq.active]
    · exact ⟨by simp [Drain.init], by simp [Drain.init]⟩

/-- Every state that a run on acyclic jobs can reach meets the guarantees, whatever the
order of the messages. -/
theorem drain_guarantees (units : Units K P) (ho : HashOrder K)
    (jobs : List (K × J × Freshness)) (hacyclic : Acyclic (planOf units jobs).Dependent) :
    ∃ s₀ : Drain K J P E, (JobQueue.enqueueAll units jobs).execute ho = .ok s₀ ∧
      ∀ s, Drain.Reachable units s₀ s → Guarantees units jobs s := by
  obtain ⟨s₀, hexec, hinit⟩ := exists_execute ho hacyclic
  refine ⟨s₀, hexec, fun s hreach => ?_⟩
  have hinv : ∃ out done stale, Splits units jobs out done stale s := by
    induction hreach with
    | refl => exact ⟨_, _, _, hinit⟩
    | tail _ hstep ih =>
      obtain ⟨out, done, stale, h⟩ := ih
      obtain ⟨s', out', done', stale', hs', h', -⟩ := h.step hstep
      cases hs'
      exact ⟨out', done', stale', h'⟩
  obtain ⟨out, done, stale, h⟩ := hinv
  exact h.guarantees ho

/-- A library and a program: the program's key has two jobs and needs the library. -/
def libAndBin : Units ℕ Unit where
  pkg _ := ()
  dependencies k := if k = 1 then [0] else []

theorem drain_guarantees_libAndBin :
    ∃ s₀ : Drain ℕ String Unit String,
      (JobQueue.enqueueAll libAndBin
        [(1, "bin", .fresh), (0, "lib", .dirty), (1, "test", .fresh)]).execute
          (HashOrder.ascending ℕ) = .ok s₀ ∧
      ∀ s, Drain.Reachable libAndBin s₀ s → Guarantees libAndBin
        [(1, "bin", .fresh), (0, "lib", .dirty), (1, "test", .fresh)] s := by
  refine drain_guarantees libAndBin _ _ (Acyclic.swap (acyclic_of_rank id ?_))
  rintro k d ⟨-, hd⟩
  have hd' : d ∈ libAndBin.dependencies k := List.mem_toFinset.mp hd
  by_cases hk : k = 1
  · subst hk
    have : d = 0 := by simpa [libAndBin] using hd'
    simp [this]
  · simp [libAndBin, hk] at hd'

end Cargo.Compiler
