import Cargo.Util.LockServer

/-!
# Invariants of the lock server

A name has at most one thread that is still going, since a new one is started only after the
old one has been joined. So the queue of this thread has everyone who is waiting, and only the
client it serves can hold the lock.

## Main definitions

* `Threads` — entries, handles and threads
* `Accounts` — who had a turn and who is waiting
* `Sockets` — connections and the names read from them

## Main results

* `Threads.step`, `Accounts.step`, `Sockets.step`
-/

set_option autoImplicit false

namespace Cargo.Util.LockServer

variable {C : Type}

/-- The clients of a name in a record of what happened. -/
def clientsOf (log : List (List UInt8 × C)) (name : List UInt8) : List C :=
  (log.filter fun entry => entry.1 = name).map Prod.snd

@[simp] theorem clientsOf_append (log log' : List (List UInt8 × C)) (name : List UInt8) :
    clientsOf (log ++ log') name = clientsOf log name ++ clientsOf log' name := by
  simp [clientsOf]

@[simp] theorem clientsOf_self (name : List UInt8) (c : C) : clientsOf [(name, c)] name = [c] := by
  simp [clientsOf]

theorem clientsOf_of_ne {name name' : List UInt8} (h : name ≠ name') (c : C) :
    clientsOf [(name, c)] name' = [] := by
  simp [clientsOf, h]

theorem mem_clientsOf {log : List (List UInt8 × C)} {name : List UInt8} {c : C} :
    c ∈ clientsOf log name ↔ (name, c) ∈ log := by
  simp [clientsOf]

/-- The accept loop has not ended. -/
def AcceptPhase.looping : AcceptPhase C → Bool
  | .draining | .drainJoin _ | .ended => false
  | _ => true

/-- The client that the accept loop has read the name of. -/
def AcceptPhase.held (name : List UInt8) : AcceptPhase C → List C
  | .named c name' => if name' = name then [c] else []
  | .joining c name' _ _ => if name' = name then [c] else []
  | _ => []

/-- The elements of a list after one was replaced. -/
theorem getElem?_set_cases {α : Type} {l : List α} {a b : α} {i j : ℕ}
    (h : (l.set i a)[j]? = some b) : (j = i ∧ b = a) ∨ (j ≠ i ∧ l[j]? = some b) := by
  grind

/-! ### Threads -/

/-- The entries of the accept loop, and the threads. -/
structure Threads (s : State C) : Prop where
  entry : ∀ name sc, s.threads.lookup name = some sc →
    (∃ w, s.workers[sc.lock]? = some w ∧ w.name = name) ∧
      (sc.thread = some sc.lock ∨ ∃ c, s.phase = .joining c name sc.lock sc.lock)
  joining : ∀ c name lock thread, s.phase = .joining c name lock thread →
    thread = lock ∧ s.threads.lookup name = some ⟨none, lock⟩ ∧
      ∃ w, s.workers[lock]? = some w ∧ w.running = false
  /-- While the loop goes on, a thread that is not finished is that of its name. -/
  current : ∀ (i : ℕ) (w : Worker C), s.workers[i]? = some w → w.phase ≠ .finished →
    s.phase.looping = true →
    ∃ thread, s.threads.lookup w.name = some ⟨thread, i⟩
  unique : ∀ (i j : ℕ) (w w' : Worker C), s.workers[i]? = some w → s.workers[j]? = some w' →
    w.phase ≠ .finished → w'.phase ≠ .finished → w.name = w'.name → i = j
  running_iff : ∀ (i : ℕ) (w : Worker C), s.workers[i]? = some w →
    (w.running = true ↔ w.phase ≠ .exiting ∧ w.phase ≠ .finished)
  stopped_empty : ∀ (i : ℕ) (w : Worker C), s.workers[i]? = some w → w.running = false →
    w.queue = []
  handle : s.phase ≠ .panicked

theorem threads_init : Threads (State.init : State C) := by
  constructor <;> simp [State.init]

namespace Threads

variable {s : State C}

/-- Replace the state of a thread by a later one. -/
theorem setWorker (h : Threads s) {i : ℕ} {w : Worker C} (w' : Worker C)
    (hw : s.workers[i]? = some w) (hname : w'.name = w.name)
    (hlive : w'.phase ≠ .finished → w.phase ≠ .finished)
    (hrunning : w'.running = true → w.running = true)
    (hiff : w'.running = true ↔ w'.phase ≠ .exiting ∧ w'.phase ≠ .finished)
    (hempty : w'.running = false → w'.queue = []) : Threads (s.setWorker i w') := by
  -- every thread has a predecessor of the same name, which was live if it is
  have hprev : ∀ (j : ℕ) (v : Worker C), (s.workers.set i w')[j]? = some v →
      ∃ u, s.workers[j]? = some u ∧ u.name = v.name ∧
        (v.phase ≠ .finished → u.phase ≠ .finished) := by
    intro j v hv
    rcases getElem?_set_cases hv with ⟨rfl, rfl⟩ | ⟨hne, hv⟩
    · exact ⟨w, hw, hname.symm, hlive⟩
    · exact ⟨v, hv, rfl, id⟩
  have hnext : ∀ (j : ℕ) (u : Worker C), s.workers[j]? = some u →
      ∃ v, (s.workers.set i w')[j]? = some v ∧
      v.name = u.name ∧ (v.running = true → u.running = true) := by
    intro j u hu
    by_cases hj : j = i
    · subst hj
      rw [hw, Option.some.injEq] at hu
      subst hu
      refine ⟨w', ?_, hname, hrunning⟩
      grind
    · refine ⟨u, ?_, rfl, id⟩
      grind
  constructor
  · intro name sc hsc
    obtain ⟨⟨u, hu, huname⟩, hhandle⟩ := h.entry name sc hsc
    obtain ⟨v, hv, hvname, -⟩ := hnext sc.lock u hu
    exact ⟨⟨v, hv, hvname.trans huname⟩, hhandle⟩
  · intro c name lock thread hphase
    obtain ⟨heq, hlookup, u, hu, hustop⟩ := h.joining c name lock thread hphase
    obtain ⟨v, hv, -, hvrunning⟩ := hnext lock u hu
    refine ⟨heq, hlookup, v, hv, ?_⟩
    rw [Bool.eq_false_iff] at hustop ⊢
    exact fun hrun => hustop (hvrunning hrun)
  · intro j v hv hvlive hloop
    obtain ⟨u, hu, huname, hulive⟩ := hprev j v hv
    rw [← huname]
    exact h.current j u hu (hulive hvlive) hloop
  · intro j k v v' hv hv' hvlive hvlive' hsame
    obtain ⟨u, hu, huname, hulive⟩ := hprev j v hv
    obtain ⟨u', hu', huname', hulive'⟩ := hprev k v' hv'
    exact h.unique j k u u' hu hu' (hulive hvlive) (hulive' hvlive')
      (huname.trans (hsame.trans huname'.symm))
  · intro j v hv
    rcases getElem?_set_cases hv with ⟨-, rfl⟩ | ⟨-, hv⟩
    · exact hiff
    · exact h.running_iff j v hv
  · intro j v hv
    rcases getElem?_set_cases hv with ⟨-, rfl⟩ | ⟨-, hv⟩
    · exact hempty
    · exact h.stopped_empty j v hv
  · exact h.handle

/-- A running thread goes on. -/
theorem setRunning (h : Threads s) {i : ℕ} {w : Worker C} (hw : s.workers[i]? = some w)
    (hrunning : w.running = true) (queue : List C) {phase : WorkerPhase C}
    (hphase : phase ≠ .exiting ∧ phase ≠ .finished) :
    Threads (s.setWorker i { w with queue, phase }) := by
  have hlive := (h.running_iff i w hw).mp hrunning
  apply h.setWorker _ hw
  · rfl
  · exact fun _ => hlive.2
  · exact id
  · simp [hrunning, hphase]
  · simp [hrunning]

/-- Start a thread for a name that has no live one. -/
theorem spawn (h : Threads s) {c : C} {name : List UInt8} (hloop : s.phase.looping = true)
    (hnone : ∀ (i : ℕ) (w : Worker C), s.workers[i]? = some w → w.name = name → w.phase = .finished)
    (hother : ∀ c' name' lock thread, s.phase = .joining c' name' lock thread → name' = name) :
    Threads (s.spawn c name) := by
  -- the new thread comes last
  have hget : ∀ (j : ℕ) (v : Worker C), (s.workers ++ [⟨name, true, [c], .idle⟩])[j]? = some v →
      (j = s.workers.length ∧ v = ⟨name, true, [c], .idle⟩) ∨
        (j < s.workers.length ∧ s.workers[j]? = some v) := by grind
  constructor
  · intro name' sc hsc
    by_cases hname : name' = name
    · subst hname
      rw [State.spawn, Finmap.lookup_insert, Option.some.injEq] at hsc
      subst hsc
      exact ⟨⟨⟨name', true, [c], .idle⟩, by simp [State.spawn]⟩, .inl rfl⟩
    · rw [State.spawn, Finmap.lookup_insert_of_ne _ hname] at hsc
      obtain ⟨⟨w, hw, hwname⟩, hhandle⟩ := h.entry name' sc hsc
      refine ⟨⟨w, ?_, hwname⟩, .inl (hhandle.resolve_right ?_)⟩
      · rw [State.spawn, List.getElem?_append_left (List.getElem?_eq_some_iff.mp hw).1]
        exact hw
      · rintro ⟨c', hphase⟩
        exact hname (hother _ _ _ _ hphase)
  · intro c' name' lock thread hphase
    cases hphase
  · intro j v hv hlive _
    rcases hget j v hv with ⟨rfl, rfl⟩ | ⟨-, hv⟩
    · exact ⟨some s.workers.length, Finmap.lookup_insert _⟩
    · obtain ⟨thread, hlookup⟩ := h.current j v hv hlive hloop
      refine ⟨thread, ?_⟩
      rw [State.spawn, Finmap.lookup_insert_of_ne _ fun hname => hlive (hnone j v hv hname)]
      exact hlookup
  · intro j k v v' hv hv' hlive hlive' hsame
    rcases hget j v hv with ⟨rfl, rfl⟩ | ⟨-, hv⟩ <;> rcases hget k v' hv' with ⟨rfl, rfl⟩ | ⟨-, hv'⟩
    · rfl
    · exact absurd (hnone k v' hv' hsame.symm) hlive'
    · exact absurd (hnone j v hv hsame) hlive
    · exact h.unique j k v v' hv hv' hlive hlive' hsame
  · intro j v hv
    rcases hget j v hv with ⟨-, rfl⟩ | ⟨-, hv⟩
    · simp
    · exact h.running_iff j v hv
  · intro j v hv
    rcases hget j v hv with ⟨-, rfl⟩ | ⟨-, hv⟩
    · simp
    · exact h.stopped_empty j v hv
  · intro hphase
    cases hphase

/-- The accept loop goes on without touching threads or entries. -/
theorem setPhase (h : Threads s) (phase : AcceptPhase C)
    (hold : ∀ c name lock thread, s.phase ≠ .joining c name lock thread)
    (hnew : ∀ c name lock thread, phase ≠ .joining c name lock thread)
    (hloop : phase.looping = true → s.phase.looping = true) (hhandle : phase ≠ .panicked) :
    Threads { s with phase } where
  entry name sc hsc := by
    obtain ⟨hw, hthread⟩ := h.entry name sc hsc
    refine ⟨hw, .inl (hthread.resolve_right ?_)⟩
    rintro ⟨c, hphase⟩
    exact hold _ _ _ _ hphase
  joining c name lock thread hphase := absurd hphase (hnew c name lock thread)
  current i w hw hlive hphase := h.current i w hw hlive (hloop hphase)
  unique := h.unique
  running_iff := h.running_iff
  stopped_empty := h.stopped_empty
  handle := hhandle

variable {s' : State C}

/-- A name without an entry has no live thread. -/
theorem finished_of_none (h : Threads s) (hloop : s.phase.looping = true) {name : List UInt8}
    (hnone : s.threads.lookup name = none) {i : ℕ} {w : Worker C} (hw : s.workers[i]? = some w)
    (hname : w.name = name) : w.phase = .finished := by
  by_contra hlive
  obtain ⟨thread, hlookup⟩ := h.current i w hw hlive hloop
  rw [hname, hnone] at hlookup
  cases hlookup

/-- Once the thread that the accept loop waits for has finished, its name has no live one. -/
theorem finished_of_joined (h : Threads s) {c : C} {name : List UInt8} {lock thread : ℕ}
    (hphase : s.phase = .joining c name lock thread) {v : Worker C}
    (hv : s.workers[thread]? = some v) (hfinished : v.phase = .finished) {i : ℕ} {w : Worker C}
    (hw : s.workers[i]? = some w) (hname : w.name = name) : w.phase = .finished := by
  by_contra hlive
  obtain ⟨rfl, hentry, -⟩ := h.joining c name lock thread hphase
  obtain ⟨t, hlookup⟩ := h.current i w hw hlive (by rw [hphase]; rfl)
  rw [hname, hentry, Option.some.injEq, ServerClient.mk.injEq] at hlookup
  rw [← hlookup.2, hv, Option.some.injEq] at hw
  exact hlive (hw ▸ hfinished)

theorem workerStep {i : ℕ} (h : Threads s) (hstep : WorkerStep i s s') : Threads s' := by
  have hrun : ∀ w, s.workers[i]? = some w → w.phase ≠ .exiting ∧ w.phase ≠ .finished →
      w.running = true := fun w hw hphase => (h.running_iff i w hw).mpr hphase
  cases hstep with
  | @remove w c queue hw hphase hlock hqueue =>
    have hset := h.setRunning hw (hrun w hw (by simp [hphase])) queue
      (show WorkerPhase.granting c ≠ .exiting ∧ _ by simp)
    exact { hset with }
  -- a thread stops only when its queue is empty
  | @isEmpty w hw hphase hlock hqueue =>
    apply h.setWorker _ hw
    · rfl
    · simp [hphase]
    · simp
    · simp
    · exact fun _ => hqueue
  | @write w c hw hphase =>
    have hset := h.setRunning hw (hrun w hw (by simp [hphase])) w.queue
      (show WorkerPhase.serving c ≠ .exiting ∧ _ by simp)
    exact { hset with }
  | @writeFails w c hw hphase =>
    exact h.setRunning hw (hrun w hw (by simp [hphase])) w.queue (by simp)
  | @readToEnd w c conn hw hphase hconn hclosed =>
    exact h.setRunning hw (hrun w hw (by simp [hphase])) w.queue (by simp)
  | @exit w hw hphase =>
    have hstopped : w.running = false := by
      rw [Bool.eq_false_iff]
      exact fun hrunning => ((h.running_iff i w hw).mp hrunning).1 hphase
    apply h.setWorker _ hw
    · rfl
    · simp
    · exact id
    · simp [hstopped]
    · exact fun _ => h.stopped_empty i w hw hstopped

/-- The accept loop takes the handle of a thread that has stopped. -/
theorem take (h : Threads s) {c : C} {name : List UInt8} {sc : ServerClient} {w : Worker C}
    {thread : ℕ} (hphase : s.phase = .named c name) (hsc : s.threads.lookup name = some sc)
    (hw : s.workers[sc.lock]? = some w) (hrunning : w.running = false)
    (hthread : sc.thread = some thread) :
    Threads { s with
      threads := s.threads.insert name { sc with thread := none }
      phase := .joining c name sc.lock thread } := by
  have hsome : ∀ name' sc', s.threads.lookup name' = some sc' → sc'.thread = some sc'.lock := by
    intro name' sc' hsc'
    refine (h.entry name' sc' hsc').2.resolve_right ?_
    rintro ⟨c', hjoining⟩
    rw [hphase] at hjoining
    cases hjoining
  -- an entry has the handle of its own thread
  have hlock : thread = sc.lock := by
    have := hsome name sc hsc
    rw [hthread] at this
    exact Option.some.inj this
  subst hlock
  constructor
  · intro name' sc' hsc'
    by_cases hname : name' = name
    · subst hname
      rw [Finmap.lookup_insert, Option.some.injEq] at hsc'
      subst hsc'
      exact ⟨(h.entry name' sc hsc).1, .inr ⟨c, rfl⟩⟩
    · rw [Finmap.lookup_insert_of_ne _ hname] at hsc'
      exact ⟨(h.entry name' sc' hsc').1, .inl (hsome name' sc' hsc')⟩
  · intro c' name' lock' thread' hjoining
    cases hjoining
    exact ⟨rfl, Finmap.lookup_insert _, w, hw, hrunning⟩
  · intro i v hv hlive _
    obtain ⟨t, hlookup⟩ := h.current i v hv hlive (by rw [hphase]; rfl)
    by_cases hname : v.name = name
    · rw [hname, hsc, Option.some.injEq] at hlookup
      refine ⟨none, ?_⟩
      rw [hname, Finmap.lookup_insert, hlookup]
    · refine ⟨t, ?_⟩
      rw [Finmap.lookup_insert_of_ne _ hname]
      exact hlookup
  · exact h.unique
  · exact h.running_iff
  · exact h.stopped_empty
  · intro hpanicked
    cases hpanicked

/-- An entry is dropped after the loop. -/
theorem drain (h : Threads s) {name : List UInt8} {phase : AcceptPhase C}
    (hphase : s.phase = .draining)
    (hdrain : phase = .draining ∨ ∃ thread, phase = .drainJoin thread) :
    Threads { s with threads := s.threads.erase name, phase } := by
  have hnot : phase.looping = false ∧ phase ≠ .panicked ∧
      ∀ c name lock thread, phase ≠ .joining c name lock thread := by
    rcases hdrain with rfl | ⟨thread, rfl⟩ <;> simp [AcceptPhase.looping]
  constructor
  · intro name' sc hsc
    by_cases hname : name' = name
    · subst hname
      rw [Finmap.lookup_erase] at hsc
      cases hsc
    · rw [Finmap.lookup_erase_ne hname] at hsc
      obtain ⟨hw, hthread⟩ := h.entry name' sc hsc
      refine ⟨hw, .inl (hthread.resolve_right ?_)⟩
      rintro ⟨c, hjoining⟩
      rw [hphase] at hjoining
      cases hjoining
  · exact fun c name' lock thread hjoining => absurd hjoining (hnot.2.2 c name' lock thread)
  · intro i w hw hlive hloop
    rw [hnot.1] at hloop
    cases hloop
  · exact h.unique
  · exact h.running_iff
  · exact h.stopped_empty
  · exact hnot.2.1

variable [DecidableEq C]

theorem acceptStep (h : Threads s) (hstep : AcceptStep s s') : Threads s' := by
  cases hstep with
  | @accept c hphase hc hdone =>
    have hset := h.setPhase (.reading c) (by simp [hphase]) (by simp)
      (by simp [hphase, AcceptPhase.looping]) (by simp)
    exact { hset with }
  | stop hphase hc hdone =>
    have hset := h.setPhase .draining (by simp [hphase]) (by simp)
      (by simp [AcceptPhase.looping]) (by simp)
    exact { hset with }
  | @readLine c conn hphase hconn hline =>
    have hset := h.setPhase (.named c (readLine conn.sent)) (by simp [hphase]) (by simp)
      (by simp [hphase, AcceptPhase.looping]) (by simp)
    exact { hset with }
  | @push c name sc w hphase hsc hw hrunning =>
    have hset := h.setRunning hw hrunning (w.queue ++ [c])
      ((h.running_iff _ w hw).mp hrunning)
    exact hset.setPhase _ (by simp [State.setWorker, hphase]) (by simp)
      (by simp [State.setWorker, hphase, AcceptPhase.looping]) (by simp)
  | take hphase hsc hw hrunning hthread => exact h.take hphase hsc hw hrunning hthread
  | @unwrapNone c name sc w hphase hsc hw hrunning hthread =>
    -- the handle is there unless a thread is being joined, so that `unwrap` does not fail
    rcases (h.entry name sc hsc).2 with hsome | ⟨c', hjoining⟩
    · rw [hthread] at hsome
      cases hsome
    · rw [hphase] at hjoining
      cases hjoining
  | join hphase hw hfinished =>
    apply h.spawn (by rw [hphase]; rfl)
    · exact fun i w' hw' hname => h.finished_of_joined hphase hw hfinished hw' hname
    · intro c' name' lock' thread' hphase'
      rw [hphase] at hphase'
      cases hphase'
      rfl
  | start hphase hnone =>
    apply h.spawn (by rw [hphase]; rfl)
    · exact fun i w' hw' hname => h.finished_of_none (by rw [hphase]; rfl) hnone hw' hname
    · intro c' name' lock' thread' hphase'
      rw [hphase] at hphase'
      cases hphase'
  | @drain name sc hphase hsc =>
    apply h.drain hphase
    cases sc.thread with
    | none => exact .inl rfl
    | some thread => exact .inr ⟨thread, rfl⟩
  | drainJoin hphase hw hfinished =>
    exact h.setPhase _ (by simp [hphase]) (by simp) (by simp [AcceptPhase.looping]) (by simp)
  | drained hphase hnone =>
    exact h.setPhase _ (by simp [hphase]) (by simp) (by simp [AcceptPhase.looping]) (by simp)

theorem step (h : Threads s) (hstep : Step s s') : Threads s' := by
  cases hstep with
  | client c hstep =>
    cases hstep with
    | connect hnew => exact { h with }
    | send hconn hopen bytes => exact { h with }
    | disconnect hconn => exact { h with }
  | accept hstep => exact h.acceptStep hstep
  | fail hstep =>
    cases hstep with
    | accept hphase =>
      exact h.setPhase _ (by simp [hphase]) (by simp) (by simp [AcceptPhase.looping]) (by simp)
    | readLine hphase =>
      exact h.setPhase _ (by simp [hphase]) (by simp) (by simp [hphase, AcceptPhase.looping])
        (by simp)
  | worker i hstep => exact h.workerStep hstep
  | owner => exact { h with }

end Threads

/-! ### Clients in turn -/

/-- Those who wait for a name are in the queue of its running thread. -/
structure Waiting (workers : List (Worker C)) (name : List UInt8) (q : List C) : Prop where
  queue : ∀ (i : ℕ) (w : Worker C), workers[i]? = some w → w.running = true → w.name = name →
    w.queue = q
  running : q ≠ [] → ∃ (i : ℕ) (w : Worker C),
    workers[i]? = some w ∧ w.running = true ∧ w.name = name

/-- Every client whose name was read had its turn or waits for it, in the same order. -/
structure Accounts (s : State C) : Prop where
  accounted : ∀ name, ∃ q, Waiting s.workers name q ∧
    clientsOf s.registered name = clientsOf s.served name ++ q ++ s.phase.held name
  granting : ∀ (i : ℕ) (w : Worker C) (c : C), s.workers[i]? = some w → w.phase = .granting c →
    ∃ l, clientsOf s.served w.name = l ++ [c] ∧ (clientsOf s.granted w.name).Sublist l
  granted : ∀ name, (clientsOf s.granted name).Sublist (clientsOf s.served name)

theorem accounts_init : Accounts (State.init : State C) where
  accounted name := ⟨[], ⟨by simp [State.init], by simp⟩, rfl⟩
  granting := by simp [State.init]
  granted name := List.Sublist.refl _

namespace Waiting

variable {workers : List (Worker C)} {name : List UInt8} {q : List C} {i : ℕ} {w w' : Worker C}

/-- A step of the thread of another name. -/
theorem set_of_ne (h : Waiting workers name q) (hw : workers[i]? = some w) (hne : w.name ≠ name)
    (hname : w'.name = w.name) : Waiting (workers.set i w') name q where
  queue j v hv hrunning hvname := by
    apply h.queue j v _ hrunning hvname
    grind
  running hq := by
    obtain ⟨j, v, hv, hrunning, hvname⟩ := h.running hq
    refine ⟨j, v, ?_, hrunning, hvname⟩
    grind

/-- A step that leaves the queue as it is. -/
theorem set_of_eq (h : Waiting workers name q) (hw : workers[i]? = some w)
    (hname : w'.name = w.name) (hrun : w'.running = w.running) (hqueue : w'.queue = w.queue) :
    Waiting (workers.set i w') name q where
  queue j v hv hrunning hvname := by
    by_cases hj : j = i
    · subst hj
      have hv' : v = w' := by grind
      subst hv'
      rw [hqueue]
      exact h.queue j w hw (hrun ▸ hrunning) (hname ▸ hvname)
    · apply h.queue j v _ hrunning hvname
      grind
  running hq := by
    obtain ⟨j, v, hv, hrunning, hvname⟩ := h.running hq
    by_cases hj : j = i
    · subst hj
      rw [hw, Option.some.injEq] at hv
      subst hv
      exact ⟨j, w', by grind, hrun ▸ hrunning, hname ▸ hvname⟩
    · exact ⟨j, v, by grind, hrunning, hvname⟩

end Waiting

/-- A step of the thread of the name itself. -/
theorem Threads.waiting_set {s : State C} (h : Threads s) {i : ℕ} {w w' : Worker C}
    (hw : s.workers[i]? = some w) (hrunning : w.running = true) (hname : w'.name = w.name)
    (hstill : w'.queue ≠ [] → w'.running = true) :
    Waiting (s.workers.set i w') w.name w'.queue where
  queue j v hv hrun hvname := by
    by_cases hj : j = i
    · subst hj
      have hv' : v = w' := by grind
      rw [hv']
    · have hv' : s.workers[j]? = some v := by grind
      exact absurd (h.unique j i v w hv' hw ((h.running_iff j v hv').mp hrun).2
        ((h.running_iff i w hw).mp hrunning).2 hvname) hj
  running hq := ⟨i, w', by grind, hstill hq, hname⟩

/-- The running thread of a name has everyone in its queue. -/
theorem Accounts.accounted_of_running {s : State C} (h : Accounts s) {i : ℕ} {w : Worker C}
    (hw : s.workers[i]? = some w) (hrunning : w.running = true) :
    clientsOf s.registered w.name =
      clientsOf s.served w.name ++ w.queue ++ s.phase.held w.name := by
  obtain ⟨q, hq, heq⟩ := h.accounted w.name
  rw [hq.queue i w hw hrunning rfl]
  exact heq

namespace Accounts

variable {s s' : State C}

/-- A step of one live thread, which leaves the accounts of all other names as they are. -/
theorem of_set (h : Accounts s) (ht : Threads s) {i : ℕ} {w w' : Worker C}
    (hw : s.workers[i]? = some w) (hlive : w.phase ≠ .finished)
    (hworkers : s'.workers = s.workers.set i w') (hname : w'.name = w.name)
    (hregistered : s'.registered = s.registered)
    (hother : ∀ name, w.name ≠ name → clientsOf s'.served name = clientsOf s.served name ∧
      clientsOf s'.granted name = clientsOf s.granted name ∧
      s'.phase.held name = s.phase.held name)
    (haccounted : ∃ q, Waiting (s.workers.set i w') w.name q ∧ clientsOf s.registered w.name =
      clientsOf s'.served w.name ++ q ++ s'.phase.held w.name)
    (hgranting : ∀ c, w'.phase = .granting c → ∃ l, clientsOf s'.served w.name = l ++ [c] ∧
      (clientsOf s'.granted w.name).Sublist l)
    (hgranted : (clientsOf s'.granted w.name).Sublist (clientsOf s'.served w.name)) :
    Accounts s' := by
  constructor
  · intro name
    rw [hworkers, hregistered]
    by_cases hne : w.name = name
    · exact hne ▸ haccounted
    · obtain ⟨hserved, -, hheld⟩ := hother name hne
      obtain ⟨q, hq, heq⟩ := h.accounted name
      refine ⟨q, hq.set_of_ne hw hne hname, ?_⟩
      rw [hserved, hheld]
      exact heq
  · intro j v c hv hphase
    rw [hworkers] at hv
    rcases getElem?_set_cases hv with ⟨rfl, rfl⟩ | ⟨hj, hv⟩
    · rw [hname]
      exact hgranting c hphase
    · have hne : w.name ≠ v.name := by
        intro hsame
        exact hj (ht.unique j i v w hv hw (by simp [hphase]) hlive hsame.symm)
      obtain ⟨hserved, hgrants, -⟩ := hother v.name hne
      rw [hserved, hgrants]
      exact h.granting j v c hv hphase
  · intro name
    by_cases hne : w.name = name
    · exact hne ▸ hgranted
    · obtain ⟨hserved, hgrants, -⟩ := hother name hne
      rw [hserved, hgrants]
      exact h.granted name

/-- A live thread goes on, and its next phase is not that of a grant. -/
theorem setPhaseOf (h : Accounts s) (ht : Threads s) {i : ℕ} {w : Worker C}
    (hw : s.workers[i]? = some w) (hlive : w.phase ≠ .finished) {phase : WorkerPhase C}
    (hphase : ∀ c, phase ≠ .granting c) : Accounts (s.setWorker i { w with phase }) := by
  refine h.of_set ht hw hlive rfl rfl rfl ?_ ?_ ?_ ?_
  · exact fun name hne => ⟨rfl, rfl, rfl⟩
  · obtain ⟨q, hq, heq⟩ := h.accounted w.name
    exact ⟨q, hq.set_of_eq hw rfl rfl rfl, heq⟩
  · exact fun c hc => absurd hc (hphase c)
  · exact h.granted w.name

theorem workerStep {i : ℕ} (h : Accounts s) (ht : Threads s) (hstep : WorkerStep i s s') :
    Accounts s' := by
  cases hstep with
  | @remove w c queue hw hphase hlock hqueue =>
    have hrunning : w.running = true := (ht.running_iff i w hw).mpr (by simp [hphase])
    have heq := h.accounted_of_running hw hrunning
    refine h.of_set ht hw (by simp [hphase]) rfl rfl rfl ?_ ?_ ?_ ?_
    · intro name hne
      simp [clientsOf_of_ne hne]
    · refine ⟨queue, ht.waiting_set hw hrunning rfl (fun _ => hrunning), ?_⟩
      simpa [hqueue] using heq
    · rintro c' ⟨rfl⟩
      exact ⟨clientsOf s.served w.name, by simp, h.granted w.name⟩
    · simpa using (h.granted w.name).trans (List.sublist_append_left _ [c])
  | @isEmpty w hw hphase hlock hqueue =>
    have hrunning : w.running = true := (ht.running_iff i w hw).mpr (by simp [hphase])
    refine h.of_set ht hw (by simp [hphase]) rfl rfl rfl ?_ ?_ ?_ ?_
    · exact fun name hne => ⟨rfl, rfl, rfl⟩
    · exact ⟨w.queue, ht.waiting_set hw hrunning rfl (fun hq => absurd hqueue hq),
        h.accounted_of_running hw hrunning⟩
    · rintro c ⟨⟩
    · exact h.granted w.name
  | @write w c hw hphase =>
    -- the byte goes to the client that was served last
    obtain ⟨l, hserved, hsub⟩ := h.granting i w c hw hphase
    refine h.of_set ht hw (by simp [hphase]) rfl rfl rfl ?_ ?_ ?_ ?_
    · intro name hne
      simp [clientsOf_of_ne hne]
    · obtain ⟨q, hq, heq⟩ := h.accounted w.name
      exact ⟨q, hq.set_of_eq hw rfl rfl rfl, heq⟩
    · rintro c' ⟨⟩
    · simpa [hserved] using hsub.append (List.Sublist.refl [c])
  | @writeFails w c hw hphase =>
    exact h.setPhaseOf ht hw (by simp [hphase]) nofun
  | @readToEnd w c conn hw hphase hconn hclosed =>
    exact h.setPhaseOf ht hw (by simp [hphase]) nofun
  | @exit w hw hphase =>
    exact h.setPhaseOf ht hw (by simp [hphase]) nofun

/-- The accept loop goes on without a client whose name it has read. -/
theorem setPhase (h : Accounts s) (phase : AcceptPhase C)
    (hheld : ∀ name, phase.held name = s.phase.held name) : Accounts { s with phase } where
  accounted name := by
    obtain ⟨q, hq, heq⟩ := h.accounted name
    exact ⟨q, hq, (hheld name).symm ▸ heq⟩
  granting := h.granting
  granted := h.granted

/-- A new thread has the client that the accept loop had. -/
theorem spawn (h : Accounts s) (ht : Threads s) {c : C} {name : List UInt8}
    (hheld : ∀ name', s.phase.held name' = if name = name' then [c] else [])
    (hnone : ∀ (i : ℕ) (w : Worker C), s.workers[i]? = some w → w.name = name →
      w.phase = .finished) : Accounts (s.spawn c name) := by
  have hget : ∀ (j : ℕ) (v : Worker C),
      (s.workers ++ [⟨name, true, [c], .idle⟩])[j]? = some v →
        v = ⟨name, true, [c], .idle⟩ ∨ s.workers[j]? = some v := by grind
  have hstopped : ∀ (i : ℕ) (w : Worker C), s.workers[i]? = some w → w.running = true →
      w.name ≠ name := by
    intro i w hw hrunning hname
    exact ((ht.running_iff i w hw).mp hrunning).2 (hnone i w hw hname)
  constructor
  · intro name'
    obtain ⟨q, hq, heq⟩ := h.accounted name'
    rw [hheld] at heq
    by_cases hname : name = name'
    · subst hname
      -- nobody waits for a thread of this name, since there is none
      have hempty : q = [] := by
        by_contra hne
        obtain ⟨i, w, hw, hrunning, hwname⟩ := hq.running hne
        exact hstopped i w hw hrunning hwname
      subst hempty
      refine ⟨[c], ⟨?_, ?_⟩, by simpa [AcceptPhase.held] using heq⟩
      · intro j v hv hrunning hvname
        rcases hget j v hv with rfl | hv
        · rfl
        · exact absurd hvname (hstopped j v hv hrunning)
      · exact fun _ => ⟨s.workers.length, ⟨name, true, [c], .idle⟩, by simp, rfl, rfl⟩
    · refine ⟨q, ⟨?_, ?_⟩, by simpa [hname, AcceptPhase.held] using heq⟩
      · intro j v hv hrunning hvname
        rcases hget j v hv with rfl | hv
        · exact absurd hvname hname
        · exact hq.queue j v hv hrunning hvname
      · intro hne
        obtain ⟨j, v, hv, hrunning, hvname⟩ := hq.running hne
        refine ⟨j, v, ?_, hrunning, hvname⟩
        rw [State.spawn_workers, List.getElem?_append_left (List.getElem?_eq_some_iff.mp hv).1]
        exact hv
  · intro j v c' hv hphase
    rcases hget j v hv with rfl | hv
    · cases hphase
    · exact h.granting j v c' hv hphase
  · exact h.granted

variable [DecidableEq C]

theorem acceptStep (h : Accounts s) (ht : Threads s) (hstep : AcceptStep s s') : Accounts s' := by
  cases hstep with
  | @accept c hphase hc hdone =>
    exact { h.setPhase (.reading c) (fun name => by rw [hphase]; rfl) with }
  | stop hphase hc hdone =>
    exact { h.setPhase .draining (fun name => by rw [hphase]; rfl) with }
  | @readLine c conn hphase hconn hline =>
    refine ⟨?_, h.granting, h.granted⟩
    intro name
    obtain ⟨q, hq, heq⟩ := h.accounted name
    have heq' : clientsOf s.registered name = clientsOf s.served name ++ q := by
      simpa [AcceptPhase.held, hphase] using heq
    refine ⟨q, hq, ?_⟩
    by_cases hname : readLine conn.sent = name
    · simp [AcceptPhase.held, hname, heq']
    · simp [AcceptPhase.held, hname, clientsOf_of_ne hname, heq']
  | @push c name sc w hphase hsc hw hrunning =>
    have hlive := ((ht.running_iff _ w hw).mp hrunning).2
    obtain ⟨⟨w₀, hw₀, hname⟩, -⟩ := ht.entry name sc hsc
    rw [hw, Option.some.injEq] at hw₀
    subst hw₀
    have heq := h.accounted_of_running hw hrunning
    refine h.of_set ht hw hlive rfl rfl rfl ?_ ?_ ?_ ?_
    · intro name' hne
      simp [AcceptPhase.held, hphase, ← hname, hne]
    · refine ⟨w.queue ++ [c], ht.waiting_set hw hrunning rfl (fun _ => hrunning), ?_⟩
      simpa [AcceptPhase.held, hphase, hname] using heq
    · exact fun c' hgranting => h.granting _ w c' hw hgranting
    · exact h.granted w.name
  | take hphase hsc hw hrunning hthread =>
    exact { h.setPhase (.joining _ _ _ _) (fun name => by rw [hphase]; rfl) with }
  | unwrapNone hphase hsc hw hrunning hthread =>
    exact absurd rfl (ht.acceptStep (.unwrapNone hphase hsc hw hrunning hthread)).handle
  | join hphase hw hfinished =>
    apply h.spawn ht
    · intro name'
      rw [hphase]
      rfl
    · exact fun i w' hw' hname => ht.finished_of_joined hphase hw hfinished hw' hname
  | start hphase hnone =>
    apply h.spawn ht
    · intro name'
      rw [hphase]
      rfl
    · exact fun i w' hw' hname => ht.finished_of_none (by rw [hphase]; rfl) hnone hw' hname
  | @drain name sc hphase hsc =>
    have hheld : ∀ name', (sc.thread.elim AcceptPhase.draining AcceptPhase.drainJoin :
        AcceptPhase C).held name' = s.phase.held name' := by
      intro name'
      rw [hphase]
      cases sc.thread <;> rfl
    exact { h.setPhase _ hheld with }
  | drainJoin hphase hw hfinished => exact h.setPhase _ fun name => by rw [hphase]; rfl
  | drained hphase hnone => exact h.setPhase _ fun name => by rw [hphase]; rfl

theorem step (h : Accounts s) (ht : Threads s) (hstep : Step s s') : Accounts s' := by
  cases hstep with
  | client c hstep =>
    cases hstep with
    | connect hnew => exact { h with }
    | send hconn hopen bytes => exact { h with }
    | disconnect hconn => exact { h with }
  | accept hstep => exact h.acceptStep ht hstep
  | fail hstep =>
    cases hstep with
    | accept hphase => exact h.setPhase _ fun name => by rw [hphase]; rfl
    | readLine hphase => exact h.setPhase _ fun name => by rw [hphase]; rfl
  | worker i hstep => exact h.workerStep ht hstep
  | owner => exact { h with }

omit [DecidableEq C] in
/-- A client that was sent the byte is one whose name was read. -/
theorem registered_of_granted (h : Accounts s) {name : List UInt8} {c : C}
    (hc : (name, c) ∈ s.granted) : (name, c) ∈ s.registered := by
  obtain ⟨q, -, heq⟩ := h.accounted name
  rw [← mem_clientsOf, heq]
  have hserved := (h.granted name).subset (mem_clientsOf.mpr hc)
  exact List.mem_append_left _ (List.mem_append_left _ hserved)

end Accounts

/-! ### Connections -/

/-- The clients as the server knows them, and the connections. -/
structure Sockets (s : State C) : Prop where
  known : ∀ c ∈ s.accepted ++ s.backlog, s.conns c ≠ none
  once : (s.accepted ++ s.backlog).Nodup
  in_order : (s.registered.map Prod.snd).Sublist s.accepted
  reading : ∀ c, s.phase = .reading c →
    ∃ l, s.accepted = l ++ [c] ∧ (s.registered.map Prod.snd).Sublist l
  line : ∀ name c, (name, c) ∈ s.registered →
    ∃ conn, s.conns c = some conn ∧ conn.lineDone = true ∧ readLine conn.sent = name
  serving : ∀ name c conn, (name, c) ∈ s.granted → s.conns c = some conn → conn.closed = false →
    ∃ (i : ℕ) (w : Worker C), s.workers[i]? = some w ∧ w.phase = .serving c ∧ w.name = name

theorem sockets_init : Sockets (State.init : State C) := by
  constructor <;> simp [State.init]

/-- What comes after the first line does not change it. -/
theorem readLine_append {bytes : List UInt8} (h : 10 ∈ bytes) (more : List UInt8) :
    readLine (bytes ++ more) = readLine bytes := by
  induction bytes with
  | nil => cases h
  | cons b bytes ih =>
    rw [List.cons_append, readLine, readLine]
    by_cases hb : b = 10
    · rw [if_pos hb, if_pos hb]
    · have hmem : 10 ∈ bytes := (List.mem_cons.mp h).resolve_left fun heq => hb heq.symm
      rw [if_neg hb, if_neg hb, ih hmem]

namespace Sockets

variable {s s' : State C}

theorem workerStep {i : ℕ} (h : Sockets s) (hstep : WorkerStep i s s') : Sockets s' := by
  -- only a thread whose client is gone stops serving it
  have hserving : ∀ {w : Worker C} (w' : Worker C), s.workers[i]? = some w → w'.name = w.name →
      (∀ c conn, w.phase = .serving c → s.conns c = some conn → conn.closed = false →
        w'.phase = .serving c) →
      ∀ name c conn, (name, c) ∈ s.granted → s.conns c = some conn → conn.closed = false →
        ∃ (j : ℕ) (v : Worker C), (s.workers.set i w')[j]? = some v ∧ v.phase = .serving c ∧
          v.name = name := by
    intro w w' hw hname hkeep name c conn hc hconn hopen
    obtain ⟨j, v, hv, hphase, hvname⟩ := h.serving name c conn hc hconn hopen
    by_cases hj : j = i
    · subst hj
      rw [hw, Option.some.injEq] at hv
      subst hv
      exact ⟨j, w', by grind, hkeep c conn hphase hconn hopen, hname.trans hvname⟩
    · exact ⟨j, v, by grind, hphase, hvname⟩
  cases hstep with
  | @remove w c queue hw hphase hlock hqueue =>
    exact { h with serving := hserving _ hw rfl (by simp [hphase]) }
  | @isEmpty w hw hphase hlock hqueue =>
    exact { h with serving := hserving _ hw rfl (by simp [hphase]) }
  | @write w c hw hphase =>
    refine { h with serving := ?_ }
    intro name c' conn hc' hconn hopen
    rcases List.mem_append.mp hc' with hc' | hc'
    · exact hserving { w with phase := .serving c } hw rfl (by simp [hphase]) name c' conn hc'
        hconn hopen
    · cases List.mem_singleton.mp hc'
      exact ⟨i, { w with phase := .serving c }, by simp; grind, rfl, rfl⟩
  | @writeFails w c hw hphase =>
    exact { h with serving := hserving _ hw rfl (by simp [hphase]) }
  | @readToEnd w c conn hw hphase hconn hclosed =>
    refine { h with serving := hserving _ hw rfl ?_ }
    intro c' conn' hc' hconn' hopen
    rw [hphase, WorkerPhase.serving.injEq] at hc'
    subst hc'
    rw [hconn, Option.some.injEq] at hconn'
    rw [← hconn', hclosed] at hopen
    cases hopen
  | @exit w hw hphase =>
    exact { h with serving := hserving _ hw rfl (by simp [hphase]) }

theorem spawn (h : Sockets s) (c : C) (name : List UInt8) : Sockets (s.spawn c name) := by
  refine { h with reading := by simp, serving := ?_ }
  intro name' c' conn hc' hconn hopen
  obtain ⟨j, v, hv, hphase, hvname⟩ := h.serving name' c' conn hc' hconn hopen
  refine ⟨j, v, ?_, hphase, hvname⟩
  rw [State.spawn_workers, List.getElem?_append_left (List.getElem?_eq_some_iff.mp hv).1]
  exact hv

variable [DecidableEq C]

/-- Something happens to a connection that leaves the line that was read as it is. -/
theorem setConn (h : Sockets s) {c : C} {conn conn' : Conn} (hconn : s.conns c = some conn)
    (hline : conn.lineDone = true →
      conn'.lineDone = true ∧ readLine conn'.sent = readLine conn.sent)
    (hclosed : conn'.closed = false → conn.closed = false) :
    Sockets { s with conns := Function.update s.conns c (some conn') } := by
  refine { h with known := ?_, line := ?_, serving := ?_ }
  · intro c' hc'
    by_cases hne : c' = c
    · simp [hne]
    · simpa [Function.update_of_ne hne] using h.known c' hc'
  · intro name c' hc'
    obtain ⟨conn₀, hconn₀, hdone, hname⟩ := h.line name c' hc'
    by_cases hne : c' = c
    · subst hne
      rw [hconn, Option.some.injEq] at hconn₀
      subst hconn₀
      exact ⟨conn', by simp, (hline hdone).1, (hline hdone).2.trans hname⟩
    · exact ⟨conn₀, by simpa [Function.update_of_ne hne] using hconn₀, hdone, hname⟩
  · intro name c' conn₀ hc' hconn₀ hopen
    dsimp only at hconn₀
    by_cases hne : c' = c
    · subst hne
      rw [Function.update_self, Option.some.injEq] at hconn₀
      subst hconn₀
      exact h.serving name c' conn hc' hconn (hclosed hopen)
    · rw [Function.update_of_ne hne] at hconn₀
      exact h.serving name c' conn₀ hc' hconn₀ hopen

theorem clientStep {c : C} (h : Sockets s) (ha : Accounts s) (hstep : ClientStep c s s') :
    Sockets s' := by
  cases hstep with
  | connect hnew =>
    have hold : ∀ c', s.conns c' ≠ none → c' ≠ c := by
      rintro c' hc' rfl
      exact hc' hnew
    have hfresh : c ∉ s.accepted ++ s.backlog := fun hc => h.known c hc hnew
    have hline : ∀ name c', (name, c') ∈ s.registered → c' ≠ c := by
      intro name c' hc'
      obtain ⟨conn, hconn, -⟩ := h.line name c' hc'
      exact hold c' (by simp [hconn])
    refine { h with known := ?_, once := ?_, line := ?_, serving := ?_ }
    · intro c' hc'
      rw [← List.append_assoc, List.mem_append, List.mem_singleton] at hc'
      rcases hc' with hc' | rfl
      · simpa [Function.update_of_ne (hold c' (h.known c' hc'))] using h.known c' hc'
      · simp
    · rw [← List.append_assoc]
      exact h.once.append (List.nodup_singleton c) (by simpa using hfresh)
    · intro name c' hc'
      simpa [Function.update_of_ne (hline name c' hc')] using h.line name c' hc'
    · intro name c' conn hc' hconn hopen
      dsimp only at hconn
      rw [Function.update_of_ne (hline name c' (ha.registered_of_granted hc'))] at hconn
      exact h.serving name c' conn hc' hconn hopen
  | @send conn hconn hopen bytes =>
    apply h.setConn hconn
    · intro hdone
      -- the connection is open, so the line has come to its end
      have hmem : 10 ∈ conn.sent := by simpa [Conn.lineDone, hopen] using hdone
      exact ⟨by simp [Conn.lineDone, hmem], readLine_append hmem bytes⟩
    · exact id
  | @disconnect conn hconn =>
    apply h.setConn hconn
    · exact fun _ => ⟨by simp [Conn.lineDone], rfl⟩
    · rintro ⟨⟩

/-- A client is taken from the backlog. -/
theorem accepted (h : Sockets s) {c : C} (hc : c ∈ s.backlog) {phase : AcceptPhase C}
    (hphase : ∀ c', phase = .reading c' → c' = c) :
    Sockets { s with backlog := s.backlog.erase c, accepted := s.accepted ++ [c], phase } := by
  have hperm : (s.accepted ++ [c] ++ s.backlog.erase c).Perm (s.accepted ++ s.backlog) := by
    rw [List.append_assoc]
    exact (List.perm_cons_erase hc).symm.append_left s.accepted
  refine { h with known := ?_, once := ?_, in_order := ?_, reading := ?_ }
  · exact fun c' hc' => h.known c' (hperm.mem_iff.mp hc')
  · exact hperm.nodup_iff.mpr h.once
  · exact h.in_order.trans (List.sublist_append_left _ _)
  · intro c' hreading
    exact ⟨s.accepted, by rw [hphase c' hreading], h.in_order⟩

omit [DecidableEq C] in
/-- The accept loop goes on with the clients as they are. -/
theorem setPhase (h : Sockets s) (phase : AcceptPhase C) (hphase : ∀ c, phase ≠ .reading c) :
    Sockets { s with phase } :=
  { h with reading := fun c hreading => absurd hreading (hphase c) }

theorem acceptStep (h : Sockets s) (hstep : AcceptStep s s') : Sockets s' := by
  cases hstep with
  | accept hphase hc hdone => exact h.accepted hc (by simp)
  | stop hphase hc hdone => exact h.accepted hc (by simp)
  | @readLine c conn hphase hconn hline =>
    obtain ⟨l, haccepted, hsub⟩ := h.reading c hphase
    refine { h with in_order := ?_, reading := by simp, line := ?_ }
    · rw [haccepted, List.map_append]
      exact hsub.append (List.Sublist.refl [c])
    · intro name c' hc'
      rcases List.mem_append.mp hc' with hc' | hc'
      · exact h.line name c' hc'
      · cases List.mem_singleton.mp hc'
        exact ⟨conn, hconn, hline, rfl⟩
  | @push c name sc w hphase hsc hw hrunning =>
    refine { h with reading := by simp, serving := ?_ }
    intro name' c' conn hc' hconn hopen
    obtain ⟨j, v, hv, hvphase, hvname⟩ := h.serving name' c' conn hc' hconn hopen
    by_cases hj : j = sc.lock
    · subst hj
      rw [hw, Option.some.injEq] at hv
      subst hv
      exact ⟨sc.lock, { w with queue := w.queue ++ [c] }, by simp; grind, hvphase, hvname⟩
    · exact ⟨j, v, by simp; grind, hvphase, hvname⟩
  | take hphase hsc hw hrunning hthread => exact { h.setPhase (.joining _ _ _ _) (by simp) with }
  | unwrapNone hphase hsc hw hrunning hthread => exact h.setPhase _ (by simp)
  | join hphase hw hfinished => exact h.spawn _ _
  | start hphase hnone => exact h.spawn _ _
  | @drain name sc hphase hsc =>
    have hnot : ∀ c, (sc.thread.elim AcceptPhase.draining AcceptPhase.drainJoin :
        AcceptPhase C) ≠ .reading c := by
      intro c
      cases sc.thread <;> simp
    exact { h.setPhase _ hnot with }
  | drainJoin hphase hw hfinished => exact h.setPhase _ (by simp)
  | drained hphase hnone => exact h.setPhase _ (by simp)

theorem step (h : Sockets s) (ha : Accounts s) (hstep : Step s s') : Sockets s' := by
  cases hstep with
  | client c hstep => exact h.clientStep ha hstep
  | accept hstep => exact h.acceptStep hstep
  | fail hstep =>
    cases hstep with
    | accept hphase => exact h.setPhase _ (by simp)
    | readLine hphase => exact h.setPhase _ (by simp)
  | worker i hstep => exact h.workerStep hstep
  | owner => exact { h with }

end Sockets

end Cargo.Util.LockServer
