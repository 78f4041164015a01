import Cargo.Math.Transition
import Cargo.Util.LockServer.Invariant
import Mathlib.Tactic.IntervalCases

/-!
# One process at a time

In every interleaving of clients, accept loop and threads, of the clients of one name at most
one holds the lock, they have their turns in the order in which they were accepted, and a client
that arrives while the thread of its name stops is not lost: the accept loop waits for this
thread, which needs nothing more to finish, and starts a new one.

## Main definitions

* `Safe` — what holds in every reachable state
* `Fair` — the accept loop and the threads are scheduled fairly

## Main results

* `safe_and_live` — all reachable states are safe, and in a fair run the accept loop is never
  stuck with a client
-/

set_option autoImplicit false

namespace Cargo.Util.LockServer

open Relation
open Cargo.Math

variable {C : Type}

/-- A client was sent the byte and is still connected, after sending this name. -/
def Holds (s : State C) (name : List UInt8) (c : C) : Prop :=
  c ∈ s.granted.map Prod.snd ∧
    ∃ conn, s.conns c = some conn ∧ conn.closed = false ∧ readLine conn.sent = name

/-- A client waits in the queue of a running thread of a name. -/
def Queued (s : State C) (name : List UInt8) (c : C) : Prop :=
  ∃ w ∈ s.workers, w.name = name ∧ w.running = true ∧ c ∈ w.queue

/-- What holds in every state of the server. -/
structure Safe (s : State C) : Prop where
  exclusive : ∀ name c c', Holds s name c → Holds s name c' → c = c'
  /-- The clients whose name was read, in the order in which they were accepted. -/
  accepted : (s.registered.map Prod.snd).Sublist s.accepted ∧ s.accepted.Nodup
  in_order : ∀ name, clientsOf s.served name <+: clientsOf s.registered name
  granted_in_order : ∀ name, (clientsOf s.granted name).Sublist (clientsOf s.served name)
  not_lost : ∀ name c, (name, c) ∈ s.registered →
    (name, c) ∈ s.served ∨ Queued s name c ∨ c ∈ s.phase.held name
  no_panic : s.phase ≠ .panicked

variable [DecidableEq C]

/-- A thread that can go on at any time does go on. -/
structure Fair (b : Behaviour Step (State.init : State C)) : Prop where
  accept : b.WeaklyFair AcceptStep
  worker : ∀ i, b.WeaklyFair (WorkerStep i)

/-! ### Safety -/

theorem invariant_of_step {s : State C} (hs : ReflTransGen Step State.init s) :
    Threads s ∧ Accounts s ∧ Sockets s := by
  apply invariant_of_reachable hs ⟨threads_init, accounts_init, sockets_init⟩
  rintro s s' ⟨ht, ha, hk⟩ hstep
  exact ⟨ht.step hstep, ha.step ht hstep, hk.step ha hstep⟩

omit [DecidableEq C] in
/-- A client that holds the lock is being served by a live thread of its name. -/
theorem serving_of_holds {s : State C} (ha : Accounts s) (hk : Sockets s) {name : List UInt8}
    {c : C} (h : Holds s name c) :
    ∃ (i : ℕ) (w : Worker C), s.workers[i]? = some w ∧ w.phase = .serving c ∧ w.name = name := by
  obtain ⟨hc, conn, hconn, hopen, hname⟩ := h
  obtain ⟨⟨name', c'⟩, hgranted, rfl⟩ := List.mem_map.mp hc
  -- the name under which it was sent the byte is the one that it sent
  obtain ⟨conn', hconn', -, hname'⟩ := hk.line name' c' (ha.registered_of_granted hgranted)
  rw [hconn, Option.some.injEq] at hconn'
  rw [← hconn', hname] at hname'
  subst hname'
  exact hk.serving name c' conn hgranted hconn hopen

theorem safe_of_reachable {s : State C} (hs : ReflTransGen Step State.init s) : Safe s := by
  obtain ⟨ht, ha, hk⟩ := invariant_of_step hs
  constructor
  · intro name c c' hc hc'
    obtain ⟨i, w, hw, hphase, hname⟩ := serving_of_holds ha hk hc
    obtain ⟨j, w', hw', hphase', hname'⟩ := serving_of_holds ha hk hc'
    have hij : i = j := ht.unique i j w w' hw hw' (by simp [hphase]) (by simp [hphase'])
      (hname.trans hname'.symm)
    subst hij
    rw [hw, Option.some.injEq] at hw'
    subst hw'
    rw [hphase, WorkerPhase.serving.injEq] at hphase'
    exact hphase'
  · exact ⟨hk.in_order, hk.once.of_append_left⟩
  · intro name
    obtain ⟨q, -, heq⟩ := ha.accounted name
    rw [heq, List.append_assoc]
    exact List.prefix_append _ _
  · exact ha.granted
  · intro name c hc
    obtain ⟨q, hq, heq⟩ := ha.accounted name
    rw [← mem_clientsOf, heq, List.mem_append, List.mem_append] at hc
    rcases hc with (hserved | hwaiting) | hheld
    · exact .inl (mem_clientsOf.mp hserved)
    · obtain ⟨i, w, hw, hrunning, hname⟩ := hq.running (List.ne_nil_of_mem hwaiting)
      rw [← hq.queue i w hw hrunning hname] at hwaiting
      exact .inr (.inl ⟨w, List.mem_of_getElem? hw, hname, hrunning, hwaiting⟩)
    · exact .inr (.inr hheld)
  · exact ht.handle

/-! ### Progress -/

omit [DecidableEq C] in
theorem WorkerStep.phase_eq {i : ℕ} {s s' : State C} (h : WorkerStep i s s') :
    s'.phase = s.phase := by
  cases h <;> rfl

omit [DecidableEq C] in
theorem WorkerStep.getElem?_of_ne {i j : ℕ} {s s' : State C} (h : WorkerStep i s s')
    (hj : j ≠ i) : s'.workers[j]? = s.workers[j]? := by
  cases h <;> simp [List.getElem?_set_ne hj.symm]

/-- Steps of others than the accept loop leave it where it is, if it has a client. -/
theorem Step.cases_of_held {s s' : State C} (h : Step s s') {name : List UInt8} {c : C}
    (hheld : c ∈ s.phase.held name) :
    AcceptStep s s' ∨ (s'.phase = s.phase ∧
      (s'.workers = s.workers ∨ ∃ i, WorkerStep i s s')) := by
  cases h with
  | client c' hstep => cases hstep <;> exact .inr ⟨rfl, .inl rfl⟩
  | accept hstep => exact .inl hstep
  | fail hstep =>
    cases hstep with
    | accept hphase =>
      rw [hphase] at hheld
      cases hheld
    | readLine hphase =>
      rw [hphase] at hheld
      cases hheld
  | worker i hstep => exact .inr ⟨hstep.phase_eq, .inr ⟨i, hstep⟩⟩
  | owner => exact .inr ⟨rfl, .inl rfl⟩

omit [DecidableEq C] in
theorem mem_held_of_joining {s : State C} {c : C} {name : List UInt8} {lock thread : ℕ}
    (h : s.phase = .joining c name lock thread) : c ∈ s.phase.held name := by
  simp [h, AcceptPhase.held]

omit [DecidableEq C] in
theorem mem_held_of_named {s : State C} {c : C} {name : List UInt8}
    (h : s.phase = .named c name) : c ∈ s.phase.held name := by
  simp [h, AcceptPhase.held]

omit [DecidableEq C] in
theorem queued_spawn (s : State C) (c : C) (name : List UInt8) : Queued (s.spawn c name) name c :=
  ⟨⟨name, true, [c], .idle⟩, by simp, rfl, rfl, List.mem_singleton_self c⟩

/-- The accept loop waits for a thread that has this phase. -/
def JoiningAt (c : C) (name : List UInt8) (thread : ℕ) (phase : WorkerPhase C) (s : State C) :
    Prop :=
  Threads s ∧ (∃ lock, s.phase = .joining c name lock thread) ∧
    ∃ w, s.workers[thread]? = some w ∧ w.phase = phase

/-- The accept loop has put a client on a queue. -/
def Handed (c : C) (name : List UInt8) (s : State C) : Prop :=
  s.phase = .accepting ∧ Queued s name c

/-- The thread that the accept loop waits for has stopped. -/
theorem joiningAt_of_joining {s : State C} (ht : Threads s) {c : C} {name : List UInt8}
    {lock thread : ℕ} (hphase : s.phase = .joining c name lock thread) :
    JoiningAt c name thread .exiting s ∨ JoiningAt c name thread .finished s := by
  obtain ⟨rfl, -, w, hw, hstopped⟩ := ht.joining c name lock thread hphase
  have hcases : w.phase = .exiting ∨ w.phase = .finished := by
    by_contra hne
    rw [not_or] at hne
    rw [(ht.running_iff _ w hw).mpr hne] at hstopped
    cases hstopped
  rcases hcases with hw' | hw'
  · exact .inl ⟨ht, ⟨thread, hphase⟩, w, hw, hw'⟩
  · exact .inr ⟨ht, ⟨thread, hphase⟩, w, hw, hw'⟩

/-- The accept loop waits until the thread has finished, and then starts a new one. -/
theorem JoiningAt.acceptStep {s s' : State C} {c : C} {name : List UInt8} {thread : ℕ}
    {phase : WorkerPhase C} (h : JoiningAt c name thread phase s) (hstep : AcceptStep s s') :
    phase = .finished ∧ Handed c name s' := by
  obtain ⟨-, ⟨lock, hphase⟩, w, hw, hwphase⟩ := h
  cases hstep with
  | join hphase' hw' hfinished =>
    rw [hphase] at hphase'
    cases hphase'
    rw [hw, Option.some.injEq] at hw'
    subst hw'
    exact ⟨hwphase.symm.trans hfinished, rfl, queued_spawn s c name⟩
  | accept hphase' | stop hphase' | readLine hphase' | push hphase' | take hphase'
  | unwrapNone hphase' | start hphase' | drain hphase' | drainJoin hphase' | drained hphase' =>
    rw [hphase] at hphase'
    cases hphase'

/-- What can happen while the accept loop waits. -/
theorem JoiningAt.step {s s' : State C} {c : C} {name : List UInt8} {thread : ℕ}
    {phase : WorkerPhase C} (h : JoiningAt c name thread phase s) (hstep : Step s s') :
    AcceptStep s s' ∨ JoiningAt c name thread phase s' ∨ WorkerStep thread s s' := by
  obtain ⟨ht, ⟨lock, hphase⟩, w, hw, hwphase⟩ := h
  have ht' := ht.step hstep
  rcases hstep.cases_of_held (mem_held_of_joining hphase) with haccept | ⟨hsame, hworkers⟩
  · exact .inl haccept
  · right
    rcases hworkers with hworkers | ⟨i, hi⟩
    · exact .inl ⟨ht', ⟨lock, hsame.trans hphase⟩, w, hworkers ▸ hw, hwphase⟩
    · by_cases hne : thread = i
      · subst hne
        exact .inr hi
      · refine .inl ⟨ht', ⟨lock, hsame.trans hphase⟩, w, ?_, hwphase⟩
        rw [hi.getElem?_of_ne hne]
        exact hw

omit [DecidableEq C] in
/-- A thread that is out of its loop finishes. -/
theorem WorkerStep.finished_of_exiting {s s' : State C} {i : ℕ} {w : Worker C}
    (hstep : WorkerStep i s s') (hw : s.workers[i]? = some w) (hphase : w.phase = .exiting) :
    s'.workers[i]? = some { w with phase := .finished } := by
  cases hstep with
  | exit hw' hphase' =>
    rw [hw, Option.some.injEq] at hw'
    subst hw'
    simp
    grind
  | remove hw' hphase' | isEmpty hw' hphase' | write hw' hphase' | writeFails hw' hphase'
  | readToEnd hw' hphase' =>
    rw [hw, Option.some.injEq] at hw'
    subst hw'
    rw [hphase] at hphase'
    cases hphase'

omit [DecidableEq C] in
/-- A thread that has finished takes no step. -/
theorem WorkerStep.not_finished {s s' : State C} {i : ℕ} {w : Worker C}
    (hstep : WorkerStep i s s') (hw : s.workers[i]? = some w) : w.phase ≠ .finished := by
  cases hstep with
  | remove hw' hphase' | isEmpty hw' hphase' | write hw' hphase' | writeFails hw' hphase'
  | readToEnd hw' hphase' | exit hw' hphase' =>
    rw [hw, Option.some.injEq] at hw'
    subst hw'
    simp [hphase']

section Leads

variable {b : Behaviour Step (State.init : State C)} (hfair : Fair b)

include hfair

/-- A thread that is out of its loop finishes while the accept loop waits for it. -/
theorem leads_to_finished {c : C} {name : List UInt8} {thread k : ℕ}
    (h : JoiningAt c name thread .exiting (b.state k)) :
    ∃ m, k ≤ m ∧ JoiningAt c name thread .finished (b.state m) := by
  have hown : ∀ s s', JoiningAt c name thread .exiting s → WorkerStep thread s s' →
      JoiningAt c name thread .finished s' := by
    rintro s s' ⟨ht, ⟨lock, hphase⟩, w, hw, hwphase⟩ hstep
    exact ⟨ht.step (.worker thread hstep), ⟨lock, hstep.phase_eq.trans hphase⟩, _,
      hstep.finished_of_exiting hw hwphase, rfl⟩
  apply b.leads_to (hfair.worker thread) _ hown _ h
  · intro s s' hs hstep
    rcases hs.step hstep with haccept | hstill | hworker
    · cases (hs.acceptStep haccept).1
    · exact .inl hstill
    · exact .inr (hown s s' hs hworker)
  · rintro s ⟨-, -, w, hw, hwphase⟩
    exact ⟨_, .exit hw hwphase⟩

/-- Once it has finished, the accept loop starts a new thread. -/
theorem leads_to_handed_of_finished {c : C} {name : List UInt8} {thread k : ℕ}
    (h : JoiningAt c name thread .finished (b.state k)) :
    ∃ m, k ≤ m ∧ Handed c name (b.state m) := by
  have hnot : ∀ s s', JoiningAt c name thread .finished s → ¬ WorkerStep thread s s' := by
    rintro s s' ⟨-, -, w, hw, hwphase⟩ hstep
    exact hstep.not_finished hw hwphase
  apply b.leads_to hfair.accept _ _ _ h
  · intro s s' hs hstep
    rcases hs.step hstep with haccept | hstill | hworker
    · exact .inr (hs.acceptStep haccept).2
    · exact .inl hstill
    · exact absurd hworker (hnot s s' hs)
  · exact fun s s' hs hstep => (hs.acceptStep hstep).2
  · rintro s ⟨-, ⟨lock, hphase⟩, w, hw, hwphase⟩
    exact ⟨_, .join hphase hw hwphase⟩

/-- The accept loop puts a client whose name it has read on a queue, or waits for a thread. -/
theorem leads_to_handed_or_joining {c : C} {name : List UInt8} {k : ℕ}
    (h : (b.state k).phase = .named c name) :
    ∃ m, k ≤ m ∧ (Handed c name (b.state m) ∨
      ∃ lock thread, (b.state m).phase = .joining c name lock thread) := by
  have hown : ∀ s s', Threads s ∧ s.phase = .named c name → AcceptStep s s' →
      Handed c name s' ∨ ∃ lock thread, s'.phase = .joining c name lock thread := by
    rintro s s' ⟨ht, hphase⟩ hstep
    cases hstep with
    | @push c' name' sc w hphase' hsc hw hrunning =>
      rw [hphase] at hphase'
      cases hphase'
      obtain ⟨⟨w', hw', hname⟩, -⟩ := ht.entry name sc hsc
      rw [hw, Option.some.injEq] at hw'
      subst hw'
      refine .inl ⟨rfl, { w with queue := w.queue ++ [c] }, ?_, hname, hrunning, by simp⟩
      exact List.mem_set (List.getElem?_eq_some_iff.mp hw).1 _
    | @take c' name' sc w thread hphase' hsc hw hrunning hthread =>
      rw [hphase] at hphase'
      cases hphase'
      exact .inr ⟨sc.lock, thread, rfl⟩
    | unwrapNone hphase' hsc hw hrunning hthread =>
      exact absurd rfl (ht.acceptStep (.unwrapNone hphase' hsc hw hrunning hthread)).handle
    | start hphase' hnone =>
      rw [hphase] at hphase'
      cases hphase'
      exact .inl ⟨rfl, queued_spawn s c name⟩
    | accept hphase' | stop hphase' | readLine hphase' | join hphase' | drain hphase'
    | drainJoin hphase' | drained hphase' =>
      rw [hphase] at hphase'
      cases hphase'
  have hthreads := (invariant_of_step (b.reachable k)).1
  -- only the accept loop moves while it holds the lock, and it always can
  apply b.leads_to hfair.accept _ hown _ ⟨hthreads, h⟩
  · rintro s s' ⟨ht, hphase⟩ hstep
    rcases hstep.cases_of_held (mem_held_of_named hphase) with haccept | ⟨hsame, -⟩
    · exact .inr (hown s s' ⟨ht, hphase⟩ haccept)
    · exact .inl ⟨ht.step hstep, hsame.trans hphase⟩
  · rintro s ⟨ht, hphase⟩
    cases hsc : s.threads.lookup name with
    | none => exact ⟨_, .start hphase hsc⟩
    | some sc =>
      obtain ⟨⟨w, hw, -⟩, -⟩ := ht.entry name sc hsc
      cases hrunning : w.running with
      | true => exact ⟨_, .push hphase hsc hw hrunning⟩
      | false =>
        cases hthread : sc.thread with
        | none => exact ⟨_, .unwrapNone hphase hsc hw hrunning hthread⟩
        | some thread => exact ⟨_, .take hphase hsc hw hrunning hthread⟩

/-- The accept loop is never stuck in waiting for a thread. -/
theorem leads_to_handed_of_joining {c : C} {name : List UInt8} {lock thread k : ℕ}
    (h : (b.state k).phase = .joining c name lock thread) :
    ∃ m, k ≤ m ∧ Handed c name (b.state m) := by
  have hthreads := (invariant_of_step (b.reachable k)).1
  rcases joiningAt_of_joining hthreads h with hexiting | hfinished
  · obtain ⟨m, hm, hfinished⟩ := leads_to_finished hfair hexiting
    obtain ⟨m', hm', hhanded⟩ := leads_to_handed_of_finished hfair hfinished
    exact ⟨m', hm.trans hm', hhanded⟩
  · exact leads_to_handed_of_finished hfair hfinished

/-- Every client whose name was read gets into the queue of a running thread. -/
theorem leads_to_handed {c : C} {name : List UInt8} {k : ℕ}
    (h : c ∈ (b.state k).phase.held name) : ∃ m, k ≤ m ∧ Handed c name (b.state m) := by
  cases hphase : (b.state k).phase with
  | named c' name' =>
    have heq : name' = name ∧ c = c' := by simpa [hphase, AcceptPhase.held] using h
    obtain ⟨rfl, rfl⟩ := heq
    obtain ⟨m, hm, hhanded | ⟨lock, thread, hjoining⟩⟩ := leads_to_handed_or_joining hfair hphase
    · exact ⟨m, hm, hhanded⟩
    · obtain ⟨m', hm', hhanded⟩ := leads_to_handed_of_joining hfair hjoining
      exact ⟨m', hm.trans hm', hhanded⟩
  | joining c' name' lock thread =>
    have heq : name' = name ∧ c = c' := by simpa [hphase, AcceptPhase.held] using h
    obtain ⟨rfl, rfl⟩ := heq
    exact leads_to_handed_of_joining hfair hphase
  | accepting | reading | draining | drainJoin | ended | panicked =>
    rw [hphase] at h
    cases h

end Leads

/-- Whatever the order of the steps of clients, accept loop and threads: of the clients of a
name at most one holds the lock, they are served in the order in which they were accepted, none
of them is lost, and no missing handle is unwrapped. If the threads are scheduled fairly, then a
client that the accept loop has read the name of gets into the queue of a running thread, so the
loop does not wait for a thread forever. -/
theorem safe_and_live (C : Type) [DecidableEq C] :
    (∀ s : State C, ReflTransGen Step State.init s → Safe s) ∧
      ∀ b : Behaviour Step (State.init : State C), Fair b → ∀ k name c,
        c ∈ (b.state k).phase.held name →
          ∃ m, k ≤ m ∧ (b.state m).phase = .accepting ∧ Queued (b.state m) name c :=
  ⟨fun _ hs => safe_of_reachable hs, fun _ hfair _ _ _ hheld => leads_to_handed hfair hheld⟩

/-! ### Two clients of one name -/

section TwoClients

/-- The name that both clients send. -/
def sharedName : List UInt8 := [97, 10]

/-- What happens next in a run: the first client is served; when it is gone its thread stops, while
the second one arrives, which waits for the old thread and gets a new one. Then nothing changes. -/
def turn : ℕ → State ℕ → State ℕ
  | 0, s => { s with
      conns := Function.update s.conns 0 (some ⟨[], false⟩), backlog := s.backlog ++ [0] }
  | 1, s => { s with conns := Function.update s.conns 0 (some ⟨sharedName, false⟩) }
  | 2, s => { s with
      backlog := s.backlog.erase 0, accepted := s.accepted ++ [0], phase := .reading 0 }
  | 3, s => { s with
      phase := .named 0 sharedName, registered := s.registered ++ [(sharedName, 0)] }
  | 4, s => s.spawn 0 sharedName
  | 5, s => { s.setWorker 0 ⟨sharedName, true, [], .granting 0⟩ with
      served := s.served ++ [(sharedName, 0)] }
  | 6, s => { s.setWorker 0 ⟨sharedName, true, [], .serving 0⟩ with
      granted := s.granted ++ [(sharedName, 0)] }
  | 7, s => { s with
      conns := Function.update s.conns 1 (some ⟨[], false⟩), backlog := s.backlog ++ [1] }
  | 8, s => { s with conns := Function.update s.conns 1 (some ⟨sharedName, false⟩) }
  | 9, s => { s with conns := Function.update s.conns 0 (some ⟨sharedName, true⟩) }
  | 10, s => s.setWorker 0 ⟨sharedName, true, [], .idle⟩
  | 11, s => { s with
      backlog := s.backlog.erase 1, accepted := s.accepted ++ [1], phase := .reading 1 }
  | 12, s => s.setWorker 0 ⟨sharedName, false, [], .exiting⟩
  | 13, s => { s with
      phase := .named 1 sharedName, registered := s.registered ++ [(sharedName, 1)] }
  | 14, s => { s with
      threads := s.threads.insert sharedName ⟨none, 0⟩, phase := .joining 1 sharedName 0 0 }
  | 15, s => s.setWorker 0 ⟨sharedName, false, [], .finished⟩
  | 16, s => s.spawn 1 sharedName
  | 17, s => { s.setWorker 1 ⟨sharedName, true, [], .granting 1⟩ with
      served := s.served ++ [(sharedName, 1)] }
  | 18, s => { s.setWorker 1 ⟨sharedName, true, [], .serving 1⟩ with
      granted := s.granted ++ [(sharedName, 1)] }
  | _, s => s

def twoClients : ℕ → State ℕ
  | 0 => State.init
  | k + 1 => turn k (twoClients k)

/-- Once the second client has the lock, nothing changes. -/
theorem twoClients_eq {k : ℕ} (hk : 19 ≤ k) : twoClients k = twoClients 19 := by
  induction k, hk using Nat.le_induction with
  | base => rfl
  | succ k hk ih =>
    obtain ⟨n, rfl⟩ : ∃ n, k = n + 19 := ⟨k - 19, by omega⟩
    exact ih

/-- The clients have connected. -/
theorem twoClients_conns :
    (twoClients 1).conns 0 = some ⟨[], false⟩ ∧
      (twoClients 3).conns 0 = some ⟨sharedName, false⟩ ∧
      (twoClients 8).conns 1 = some ⟨[], false⟩ ∧
      (twoClients 9).conns 0 = some ⟨sharedName, false⟩ ∧
      (twoClients 10).conns 0 = some ⟨sharedName, true⟩ ∧
      (twoClients 13).conns 1 = some ⟨sharedName, false⟩ :=
  ⟨rfl, rfl, rfl, rfl, rfl, rfl⟩

/-- The first thread, and then the second one. -/
theorem twoClients_workers :
    (twoClients 5).workers[0]? = some ⟨sharedName, true, [0], .idle⟩ ∧
      (twoClients 6).workers[0]? = some ⟨sharedName, true, [], .granting 0⟩ ∧
      (twoClients 10).workers[0]? = some ⟨sharedName, true, [], .serving 0⟩ ∧
      (twoClients 12).workers[0]? = some ⟨sharedName, true, [], .idle⟩ ∧
      (twoClients 14).workers[0]? = some ⟨sharedName, false, [], .exiting⟩ ∧
      (twoClients 15).workers[0]? = some ⟨sharedName, false, [], .exiting⟩ ∧
      (twoClients 16).workers[0]? = some ⟨sharedName, false, [], .finished⟩ ∧
      (twoClients 17).workers[1]? = some ⟨sharedName, true, [1], .idle⟩ ∧
      (twoClients 18).workers[1]? = some ⟨sharedName, true, [], .granting 1⟩ :=
  ⟨rfl, rfl, rfl, rfl, rfl, rfl, rfl, rfl, rfl⟩

/-- The run as a behaviour of the system. -/
def twoClientsRun : Behaviour Step (State.init : State ℕ) where
  state := twoClients
  start := rfl
  step k := by
    obtain ⟨hconn₁, hconn₃, hconn₈, hconn₉, hconn₁₀, hconn₁₃⟩ := twoClients_conns
    obtain
      ⟨hidle, hgranting, hserving, hempty, hstopped, hexiting, hfinished, hidle', hgranting'⟩ :=
      twoClients_workers
    have hentry : (twoClients 14).threads.lookup sharedName = some ⟨some 0, 0⟩ := rfl
    by_cases hk : 19 ≤ k
    · exact .inl ((twoClients_eq (Nat.le_succ_of_le hk)).trans (twoClients_eq hk).symm)
    · right
      interval_cases k
      · exact .client 0 (.connect rfl)
      · exact .client 0 (.send hconn₁ rfl sharedName)
      · exact .accept (.accept rfl (by decide) rfl)
      · exact .accept (.readLine rfl hconn₃ rfl)
      · exact .accept (.start rfl rfl)
      · exact .worker 0 (.remove hidle rfl rfl rfl)
      · exact .worker 0 (.write hgranting rfl)
      · exact .client 1 (.connect rfl)
      · exact .client 1 (.send hconn₈ rfl sharedName)
      · exact .client 0 (.disconnect hconn₉)
      · exact .worker 0 (.readToEnd hserving rfl hconn₁₀ rfl)
      · exact .accept (.accept rfl (by decide) rfl)
      · exact .worker 0 (.isEmpty hempty rfl rfl rfl)
      · exact .accept (.readLine rfl hconn₁₃ rfl)
      · exact .accept (.take rfl hentry hstopped rfl rfl)
      · exact .worker 0 (.exit hexiting rfl)
      · exact .accept (.join rfl hfinished rfl)
      · exact .worker 1 (.remove hidle' rfl rfl rfl)
      · exact .worker 1 (.write hgranting' rfl)

/-- The accept loop has no client to accept any more. -/
theorem twoClients_not_accept {s : State ℕ} : ¬ AcceptStep (twoClients 19) s := by
  have hphase : (twoClients 19).phase = .accepting := rfl
  have hbacklog : (twoClients 19).backlog = [] := rfl
  intro h
  cases h with
  | accept hphase' hc | stop hphase' hc =>
    rw [hbacklog] at hc
    cases hc
  | readLine hphase' | push hphase' | take hphase' | unwrapNone hphase' | join hphase'
  | start hphase' | drain hphase' | drainJoin hphase' | drained hphase' =>
    rw [hphase] at hphase'
    cases hphase'

/-- One thread has stopped, the other waits for its client to disconnect. -/
theorem twoClients_not_worker {i : ℕ} {s : State ℕ} : ¬ WorkerStep i (twoClients 19) s := by
  have hworkers : ∀ w : Worker ℕ, (twoClients 19).workers[i]? = some w →
      w.phase = .finished ∨ w.phase = .serving 1 := by
    intro w hw
    have hmem : w ∈ [(⟨sharedName, false, [], .finished⟩ : Worker ℕ),
        ⟨sharedName, true, [], .serving 1⟩] := List.mem_of_getElem? hw
    simp only [List.mem_cons, List.not_mem_nil, or_false] at hmem
    rcases hmem with rfl | rfl
    · exact .inl rfl
    · exact .inr rfl
  have hconn : (twoClients 19).conns 1 = some ⟨sharedName, false⟩ := rfl
  intro h
  cases h with
  | readToEnd hw hphase hconn' hclosed =>
    rcases hworkers _ hw with hw | hw
    · rw [hw] at hphase
      cases hphase
    · rw [hw, WorkerPhase.serving.injEq] at hphase
      subst hphase
      rw [hconn, Option.some.injEq] at hconn'
      subst hconn'
      cases hclosed
  | remove hw hphase | isEmpty hw hphase | write hw hphase | writeFails hw hphase
  | exit hw hphase =>
    rcases hworkers _ hw with hw | hw
    · rw [hw] at hphase
      cases hphase
    · rw [hw] at hphase
      cases hphase

/-- The run is fair, since no thread can go on while the second client keeps the lock. After 15
steps this client waits for the thread of the first one, which has not stopped yet; and it gets
into a queue. -/
theorem two_clients_handed :
    Fair twoClientsRun ∧ (twoClientsRun.state 15).phase = .joining 1 sharedName 0 0 ∧
      ∃ m, 15 ≤ m ∧ (twoClientsRun.state m).phase = .accepting ∧
        Queued (twoClientsRun.state m) sharedName 1 := by
  have hfair : Fair twoClientsRun := by
    constructor
    · intro k henabled
      obtain ⟨s, hs⟩ := henabled (k + 19) (by omega)
      rw [show twoClientsRun.state (k + 19) = twoClients 19 from twoClients_eq (by omega)] at hs
      exact absurd hs twoClients_not_accept
    · intro i k henabled
      obtain ⟨s, hs⟩ := henabled (k + 19) (by omega)
      rw [show twoClientsRun.state (k + 19) = twoClients 19 from twoClients_eq (by omega)] at hs
      exact absurd hs twoClients_not_worker
  have hheld : 1 ∈ (twoClientsRun.state 15).phase.held sharedName := by decide
  exact ⟨hfair, rfl, (safe_and_live ℕ).2 twoClientsRun hfair 15 sharedName 1 hheld⟩

end TwoClients

end Cargo.Util.LockServer
