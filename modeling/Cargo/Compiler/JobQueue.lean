import Cargo.Util.DependencyQueue

/-!
# The job queue

`JobQueue` executes a build. Units of work are enqueued under the key of their unit,
several jobs to a key if need be, and `drain_the_queue` then runs them: it takes ready
keys off the dependency queue, asks the jobserver for a token for every job, starts
jobs as far as its tokens allow, and waits for the next message.

Three kinds of parties take part. The main thread runs `drain_the_queue`; every dirty
job runs in a thread of its own and sends one `Finish`; the jobserver's helper thread
answers each request with a `Token`. They share nothing but the channel, so a state of
the system is the main thread's data together with the channel, the jobs under way and
the requests not answered yet. The messages that only print are left out, as are the
failures of printing.

## Main definitions

* `JobQueue`, `JobQueue.enqueue`, `JobQueue.finish` — the queue and its bookkeeping
* `Drain` — a state of the system while the queue is drained
* `Drain.dequeueUnit`, `Drain.startJob`, `Drain.receive` — what the main thread does
* `Drain.Step` — one step of one of the parties
-/

set_option autoImplicit false

namespace Cargo.Compiler

open Cargo.Math Cargo.Util

/-- What the job queue asks the build context about keys. -/
structure Units (K P : Type) where
  /-- The package of a key. -/
  pkg : K → P
  /-- `Key::dependencies`. -/
  dependencies : K → List K

/-- The state of a key some of whose jobs are still to finish. -/
structure PendingBuild where
  /-- Number of jobs that have not succeeded yet. -/
  amt : ℕ
  /-- Dirty as soon as one job of the key is. -/
  fresh : Freshness
  deriving DecidableEq, Repr

/-- The queue of all the jobs of a build. -/
structure JobQueue (K J P : Type) where
  queue : DependencyQueue K (List (J × Freshness))
  /-- The keys of the jobs under way, once for each job. -/
  active : List K
  pending : Finmap fun _ : K => PendingBuild
  /-- For each package the number of its jobs that were not started. -/
  counts : Finmap fun _ : P => ℕ

/-- The ways in which the code of the job queue can panic. -/
inductive JobPanic
  /-- A panic of the dependency queue. -/
  | queue (panic : Panic)
  /-- `self.counts.get_mut(key.pkg).unwrap()` in `run`. -/
  | noCount
  /-- `-= 1` on a count in `run`. -/
  | countUnderflow
  /-- `self.active.len() - 1` before the tokens are truncated. -/
  | truncateUnderflow
  /-- `expect("an unrecorded package has finished compiling")`. -/
  | unrecordedFinish
  /-- `assert!(!tokens.is_empty())`. -/
  | noToken
  /-- `self.pending.get_mut(&key).unwrap()` in `finish`. -/
  | noPending
  /-- `state.amt -= 1` in `finish`. -/
  | amtUnderflow
  deriving DecidableEq, Repr

/-- A job that was taken off the dependency queue, with the freshness it runs with. -/
structure Task (K J : Type) where
  key : K
  job : J
  fresh : Freshness
  deriving DecidableEq, Repr

/-- The messages that touch the state of the queue. A `finish` carries the whole task
so that runs can be talked about; the main thread looks at its key only. -/
inductive Message (K J E : Type)
  | token
  | finish (task : Task K J) (result : Except E Unit)

/-- What `drain_the_queue` fails with. -/
inductive DrainError (E : Type)
  /-- "build failed", when other jobs were still running. -/
  | buildFailed
  /-- The error of the last job. -/
  | job (e : E)
  /-- "finished with jobs still left in the queue". -/
  | jobsLeft
  deriving DecidableEq, Repr

/-- Where the main thread is in the body of its loop. -/
inductive Phase (E : Type)
  /-- In the loop that dequeues work. -/
  | dequeue
  /-- In the loop that starts jobs. -/
  | start
  /-- Blocked on the channel. -/
  | recv
  /-- The loop was left and the function returned. -/
  | done (result : Except (DrainError E) Unit)

/-- What the history of a run records. -/
inductive JobEvent (K J E : Type)
  /-- A job was started. -/
  | started (task : Task K J)
  /-- The `Finish` of a job was received. -/
  | finished (task : Task K J) (result : Except E Unit)

namespace JobQueue

variable {K J P : Type} [DecidableEq K] [DecidableEq P]

/-- The job queue with nothing in it. -/
def new : JobQueue K J P where
  queue := DependencyQueue.new
  active := []
  pending := ∅
  counts := ∅

/-- Add a job under `key`. -/
def enqueue (units : Units K P) (self : JobQueue K J P) (key : K) (job : J)
    (freshness : Freshness) : JobQueue K J P :=
  { self with
    queue := (self.queue.queue .fresh key [] (units.dependencies key)).modifyValue key
      (· ++ [(job, freshness)])
    counts := self.counts.insert (units.pkg key)
      ((self.counts.lookup (units.pkg key)).getD 0 + 1) }

/-- A job of `key` has succeeded; after the last one the key itself is finished. -/
def finish (ho : HashOrder K) (self : JobQueue K J P) (key : K) :
    Except JobPanic (JobQueue K J P) :=
  match self.pending.lookup key with
  | none => .error .noPending
  | some state =>
    match state.amt with
    -- `amt -= 1` would overflow
    | 0 => .error .amtUnderflow
    | amt + 1 => do
      let self := { self with pending := self.pending.insert key { state with amt } }
      if amt = 0 then
        let queue ← (self.queue.finish ho key state.fresh).mapError .queue
        .ok { self with queue }
      else .ok self

end JobQueue

/-- A state of the system while the queue is drained. -/
structure Drain (K J P E : Type) where
  self : JobQueue K J P
  /-- The number of tokens held. -/
  tokens : ℕ
  /-- The jobs that were dequeued and not started. -/
  queue : List (Task K J)
  error : Option (DrainError E)
  phase : Phase E
  /-- The messages sent and not received, oldest first. -/
  channel : List (Message K J E)
  /-- The jobs whose threads have not sent their `Finish`. -/
  running : List (Task K J)
  /-- The requests the jobserver's helper has not answered. -/
  requested : ℕ
  /-- What happened so far; nothing in the code reads it. -/
  log : List (JobEvent K J E)

namespace Drain

variable {K J P E : Type} [DecidableEq K] [DecidableEq P]

/-- `drain_the_queue` is entered. -/
def init (self : JobQueue K J P) : Drain K J P E where
  self
  tokens := 0
  queue := []
  error := none
  phase := .dequeue
  channel := []
  running := []
  requested := 0
  log := []

/-- Put one dequeued job on the local queue and request a token for it. -/
def pushJob (key : K) (freshness : Freshness) (s : Drain K J P E) (entry : J × Freshness) :
    Drain K J P E :=
  let s := { s with queue := s.queue ++ [⟨key, entry.1, entry.2.combine freshness⟩] }
  if s.self.active ≠ [] ∨ s.queue ≠ [] then { s with requested := s.requested + 1 } else s

/-- One turn of `while let Some((fresh, key, jobs)) = self.queue.dequeue()`. -/
def dequeueUnit (ho : HashOrder K) (s : Drain K J P E) : Except JobPanic (Drain K J P E) := do
  match ← (s.self.queue.dequeue ho).mapError .queue with
  | (none, queue) => .ok { s with self := { s.self with queue }, phase := .start }
  | (some (freshness, key, jobs), queue) =>
    let totalFresh := jobs.foldl (fun total entry => entry.2.combine total) freshness
    let pending := s.self.pending.insert key { amt := jobs.length, fresh := totalFresh }
    .ok (jobs.foldl (pushJob key freshness) { s with self := { s.self with queue, pending } })

/-- Start a job. A fresh one runs in the main thread and has sent its `Finish`, with
the given result, when this returns. -/
def run (units : Units K P) (result : Except E Unit) (s : Drain K J P E) (task : Task K J) :
    Except JobPanic (Drain K J P E) :=
  match s.self.counts.lookup (units.pkg task.key) with
  | none => .error .noCount
  -- the code subtracts one, which would overflow here
  | some 0 => .error .countUnderflow
  | some (count + 1) =>
    let s := { s with
      self := { s.self with
        active := s.self.active ++ [task.key]
        counts := s.self.counts.insert (units.pkg task.key) count }
      log := s.log ++ [JobEvent.started task] }
    match task.fresh with
    | .fresh => .ok { s with channel := s.channel ++ [Message.finish task result] }
    | .dirty => .ok { s with running := task :: s.running }

/-- The result of `drain_the_queue` once its loop is left. -/
def outcome (s : Drain K J P E) : Except (DrainError E) Unit :=
  if s.self.queue.isEmpty then .ok ()
  else
    match s.error with
    | some e => .error e
    | none => .error .jobsLeft

/-- Nothing more can be started: leave the loop if nothing is active, and otherwise
drop the tokens in excess and wait. -/
def settle (s : Drain K J P E) : Except JobPanic (Drain K J P E) :=
  if s.self.active = [] then .ok { s with phase := .done s.outcome }
  else
    match s.self.active.length with
    | 0 => .error .truncateUnderflow
    | bound + 1 => .ok { s with tokens := min s.tokens bound, phase := .recv }

/-- One turn of the loop that starts jobs, or what follows that loop. -/
def startJob (units : Units K P) (result : Except E Unit) (s : Drain K J P E) :
    Except JobPanic (Drain K J P E) :=
  match s.queue with
  | [] => settle s
  | task :: queue =>
    if s.error.isNone ∧ s.self.active.length < s.tokens + 1 then
      run units result { s with queue } task
    else settle s

/-- `assert!(!tokens.is_empty())` and the drop of one token, both only if some job is
still active. -/
def dropToken (active : List K) (tokens : ℕ) : Except JobPanic ℕ :=
  if active = [] then .ok tokens
  else
    match tokens with
    | 0 => .error .noToken
    | tokens + 1 => .ok tokens

/-- Handle one message. -/
def receive (ho : HashOrder K) (s : Drain K J P E) :
    Message K J E → Except JobPanic (Drain K J P E)
  | .token => .ok { s with tokens := s.tokens + 1, phase := .dequeue }
  | .finish task result =>
    if task.key ∈ s.self.active then do
      let active := s.self.active.erase task.key
      let tokens ← dropToken active s.tokens
      let s := { s with
        self := { s.self with active }
        tokens, phase := .dequeue, log := s.log ++ [JobEvent.finished task result] }
      match result with
      | .ok () => .ok { s with self := ← s.self.finish ho task.key }
      -- while other jobs run, the error is printed and that the build failed is kept
      | .error e => .ok { s with error := some (if active ≠ [] then .buildFailed else .job e) }
    else .error .unrecordedFinish

/-- One step of one of the parties, with the state it leads to or the panic. Every
iteration over a hash map may take an order of its own. -/
inductive Step (units : Units K P) :
    Drain K J P E → Except JobPanic (Drain K J P E) → Prop
  | dequeue {s : Drain K J P E} (ho : HashOrder K) :
    s.phase = .dequeue → Step units s (s.dequeueUnit ho)
  | start {s : Drain K J P E} (result : Except E Unit) :
    s.phase = .start → Step units s (s.startJob units result)
  | recv {s : Drain K J P E} (ho : HashOrder K) {message : Message K J E}
    {rest : List (Message K J E)} : s.phase = .recv → s.channel = message :: rest →
      Step units s ({ s with channel := rest }.receive ho message)
  /-- A job's thread sends its `Finish`. -/
  | job {s : Drain K J P E} {before after : List (Task K J)} {task : Task K J}
    (result : Except E Unit) : s.running = before ++ task :: after →
      Step units s (.ok { s with
        running := before ++ after, channel := s.channel ++ [.finish task result] })
  /-- The jobserver's helper sends a token that was requested. -/
  | helper {s : Drain K J P E} {requested : ℕ} : s.requested = requested + 1 →
      Step units s (.ok { s with requested, channel := s.channel ++ [.token] })

/-- The states that steps without a panic lead to. -/
def Reachable (units : Units K P) : Drain K J P E → Drain K J P E → Prop :=
  Relation.ReflTransGen fun s s' => Step units s (.ok s')

end Drain

namespace JobQueue

variable {K J P : Type} [DecidableEq K] [DecidableEq P]

/-- The calls of `enqueue` before a build. -/
def enqueueAll (units : Units K P) (jobs : List (K × J × Freshness)) : JobQueue K J P :=
  jobs.foldl (fun self entry => self.enqueue units entry.1 entry.2.1 entry.2.2) new

/-- `execute` up to the call of `drain_the_queue`. -/
def execute {E : Type} (ho : HashOrder K) (self : JobQueue K J P) :
    Except JobPanic (Drain K J P E) := do
  let queue ← (self.queue.queueFinished ho).mapError .queue
  .ok (Drain.init { self with queue })

end JobQueue

end Cargo.Compiler
