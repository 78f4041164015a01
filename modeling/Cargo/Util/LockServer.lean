import Mathlib.Data.Finmap
import Mathlib.Tactic.Simps.Basic

/-!
# The lock server

A server that lets one process at a time work on what it names. Clients connect, send a name on
a line, wait for a byte and hold the lock until they disconnect. The accept loop hands each
client to the thread of its name, which serves its queue and stops when the queue is empty.

A step of the whole system is one of a client, of the accept loop or of one thread; what a
thread does while it has the mutex of its queue is one step. Sockets are ordered and report
that the peer is gone only when it is.

## Main definitions

* `State`, `State.init`
* `ClientStep`, `AcceptStep`, `FailStep`, `WorkerStep`, `Step`
-/

set_option autoImplicit false

namespace Cargo.Util.LockServer

/-- What `read_line` takes from a stream: all bytes up to the first newline, with it. -/
def readLine : List UInt8 → List UInt8
  | [] => []
  | b :: bytes => if b = 10 then [b] else b :: readLine bytes

/-- The client's end of a connection. -/
structure Conn where
  /-- The bytes that were sent. -/
  sent : List UInt8
  /-- Is the client gone? -/
  closed : Bool
  deriving DecidableEq

/-- The first line is there, or there will be no more of it. -/
def Conn.lineDone (conn : Conn) : Bool := conn.closed || decide (10 ∈ conn.sent)

/-- Where the thread of a name is. -/
inductive WorkerPhase (C : Type)
  /-- About to lock the queue. -/
  | idle
  /-- About to write the byte. -/
  | granting (client : C)
  /-- Reading until the client is gone. -/
  | serving (client : C)
  /-- Out of its loop. -/
  | exiting
  /-- Can be joined. -/
  | finished
  deriving DecidableEq

/-- A thread with the state behind its mutex: is it going on, and who is waiting? The name is
that under which it was started. -/
structure Worker (C : Type) where
  name : List UInt8
  running : Bool
  queue : List C
  phase : WorkerPhase C
  deriving DecidableEq

/-- The entry of a name: the handle of its thread, and its mutex. Threads and their mutexes are
numbered in the order in which they were started. -/
structure ServerClient where
  thread : Option ℕ
  lock : ℕ
  deriving DecidableEq

/-- Where the accept loop is. -/
inductive AcceptPhase (C : Type)
  | accepting
  /-- Reading the name of a client. -/
  | reading (client : C)
  /-- Looking for the thread of a name. -/
  | named (client : C) (name : List UInt8)
  /-- Waiting for a thread that has stopped, with the mutex `lock` in hand. -/
  | joining (client : C) (name : List UInt8) (lock thread : ℕ)
  /-- The loop has ended and the entries are dropped, one by one. -/
  | draining
  | drainJoin (thread : ℕ)
  | ended
  /-- There was no handle to unwrap. -/
  | panicked
  deriving DecidableEq

/-- The state of the server and its clients. The last four fields record what has happened:
the clients that were accepted, those whose name was read, those whose turn it was and those
that were sent the byte, each in this order. -/
structure State (C : Type) where
  done : Bool
  conns : C → Option Conn
  backlog : List C
  phase : AcceptPhase C
  threads : Finmap fun _ : List UInt8 => ServerClient
  workers : List (Worker C)
  accepted : List C
  registered : List (List UInt8 × C)
  served : List (List UInt8 × C)
  granted : List (List UInt8 × C)

namespace State

variable {C : Type}

/-- A server that has just started. -/
def init : State C where
  done := false
  conns := fun _ => none
  backlog := []
  phase := .accepting
  threads := ∅
  workers := []
  accepted := []
  registered := []
  served := []
  granted := []

/-- The accept loop has the mutex of a thread. -/
def holdsLock (s : State C) (i : ℕ) : Bool :=
  match s.phase with
  | .joining _ _ lock _ => decide (lock = i)
  | _ => false

/-- Replace what is known of a thread. -/
@[simps]
def setWorker (s : State C) (i : ℕ) (w : Worker C) : State C :=
  { s with workers := s.workers.set i w }

/-- Start a thread for a name, with its first client. -/
@[simps]
def spawn (s : State C) (client : C) (name : List UInt8) : State C :=
  { s with
    workers := s.workers ++ [⟨name, true, [client], .idle⟩]
    threads := s.threads.insert name ⟨some s.workers.length, s.workers.length⟩
    phase := .accepting }

end State

variable {C : Type} [DecidableEq C]

/-- The steps of a client. -/
inductive ClientStep (c : C) : State C → State C → Prop
  | connect {s : State C} (hnew : s.conns c = none) :
    ClientStep c s
      { s with conns := Function.update s.conns c (some ⟨[], false⟩), backlog := s.backlog ++ [c] }
  | send {s : State C} {conn : Conn} (hconn : s.conns c = some conn) (hopen : conn.closed = false)
    (bytes : List UInt8) :
    ClientStep c s
      { s with conns := Function.update s.conns c (some { conn with sent := conn.sent ++ bytes }) }
  | disconnect {s : State C} {conn : Conn} (hconn : s.conns c = some conn) :
    ClientStep c s
      { s with conns := Function.update s.conns c (some { conn with closed := true }) }

/-- The steps of the accept loop. -/
inductive AcceptStep : State C → State C → Prop
  | accept {s : State C} {c : C} (hphase : s.phase = .accepting) (hc : c ∈ s.backlog)
    (hdone : s.done = false) :
    AcceptStep s
      { s with backlog := s.backlog.erase c, accepted := s.accepted ++ [c], phase := .reading c }
  /-- The flag is set: the client is dropped and the loop ends. -/
  | stop {s : State C} {c : C} (hphase : s.phase = .accepting) (hc : c ∈ s.backlog)
    (hdone : s.done = true) :
    AcceptStep s
      { s with backlog := s.backlog.erase c, accepted := s.accepted ++ [c], phase := .draining }
  | readLine {s : State C} {c : C} {conn : Conn} (hphase : s.phase = .reading c)
    (hconn : s.conns c = some conn) (hline : conn.lineDone = true) :
    AcceptStep s
      { s with
        phase := .named c (readLine conn.sent)
        registered := s.registered ++ [(readLine conn.sent, c)] }
  /-- The thread of the name is still going: the client is put on its queue. -/
  | push {s : State C} {c : C} {name : List UInt8} {sc : ServerClient} {w : Worker C}
    (hphase : s.phase = .named c name) (hsc : s.threads.lookup name = some sc)
    (hw : s.workers[sc.lock]? = some w) (hrunning : w.running = true) :
    AcceptStep s
      { s.setWorker sc.lock { w with queue := w.queue ++ [c] } with phase := .accepting }
  /-- It is not: its handle is taken, to wait for it. -/
  | take {s : State C} {c : C} {name : List UInt8} {sc : ServerClient} {w : Worker C}
    {thread : ℕ} (hphase : s.phase = .named c name) (hsc : s.threads.lookup name = some sc)
    (hw : s.workers[sc.lock]? = some w) (hrunning : w.running = false)
    (hthread : sc.thread = some thread) :
    AcceptStep s
      { s with
        threads := s.threads.insert name { sc with thread := none }
        phase := .joining c name sc.lock thread }
  | unwrapNone {s : State C} {c : C} {name : List UInt8} {sc : ServerClient} {w : Worker C}
    (hphase : s.phase = .named c name) (hsc : s.threads.lookup name = some sc)
    (hw : s.workers[sc.lock]? = some w) (hrunning : w.running = false)
    (hthread : sc.thread = none) :
    AcceptStep s { s with phase := .panicked }
  | join {s : State C} {c : C} {name : List UInt8} {lock thread : ℕ} {w : Worker C}
    (hphase : s.phase = .joining c name lock thread) (hw : s.workers[thread]? = some w)
    (hfinished : w.phase = .finished) :
    AcceptStep s (s.spawn c name)
  | start {s : State C} {c : C} {name : List UInt8} (hphase : s.phase = .named c name)
    (hnone : s.threads.lookup name = none) :
    AcceptStep s (s.spawn c name)
  /-- After the loop, wait for all threads. -/
  | drain {s : State C} {name : List UInt8} {sc : ServerClient} (hphase : s.phase = .draining)
    (hsc : s.threads.lookup name = some sc) :
    AcceptStep s
      { s with
        threads := s.threads.erase name
        phase := sc.thread.elim .draining .drainJoin }
  | drainJoin {s : State C} {thread : ℕ} {w : Worker C} (hphase : s.phase = .drainJoin thread)
    (hw : s.workers[thread]? = some w) (hfinished : w.phase = .finished) :
    AcceptStep s { s with phase := .draining }
  | drained {s : State C} (hphase : s.phase = .draining) (hnone : s.threads = ∅) :
    AcceptStep s { s with phase := .ended }

/-- What can go wrong in the accept loop at any time. -/
inductive FailStep : State C → State C → Prop
  | accept {s : State C} (hphase : s.phase = .accepting) :
    FailStep s { s with phase := .draining }
  /-- The line cannot be read, or is no text: the client is dropped. -/
  | readLine {s : State C} {c : C} (hphase : s.phase = .reading c) :
    FailStep s { s with phase := .accepting }

/-- The steps of a thread. -/
inductive WorkerStep (i : ℕ) : State C → State C → Prop
  /-- The first client of the queue has its turn. -/
  | remove {s : State C} {w : Worker C} {c : C} {queue : List C} (hw : s.workers[i]? = some w)
    (hphase : w.phase = .idle) (hlock : s.holdsLock i = false) (hqueue : w.queue = c :: queue) :
    WorkerStep i s
      { s.setWorker i { w with queue, phase := .granting c } with
        served := s.served ++ [(w.name, c)] }
  /-- There is none: the thread stops. -/
  | isEmpty {s : State C} {w : Worker C} (hw : s.workers[i]? = some w) (hphase : w.phase = .idle)
    (hlock : s.holdsLock i = false) (hqueue : w.queue = []) :
    WorkerStep i s (s.setWorker i { w with running := false, phase := .exiting })
  | write {s : State C} {w : Worker C} {c : C} (hw : s.workers[i]? = some w)
    (hphase : w.phase = .granting c) :
    WorkerStep i s
      { s.setWorker i { w with phase := .serving c } with granted := s.granted ++ [(w.name, c)] }
  | writeFails {s : State C} {w : Worker C} {c : C} (hw : s.workers[i]? = some w)
    (hphase : w.phase = .granting c) :
    WorkerStep i s (s.setWorker i { w with phase := .idle })
  | readToEnd {s : State C} {w : Worker C} {c : C} {conn : Conn} (hw : s.workers[i]? = some w)
    (hphase : w.phase = .serving c) (hconn : s.conns c = some conn) (hclosed : conn.closed = true) :
    WorkerStep i s (s.setWorker i { w with phase := .idle })
  | exit {s : State C} {w : Worker C} (hw : s.workers[i]? = some w) (hphase : w.phase = .exiting) :
    WorkerStep i s (s.setWorker i { w with phase := .finished })

/-- A step of the system. The owner of the server may set its flag at any time. -/
inductive Step : State C → State C → Prop
  | client {s s' : State C} (c : C) (h : ClientStep c s s') : Step s s'
  | accept {s s' : State C} (h : AcceptStep s s') : Step s s'
  | fail {s s' : State C} (h : FailStep s s') : Step s s'
  | worker {s s' : State C} (i : ℕ) (h : WorkerStep i s s') : Step s s'
  | owner {s : State C} : Step s { s with done := true }

end Cargo.Util.LockServer
