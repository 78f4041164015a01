import Mathlib.Data.Finset.Card
import Mathlib.Logic.Function.Basic

/-!
# Downloading packages in parallel

Packages are downloaded with libcurl, several at a time. `start` asks the source of a package
for it and adds a transfer if it has to be downloaded; `wait` blocks until one transfer has
succeeded, has its bytes unpacked and returns the package. A transfer that fails in a way that
may pass is added again, under the same token.

Curl is an environment: while it performs, it calls back with bytes and with progress for the
handles that were added, and says once of each handle that it is done. After an error the caller
may go on, but some errors leave the books out of order: what is noted as pending then differs
from what is being downloaded.

## Main definitions

* `Failure.maybeSpurious`, `verdict` — what comes of a transfer
* `State`, `Phase`
* `CallStep`, `CurlStep`, `WaitStep`, `FailStep`, `Step`
-/

set_option autoImplicit false

namespace Cargo.Core.Downloads

/-- The errors of curl, as far as they are told apart. -/
inductive CurlError
  | couldntConnect
  | couldntResolveProxy
  | couldntResolveHost
  | operationTimedout
  | recvError
  | abortedByCallback
  | other (code : ℕ)
  deriving DecidableEq

/-- Why a transfer failed. -/
inductive Failure
  | curl (e : CurlError)
  | httpNot200 (code : ℕ)
  deriving DecidableEq

/-- Might another attempt succeed? -/
def Failure.maybeSpurious : Failure → Bool
  | .curl .couldntConnect | .curl .couldntResolveProxy | .curl .couldntResolveHost
  | .curl .operationTimedout | .curl .recvError => true
  | .curl _ => false
  | .httpNot200 code => decide (500 ≤ code ∧ code < 600)

/-- How curl says that a transfer ended: its own result, and the response code. -/
structure Done where
  result : Except CurlError Unit
  code : ℕ

/-- What comes of a transfer. If it was aborted by the callback after a timeout, then it has
timed out. -/
def verdict (timedOut : Bool) (result : Except CurlError Unit) (code : ℕ) : Except Failure Unit :=
  match result with
  | .error .abortedByCallback =>
    .error (.curl (if timedOut then .operationTimedout else .abortedByCallback))
  | .error e => .error (.curl e)
  | .ok () => if code ≠ 200 ∧ code ≠ 0 then .error (.httpNot200 code) else .ok ()

/-- A download in progress, with the handle of its transfer. -/
structure Download (I : Type) where
  token : ℕ
  id : I
  data : List UInt8
  timedOut : Bool
  /-- How many more attempts there may be. -/
  remaining : ℕ
  handle : ℕ

/-- A transfer, as curl knows it: the package it was set up for, its token, the bytes that were
written, and how it ended. -/
structure Attempt (I : Type) where
  id : I
  token : ℕ
  written : List UInt8
  done : Option Done

/-- Did the transfer succeed? -/
def Attempt.Succeeded {I : Type} (a : Attempt I) : Prop :=
  ∃ code, a.done = some ⟨.ok (), code⟩ ∧ (code = 200 ∨ code = 0)

/-- Where the caller is. -/
inductive Phase (I : Type)
  /-- Between two calls. -/
  | idle
  /-- In `wait`, while curl performs. -/
  | performing
  /-- In `wait`, with the result of a transfer. -/
  | processing (token : ℕ) (result : Except CurlError Unit)
  /-- In `wait`, with the bytes of a download. -/
  | finishing (dl : Download I) (data : List UInt8)
  /-- An error is reported. -/
  | failed
  /-- An assertion failed, or something was missing. -/
  | panicked

/-- The state of the downloads and of curl. All transfers are kept, those in `multi` are added
at present, and `messages` are those that ended and were not reported yet. The last four fields
record what has happened: the packages queued for download, those returned by `wait`, what was
handed to `finish_download`, with the transfer it comes from, and whether the caller went on after
an error. -/
structure State (I Pkg : Type) where
  slots : I → Option Pkg
  pending : List (Download I)
  pendingIds : Finset I
  results : List (ℕ × Except CurlError Unit)
  next : ℕ
  attempts : List (Attempt I)
  multi : Finset ℕ
  messages : List ℕ
  phase : Phase I
  queued : List I
  returned : List I
  finished : List (I × List UInt8 × ℕ)
  resumed : Bool

namespace State

variable {I Pkg : Type}

/-- Nothing has been started; some packages may be there already. -/
def init (slots : I → Option Pkg) : State I Pkg where
  slots
  pending := []
  pendingIds := ∅
  results := []
  next := 0
  attempts := []
  multi := ∅
  messages := []
  phase := .idle
  queued := []
  returned := []
  finished := []
  resumed := false

/-- The download with a token. -/
def download? (s : State I Pkg) (token : ℕ) : Option (Download I) :=
  s.pending.find? fun dl => dl.token = token

/-- Change the download with a token. -/
def modify (s : State I Pkg) (token : ℕ) (f : Download I → Download I) : State I Pkg :=
  { s with pending := s.pending.map fun dl => if dl.token = token then f dl else dl }

/-- The callback of a transfer for bytes: there has to be a download with its token. -/
def writeFunction (s : State I Pkg) (token : ℕ) (bytes : List UInt8) : State I Pkg :=
  match s.download? token with
  | none => { s with phase := .panicked }
  | some _ => s.modify token fun dl => { dl with data := dl.data ++ bytes }

/-- The callback of a transfer for its progress, which notes a timeout. -/
def progressFunction (s : State I Pkg) (token : ℕ) (timedOut : Bool) : State I Pkg :=
  match s.download? token with
  | none => { s with phase := .panicked }
  | some _ => s.modify token fun dl => { dl with timedOut := dl.timedOut || timedOut }

/-- The loop of `wait` starts over. -/
def loop (s : State I Pkg) : State I Pkg :=
  { s with
    phase := if s.pending.length = s.pendingIds.card then .performing else .panicked }

/-- Add a transfer for a download. -/
def enqueue (s : State I Pkg) (dl : Download I) : State I Pkg :=
  { s with
    attempts := s.attempts ++ [⟨dl.id, dl.token, [], none⟩]
    multi := insert s.attempts.length s.multi
    pending := s.pending.filter (fun other => other.token ≠ dl.token) ++
      [{ dl with timedOut := false, handle := s.attempts.length }] }

/-- What one message of curl adds to the results: there has to be a download with its token,
and it counts if the handle is that of the download. -/
def readMessage (s : State I Pkg) (handle : ℕ) : Option (List (ℕ × Except CurlError Unit)) :=
  (s.attempts[handle]?).bind fun a =>
    (s.download? a.token).map fun dl =>
      if dl.handle = handle then a.done.toList.map fun d => (a.token, d.result) else []

/-- Read all messages and take the last result, if there is one. -/
def waitForCurl (s : State I Pkg) : State I Pkg :=
  match s.messages.mapM s.readMessage with
  | none => { s with phase := .panicked }
  | some new =>
    let results := s.results ++ new.flatten
    match results.getLast? with
    | some (token, result) =>
      { s with messages := [], results := results.dropLast, phase := .processing token result }
    | none =>
      { s with messages := [], results, phase := if s.pending = [] then .panicked else s.phase }

variable [DecidableEq I]

/-- Queue a package for download. -/
def startDownload (s : State I Pkg) (id : I) (retries : ℕ) : State I Pkg :=
  if id ∈ s.pendingIds then { s with phase := .panicked }
  else
    { s with
      next := s.next + 1
      pendingIds := insert id s.pendingIds
      queued := s.queued ++ [id] }.enqueue ⟨s.next, id, [], false, retries, 0⟩

/-- The download of a result is taken out. -/
def remove (s : State I Pkg) (dl : Download I) : State I Pkg :=
  { s with
    pending := s.pending.filter fun other => other.token ≠ dl.token
    multi := s.multi.erase dl.handle
    pendingIds := s.pendingIds.erase dl.id }

/-- Handle the result of a transfer: there has to be a download with its token. -/
def process (s : State I Pkg) (token : ℕ) (result : Except CurlError Unit) : State I Pkg :=
  match s.download? token with
  | none => { s with phase := .panicked }
  | some dl =>
    let code := ((s.attempts[dl.handle]?).bind Attempt.done).elim 0 Done.code
    match verdict dl.timedOut result code with
    | .ok () => { s.remove dl with phase := .finishing dl dl.data }
    | .error e =>
      -- one try less, under the same token; the id is noted again
      if e.maybeSpurious ∧ 0 < dl.remaining then
        ({ s.remove dl with pendingIds := insert dl.id (s.remove dl).pendingIds }.enqueue
          { dl with data := [], remaining := dl.remaining - 1 }).loop
      else { s.remove dl with phase := .failed }

/-- The package of a download is there: its slot has to be empty. -/
def finish (packages : Finset I) (s : State I Pkg) (dl : Download I) (data : List UInt8)
    (pkg : Pkg) : State I Pkg :=
  if dl.id ∈ packages ∧ (s.slots dl.id).isNone then
    { s with
      slots := Function.update s.slots dl.id (some pkg)
      returned := s.returned ++ [dl.id]
      finished := s.finished ++ [(dl.id, data, dl.handle)]
      phase := .idle }
  else { s with finished := s.finished ++ [(dl.id, data, dl.handle)], phase := .panicked }

end State

section Steps

variable {I Pkg : Type} [DecidableEq I]

/-- The calls of `start`, for a package that is not pending, and of `wait`, while something is
pending. -/
inductive CallStep (packages : Finset I) : State I Pkg → State I Pkg → Prop
  /-- The package is there. -/
  | cached {s : State I Pkg} {id : I} {pkg : Pkg} (hphase : s.phase = .idle)
    (hid : id ∈ packages) (hslot : s.slots id = some pkg) : CallStep packages s s
  /-- Its source has it ready. -/
  | ready {s : State I Pkg} {id : I} (pkg : Pkg) (hphase : s.phase = .idle) (hid : id ∈ packages)
    (hslot : s.slots id = none) (hpending : ∀ dl ∈ s.pending, dl.id ≠ id) :
    CallStep packages s { s with slots := Function.update s.slots id (some pkg) }
  | download {s : State I Pkg} {id : I} (retries : ℕ) (hphase : s.phase = .idle)
    (hid : id ∈ packages) (hslot : s.slots id = none)
    (hpending : ∀ dl ∈ s.pending, dl.id ≠ id) :
    CallStep packages s (s.startDownload id retries)
  | wait {s : State I Pkg} (hphase : s.phase = .idle) (hpending : s.pending ≠ []) :
    CallStep packages s s.loop

/-- The transfer ends. -/
inductive Completes (handle : ℕ) : State I Pkg → State I Pkg → Prop
  | done {s : State I Pkg} {a : Attempt I} (hphase : s.phase = .performing)
    (hmulti : handle ∈ s.multi) (ha : s.attempts[handle]? = some a) (hopen : a.done = none)
    (d : Done) :
    Completes handle s
      { s with
        attempts := s.attempts.set handle { a with done := some d }
        messages := s.messages ++ [handle] }

/-- What curl does while it performs, for a transfer that was added and has not ended. -/
inductive CurlStep : State I Pkg → State I Pkg → Prop
  | write {s : State I Pkg} {handle : ℕ} {a : Attempt I} (hphase : s.phase = .performing)
    (hmulti : handle ∈ s.multi) (ha : s.attempts[handle]? = some a) (hopen : a.done = none)
    (bytes : List UInt8) :
    CurlStep s
      (State.writeFunction { s with
        attempts := s.attempts.set handle { a with written := a.written ++ bytes } }
          a.token bytes)
  | progress {s : State I Pkg} {handle : ℕ} {a : Attempt I} (hphase : s.phase = .performing)
    (hmulti : handle ∈ s.multi) (ha : s.attempts[handle]? = some a) (hopen : a.done = none)
    (timedOut : Bool) : CurlStep s (s.progressFunction a.token timedOut)
  | complete {s s' : State I Pkg} (handle : ℕ) (h : Completes handle s s') : CurlStep s s'
  /-- Nothing has ended: wait for curl. -/
  | block {s : State I Pkg} (hphase : s.phase = .performing) (hmessages : s.messages = [])
    (hresults : s.results = []) : CurlStep s s.waitForCurl

/-- The steps of `wait` after something has ended. -/
inductive WaitStep (packages : Finset I) : State I Pkg → State I Pkg → Prop
  | collect {s : State I Pkg} (hphase : s.phase = .performing)
    (hsome : s.messages ≠ [] ∨ s.results ≠ []) : WaitStep packages s s.waitForCurl
  | process {s : State I Pkg} {token : ℕ} {result : Except CurlError Unit}
    (hphase : s.phase = .processing token result) : WaitStep packages s (s.process token result)
  | finish {s : State I Pkg} {dl : Download I} {data : List UInt8} (pkg : Pkg)
    (hphase : s.phase = .finishing dl data) : WaitStep packages s (s.finish packages dl data pkg)

/-- Errors that are reported. -/
inductive FailStep (packages : Finset I) : State I Pkg → State I Pkg → Prop
  /-- The package is not known, or its source is not, or it cannot be had. -/
  | start {s : State I Pkg} (hphase : s.phase = .idle) :
    FailStep packages s { s with phase := .failed }
  /-- The transfer cannot be set up, after the package was noted as pending. -/
  | setUp {s : State I Pkg} (id : I) (hphase : s.phase = .idle) (hid : id ∈ packages)
    (hslot : s.slots id = none) (hpending : ∀ dl ∈ s.pending, dl.id ≠ id) :
    FailStep packages s
      { s with
        next := s.next + 1
        pendingIds := insert id s.pendingIds
        phase := if id ∈ s.pendingIds then .panicked else .failed }
  /-- The progress cannot be printed, after the transfer was added. -/
  | tick {s : State I Pkg} {id : I} (retries : ℕ) (hphase : s.phase = .idle)
    (hid : id ∈ packages) (hslot : s.slots id = none)
    (hpending : ∀ dl ∈ s.pending, dl.id ≠ id)
    (hstarted : (s.startDownload id retries).phase = .idle) :
    FailStep packages s { s.startDownload id retries with phase := .failed }
  | perform {s : State I Pkg} (hphase : s.phase = .performing) :
    FailStep packages s { s with phase := .failed }
  /-- The transfer cannot be taken out, after its download was. -/
  | takeOut {s : State I Pkg} {token : ℕ} {result : Except CurlError Unit} {dl : Download I}
    (hphase : s.phase = .processing token result) (hdl : s.download? token = some dl) :
    FailStep packages s
      { s with pending := s.pending.filter fun other => other.token ≠ dl.token, phase := .failed }
  /-- The response code cannot be had, or a warning cannot be printed. -/
  | warn {s : State I Pkg} {token : ℕ} {result : Except CurlError Unit} {dl : Download I}
    (hphase : s.phase = .processing token result) (hdl : s.download? token = some dl) :
    FailStep packages s { s.remove dl with phase := .failed }
  /-- The transfer cannot be added again, after the package was noted as pending again. -/
  | addAgain {s : State I Pkg} {token : ℕ} {result : Except CurlError Unit} {dl : Download I}
    (hphase : s.phase = .processing token result) (hdl : s.download? token = some dl) :
    FailStep packages s
      { s.remove dl with
        pendingIds := insert dl.id (s.remove dl).pendingIds
        phase := .failed }
  /-- A message cannot be printed. -/
  | announce {s : State I Pkg} {dl : Download I} {data : List UInt8}
    (hphase : s.phase = .finishing dl data) : FailStep packages s { s with phase := .failed }
  /-- The package cannot be unpacked. -/
  | finish {s : State I Pkg} {dl : Download I} {data : List UInt8}
    (hphase : s.phase = .finishing dl data) :
    FailStep packages s
      { s with finished := s.finished ++ [(dl.id, data, dl.handle)], phase := .failed }

/-- A step of the system. -/
inductive Step (packages : Finset I) : State I Pkg → State I Pkg → Prop
  | call {s s' : State I Pkg} (h : CallStep packages s s') : Step packages s s'
  | curl {s s' : State I Pkg} (h : CurlStep s s') : Step packages s s'
  | wait {s s' : State I Pkg} (h : WaitStep packages s s') : Step packages s s'
  | fail {s s' : State I Pkg} (h : FailStep packages s s') : Step packages s s'
  /-- The caller goes on after an error. -/
  | resume {s : State I Pkg} (hphase : s.phase = .failed) :
    Step packages s { s with phase := .idle, resumed := true }

end Steps

end Cargo.Core.Downloads
