import Cargo.Compiler.Fingerprint.DepInfo
import Cargo.Math.FormCoding
import Cargo.Math.Iteration

/-!
# Running a program and reading what it prints

The output and the errors of a child are read at the same time, as they come. What was read is
kept back up to the last line feed, so that the callbacks are given whole lines; what is left when
a pipe ends is a line too. Each piece is decoded by itself. After a callback has failed no other is
called, and the pipes are read to their ends all the same.

## Main definitions

* `read2` — reading two pipes until both have ended
* `Sink.data` — what is done with the bytes that were read
* `execWithStreaming` — running a program
* `Streamed` — what the callbacks and the output are to be, whatever the pieces were

## Main results

* `linesOf_append` — lines can be decoded piece by piece
* `execWithStreaming_streamed` — the result depends on the streams, and not on how they were read
-/

set_option autoImplicit false

namespace Cargo.Util.ProcessBuilder

open Cargo.Math
open Cargo.Core (Text)
open Cargo.Compiler.Fingerprint (lines lines_nil lines_append_newline)

abbrev Bytes := List UInt8

/-- The pipes of a child. -/
inductive Pipe
  | err
  | out
  deriving DecidableEq, Repr

/-! ### Reading two pipes -/

/-- How a read ends: the pipe is at its end, it has no more bytes yet, or something is wrong. -/
inductive ReadEnd
  | eof
  | wouldBlock
  | failed

/-- What `read_to_end` finds. -/
structure Read where
  bytes : Bytes
  ending : ReadEnd

/-- What `poll` answers: which of the pipes that were asked about can be read, and what is found
there. -/
inductive Poll
  | interrupted
  | failed
  | ready (revents : Pipe → Bool) (read : Pipe → Read)

inductive ReadError
  | io
  /-- The pipes are not at their ends, and `poll` does not return. -/
  | blocked
  deriving DecidableEq, Repr

/-- The state of the loop. The pipes asked about are the first `nfds` of `fds`, and the errors are
asked about at `errfd`. -/
structure Reader (S : Type) where
  done : Pipe → Bool
  buf : Pipe → Bytes
  fds : Fin 2 → Pipe
  revents : Fin 2 → Bool
  errfd : Fin 2
  nfds : ℕ
  sink : S

namespace Reader

variable {S : Type}

def start (sink : S) : Reader S where
  done _ := false
  buf _ := []
  fds i := if i = 0 then .out else .err
  revents _ := false
  errfd := 1
  nfds := 2
  sink

/-- Where a pipe is asked about. -/
def slot (s : Reader S) : Pipe → Fin 2
  | .err => s.errfd
  | .out => 0

/-- A pipe is at its end. The errors are asked about in the first place after the output has
ended. -/
def close (s : Reader S) : Pipe → Reader S
  | .err => { s with done := Function.update s.done .err true, nfds := s.nfds - 1 }
  | .out =>
    { s with
      done := Function.update s.done .out true
      fds := Function.update s.fds 0 .err
      errfd := 0
      nfds := s.nfds - 1 }

def push (s : Reader S) (pipe : Pipe) (bytes : Bytes) : Reader S :=
  { s with buf := Function.update s.buf pipe (s.buf pipe ++ bytes) }

/-- Hand on what was read. -/
def hand (data : Pipe → Bytes → Bool → S → Bytes × S) (pipe : Pipe) (s : Reader S) : Reader S :=
  let r := data pipe (s.buf pipe) (s.done pipe) s.sink
  { s with buf := Function.update s.buf pipe r.1, sink := r.2 }

/-- Read one of the pipes, if it can be read. -/
def turn (data : Pipe → Bytes → Bool → S → Bytes × S) (read : Pipe → Read) (pipe : Pipe)
    (s : Reader S) : Except ReadError (Reader S) :=
  if s.done pipe = false ∧ s.revents (s.slot pipe) = true then
    match (read pipe).ending with
    | .failed => .error .io
    | .wouldBlock => .ok ((s.push pipe (read pipe).bytes).hand data pipe)
    | .eof => .ok (((s.push pipe (read pipe).bytes).close pipe).hand data pipe)
  else .ok (s.hand data pipe)

/-- The answers of `poll` for the pipes that were asked about. -/
def answered (revents : Pipe → Bool) (s : Reader S) : Reader S :=
  { s with revents := fun i => if i < s.nfds then revents (s.fds i) else s.revents i }

def loop (data : Pipe → Bytes → Bool → S → Bytes × S) :
    List Poll → Reader S → Except ReadError S
  | [], s => if s.nfds = 0 then .ok s.sink else .error .blocked
  | poll :: polls, s =>
    if s.nfds = 0 then .ok s.sink
    else
      match poll with
      | .interrupted => loop data polls s
      | .failed => .error .io
      | .ready revents read => do
        let s ← (s.answered revents).turn data read .err
        let s ← s.turn data read .out
        loop data polls s

end Reader

/-- Read both pipes until they end. -/
def read2 {S : Type} (polls : List Poll) (data : Pipe → Bytes → Bool → S → Bytes × S) (sink : S) :
    Except ReadError S :=
  Reader.loop data polls (.start sink)

/-- The bytes that come through a pipe until it ends, if it does and nothing goes wrong. -/
def stream (pipe : Pipe) : List Poll → Option Bytes
  | [] => none
  | .interrupted :: polls => stream pipe polls
  | .failed :: _ => none
  | .ready revents read :: polls =>
    if revents pipe then
      match (read pipe).ending with
      | .failed => none
      | .wouldBlock => (stream pipe polls).map ((read pipe).bytes ++ ·)
      | .eof => some (read pipe).bytes
    else stream pipe polls

/-! ### What is done with the bytes -/

/-- What a callback does may depend on the calls there were. -/
abbrev Callback (E : Type) := List (Pipe × Text) → Pipe → Text → Except E Unit

/-- What was collected of the streams, the lines the callbacks were given, and the first error. -/
structure Sink (E : Type) where
  dst : Pipe → Bytes
  calls : List (Pipe × Text)
  callbackError : Option E

namespace Sink

variable {E : Type}

def empty : Sink E where
  dst _ := []
  calls := []
  callbackError := none

/-- One line, unless a callback has failed. -/
def line (callback : Callback E) (pipe : Pipe) (s : Sink E) (l : Text) : Sink E :=
  match s.callbackError with
  | some _ => s
  | none =>
    { s with
      calls := s.calls ++ [(pipe, l)]
      callbackError :=
        match callback s.calls pipe l with
        | .ok _ => none
        | .error e => some e }

/-- The number of bytes up to the last line feed. -/
def upToNewline (data : Bytes) : Option ℕ :=
  (data.reverse.findIdx? (· = 10)).map (data.length - ·)

/-- Take the whole lines out of the buffer, or everything at the end of the pipe. -/
def data (callback : Callback E) (pipe : Pipe) (data : Bytes) (eof : Bool) (s : Sink E) :
    Bytes × Sink E :=
  match if eof then some data.length else upToNewline data with
  | none => (data, s)
  | some idx =>
    let start := (s.dst pipe).length
    let dst := s.dst pipe ++ data.take idx
    (data.drop idx,
      (lines (lossy (dst.drop start))).foldl (line callback pipe)
        { s with dst := Function.update s.dst pipe dst })

end Sink

/-! ### Running a program -/

structure Output (X : Type) where
  stdout : Bytes
  stderr : Bytes
  status : X

structure ProcessError (X : Type) where
  desc : String
  exit : Option X
  output : Option (Output X)

inductive ExecError (E X : Type)
  /-- The child cannot be started, read or waited for. -/
  | io (context : ProcessError X)
  | process (error : ProcessError X)
  | callback (error : E) (context : ProcessError X)

/-- Run a program: `spawn` says whether it can be started, and `wait` how it has ended. -/
def execWithStreaming {E X : Type} (command : String) (spawn : Bool) (polls : List Poll)
    (wait : Option X) (success : X → Bool) (callback : Callback E) (printOutput : Bool) :
    Except (ExecError E X) (Output X) :=
  let failed : ExecError E X := .io ⟨"could not execute process " ++ command, none, none⟩
  if spawn then
    match read2 polls (Sink.data callback) .empty, wait with
    | .ok sink, some status =>
      let output : Output X := ⟨sink.dst .out, sink.dst .err, status⟩
      let toPrint := if printOutput then some output else none
      if success status then
        -- an error of a callback is seen only if the process succeeded
        match sink.callbackError with
        | none => .ok output
        | some e =>
          .error (.callback e
            ⟨"failed to parse process output: " ++ command, some status, toPrint⟩)
      else
        .error (.process
          ⟨"process didn't exit successfully: " ++ command, some status, toPrint⟩)
    | _, _ => .error failed
  else .error failed

/-! ### Lines of bytes -/

/-- The lines of a stream, decoded as a whole. -/
def linesOf (bytes : Bytes) : List Text := lines (lossy bytes)

/-- Nothing, or a number of whole lines. -/
def WholeLines (bytes : Bytes) : Prop := bytes = [] ∨ ∃ front, bytes = front ++ [10]

theorem linesOf_nil : linesOf [] = [] := rfl

theorem linesOf_line_append (front back : Bytes) :
    linesOf (front ++ [10] ++ back) = linesOf (front ++ [10]) ++ linesOf back := by
  have hfront : lossy (front ++ [10]) = lossy front ++ ['\n'] := lossy_append_newline front []
  rw [linesOf, List.append_assoc, List.singleton_append, lossy_append_newline,
    lines_append_newline, linesOf, hfront, linesOf]

/-- Lines can be decoded piece by piece: no character goes on after a line feed. -/
theorem linesOf_append {front back : Bytes} (h : WholeLines front ∨ back = []) :
    linesOf (front ++ back) = linesOf front ++ linesOf back := by
  rcases h with (rfl | ⟨front, rfl⟩) | rfl
  · rfl
  · exact linesOf_line_append front back
  · rw [List.append_nil, linesOf_nil, List.append_nil]

theorem WholeLines.append {front back : Bytes} (hfront : WholeLines front)
    (hback : WholeLines back) : WholeLines (front ++ back) := by
  rcases hback with rfl | ⟨back, rfl⟩
  · rwa [List.append_nil]
  · exact .inr ⟨front ++ back, by rw [List.append_assoc]⟩

/-- What is taken out of a buffer is whole lines. -/
theorem wholeLines_take {data : Bytes} {idx : ℕ} (h : Sink.upToNewline data = some idx) :
    WholeLines (data.take idx) := by
  obtain ⟨i, hi, rfl⟩ := Option.map_eq_some_iff.mp h
  obtain ⟨hlt, hnewline, -⟩ := List.findIdx?_eq_some_iff_getElem.mp hi
  rw [List.length_reverse] at hlt
  right
  refine ⟨data.take (data.length - 1 - i), ?_⟩
  rw [List.getElem_reverse, decide_eq_true_eq] at hnewline
  rw [← hnewline, List.take_append_getElem]
  congr 1
  omega

/-! ### What the callbacks are given -/

/-- All of these calls succeed, each after those before it. -/
def Succeed {E : Type} (callback : Callback E) (calls : List (Pipe × Text)) : Prop :=
  ∀ before call after, calls = before ++ call :: after → callback before call.1 call.2 = .ok ()

/-- The calls that were made, of those that there are lines for: all of them, or all up to the
first that fails. -/
inductive Answered {E : Type} (callback : Callback E) (s : Sink E)
    (offered : List (Pipe × Text)) : Prop
  | all (herror : s.callbackError = none) (hcalls : s.calls = offered)
      (hsucceed : Succeed callback offered)
  | failed (e : E) (before : List (Pipe × Text)) (call : Pipe × Text)
      (after : List (Pipe × Text)) (herror : s.callbackError = some e)
      (hcalls : s.calls = before ++ [call]) (hoffered : offered = before ++ call :: after)
      (hfailed : callback before call.1 call.2 = .error e) (hsucceed : Succeed callback before)

section Callbacks

variable {E : Type} {callback : Callback E} {s : Sink E} {offered : List (Pipe × Text)}
  {pipe : Pipe}

theorem Succeed.nil : Succeed callback [] := by
  intro before call after h
  simp at h

theorem Succeed.concat {call : Pipe × Text} (h : Succeed callback offered)
    (hcall : callback offered call.1 call.2 = .ok ()) : Succeed callback (offered ++ [call]) := by
  intro before call' after heq
  rcases List.eq_nil_or_concat' after with rfl | ⟨after, last, rfl⟩
  · obtain ⟨rfl, hlast⟩ := List.append_inj' heq rfl
    cases hlast
    exact hcall
  · rw [← List.cons_append, ← List.append_assoc] at heq
    exact h before call' after (List.append_inj' heq rfl).1

/-- One line more. -/
theorem Answered.line (h : Answered callback s offered) (pipe : Pipe) (l : Text) :
    Answered callback (s.line callback pipe l) (offered ++ [(pipe, l)]) := by
  cases h with
  | all herror hcalls hsucceed =>
    subst hcalls
    unfold Sink.line
    rw [herror]
    cases hcall : callback s.calls pipe l with
    | ok _ =>
      apply Answered.all
      · simp
      · rfl
      · exact hsucceed.concat hcall
    | error e =>
      apply Answered.failed e s.calls (pipe, l) []
      · simp
      · rfl
      · rfl
      · exact hcall
      · exact hsucceed
  | failed e before call after herror hcalls hoffered hfailed hsucceed =>
    have hline : s.line callback pipe l = s := by
      rw [Sink.line, herror]
    rw [hline]
    apply Answered.failed e before call (after ++ [(pipe, l)]) herror hcalls _ hfailed hsucceed
    rw [hoffered, List.append_assoc, List.cons_append]

theorem Answered.foldl_line (h : Answered callback s offered) (pipe : Pipe) (ls : List Text) :
    Answered callback (ls.foldl (Sink.line callback pipe) s)
      (offered ++ ls.map fun l => (pipe, l)) := by
  induction ls generalizing s offered with
  | nil => simpa using h
  | cons l ls ih =>
    rw [List.map_cons, List.append_cons]
    exact ih (h.line pipe l)

@[simp] theorem dst_line (callback : Callback E) (pipe : Pipe) (s : Sink E) (l : Text) :
    (s.line callback pipe l).dst = s.dst := by
  unfold Sink.line
  split <;> rfl

@[simp] theorem dst_foldl_line (ls : List Text) :
    (ls.foldl (Sink.line callback pipe) s).dst = s.dst :=
  foldl_rel (R := fun s t : Sink E => t.dst = s.dst) (fun _ => rfl) (fun h h' => h'.trans h)
    (dst_line callback pipe) ls s

/-- The lines of one pipe, of those in a list. -/
def linesFor (pipe : Pipe) (calls : List (Pipe × Text)) : List Text :=
  (calls.filter (·.1 = pipe)).map Prod.snd

@[simp] theorem linesFor_append (pipe : Pipe) (calls calls' : List (Pipe × Text)) :
    linesFor pipe (calls ++ calls') = linesFor pipe calls ++ linesFor pipe calls' := by
  simp [linesFor]

theorem linesFor_map (pipe p : Pipe) (ls : List Text) :
    linesFor p (ls.map fun l => (pipe, l)) = if p = pipe then ls else [] := by
  unfold linesFor
  split
  · rename_i heq
    subst heq
    simp [List.filter_map, Function.comp_def]
  · rename_i hne
    simp [List.filter_map, Function.comp_def, Ne.symm hne]

end Callbacks

/-! ### What is collected -/

/-- Up to now the callbacks were offered the lines of what was collected. -/
def Offers {E : Type} (callback : Callback E) (s : Sink E) : Prop :=
  ∃ offered, Answered callback s offered ∧ ∀ p, linesFor p offered = linesOf (s.dst p)

section Data

variable {E : Type} {callback : Callback E} {s : Sink E} {pipe : Pipe}

theorem Offers.empty : Offers callback (Sink.empty : Sink E) :=
  ⟨[], .all rfl rfl .nil, fun _ => rfl⟩

/-- Taking bytes out of the buffer. -/
theorem Offers.take (h : Offers callback s) {piece : Bytes}
    (hpiece : WholeLines (s.dst pipe) ∨ piece = []) :
    Offers callback ((lines (lossy ((s.dst pipe ++ piece).drop (s.dst pipe).length))).foldl
      (Sink.line callback pipe)
      { s with dst := Function.update s.dst pipe (s.dst pipe ++ piece) }) := by
  obtain ⟨offered, hanswered, hlines⟩ := h
  have hstart : Answered callback
      { s with dst := Function.update s.dst pipe (s.dst pipe ++ piece) } offered := by
    cases hanswered with
    | all herror hcalls hsucceed => exact .all herror hcalls hsucceed
    | failed e before call after herror hcalls hoffered hfailed hsucceed =>
      exact .failed e before call after herror hcalls hoffered hfailed hsucceed
  rw [List.drop_left]
  refine ⟨_, hstart.foldl_line pipe _, ?_⟩
  intro p
  rw [linesFor_append, linesFor_map, dst_foldl_line, hlines]
  by_cases hp : p = pipe
  · subst hp
    simp only [if_true, Function.update_self, linesOf_append hpiece]
    rfl
  · simp only [if_neg hp, List.append_nil, Function.update_of_ne hp]

/-- What becomes of the buffer: what leaves it is collected, and all of it at the end of the
pipe. Before that only whole lines leave it. -/
structure Moved (callback : Callback E) (pipe : Pipe) (buf : Bytes) (eof : Bool) (s : Sink E)
    (r : Bytes × Sink E) : Prop where
  offers : Offers callback r.2
  dst_append : r.2.dst pipe ++ r.1 = s.dst pipe ++ buf
  other : ∀ p, p ≠ pipe → r.2.dst p = s.dst p
  rest : eof = true → r.1 = []
  whole : eof = false → WholeLines (r.2.dst pipe)

theorem moved_data (h : Offers callback s) (pipe : Pipe) (buf : Bytes) (eof : Bool)
    (hwhole : WholeLines (s.dst pipe) ∨ buf = [] ∧ eof = true) :
    Moved callback pipe buf eof s (s.data callback pipe buf eof) := by
  -- what is left in the buffer comes after what is taken
  have htaken : ∀ idx, WholeLines (s.dst pipe) ∨ buf.take idx = [] →
      Offers callback ((lines (lossy ((s.dst pipe ++ buf.take idx).drop (s.dst pipe).length))).foldl
        (Sink.line callback pipe)
        { s with dst := Function.update s.dst pipe (s.dst pipe ++ buf.take idx) }) :=
    fun idx => h.take
  cases eof with
  | true =>
    have hpiece : WholeLines (s.dst pipe) ∨ buf.take buf.length = [] := by
      rw [List.take_length]
      exact hwhole.imp_right And.left
    exact
      { offers := htaken buf.length hpiece
        dst_append := by simp [Sink.data]
        other := by
          intro p hp
          simp [Sink.data, Function.update_of_ne hp]
        rest := by simp [Sink.data]
        whole := by simp }
  | false =>
    have hdst : WholeLines (s.dst pipe) := by simpa using hwhole
    unfold Sink.data
    cases hidx : Sink.upToNewline buf with
    | none =>
      exact ⟨h, rfl, fun _ _ => rfl, by simp, fun _ => hdst⟩
    | some idx =>
      exact
        { offers := htaken idx (.inl hdst)
          dst_append := by simp
          other := by
            intro p hp
            simp [Function.update_of_ne hp]
          rest := by simp
          whole := by
            intro _
            simpa using hdst.append (wholeLines_take hidx) }

end Data

/-! ### The loop -/

namespace Reader

section Wired

variable {S : Type} {s : Reader S} {pipe : Pipe}

/-! Closing a pipe changes what is asked about, and nothing else. -/

@[simp] theorem close_sink (pipe : Pipe) (s : Reader S) : (s.close pipe).sink = s.sink := by
  cases pipe <;> rfl

@[simp] theorem close_buf (pipe : Pipe) (s : Reader S) : (s.close pipe).buf = s.buf := by
  cases pipe <;> rfl

theorem close_revents (pipe : Pipe) (s : Reader S) : (s.close pipe).revents = s.revents := by
  cases pipe <;> rfl

theorem close_done_self (pipe : Pipe) (s : Reader S) : (s.close pipe).done pipe = true := by
  cases pipe <;> simp [close]

/-- Each pipe that has not ended is asked about, in the place where its answer is looked up. -/
def Wired (s : Reader S) : Prop :=
  match s.done .err, s.done .out with
  | false, false => s.nfds = 2 ∧ s.fds 0 = .out ∧ s.fds 1 = .err ∧ s.errfd = 1
  | true, false => s.nfds = 1 ∧ s.fds 0 = .out
  | false, true => s.nfds = 1 ∧ s.fds 0 = .err ∧ s.errfd = 0
  | true, true => s.nfds = 0

theorem Wired.start (sink : S) : Wired (Reader.start sink) := ⟨rfl, rfl, rfl, rfl⟩

theorem Wired.close (h : s.Wired) (hpipe : s.done pipe = false) : (s.close pipe).Wired := by
  unfold Wired at h
  cases pipe with
  | err =>
    cases hout : s.done .out <;>
      simp_all [Wired, Reader.close]
  | out =>
    cases herr : s.done .err <;>
      simp_all [Wired, Reader.close]

/-- The loop ends when both pipes have ended. -/
theorem Wired.nfds_eq_zero (h : s.Wired) : s.nfds = 0 ↔ ∀ p, s.done p = true := by
  have hall : (∀ p, s.done p = true) ↔ s.done .err = true ∧ s.done .out = true :=
    ⟨fun h => ⟨h .err, h .out⟩, fun h p => by cases p <;> simp [h]⟩
  rw [hall]
  unfold Wired at h
  cases herr : s.done .err <;> cases hout : s.done .out <;> simp_all

theorem Wired.answered (h : s.Wired) (revents : Pipe → Bool) (hpipe : s.done pipe = false) :
    (s.answered revents).revents (s.slot pipe) = revents pipe := by
  unfold Wired at h
  cases pipe with
  | err =>
    cases hout : s.done .out <;> simp_all [Reader.answered, slot]
  | out =>
    cases herr : s.done .err <;> simp_all [Reader.answered, slot]

end Wired

section Turn

variable {E : Type} {callback : Callback E} {s : Reader (Sink E)} {pipe : Pipe}
  {total : Pipe → Bytes} {polls : List Poll}

/-- What was collected, what is in the buffer and what is still to come are the whole stream.
Nothing is to come after the end. -/
def Pending (polls : List Poll) (total : Pipe → Bytes) (s : Reader (Sink E)) (p : Pipe) : Prop :=
  if s.done p then s.buf p = [] ∧ s.sink.dst p = total p
  else WholeLines (s.sink.dst p) ∧
    ∃ rest, stream p polls = some rest ∧ s.sink.dst p ++ s.buf p ++ rest = total p

theorem Pending.congr {s' : Reader (Sink E)} (h : Pending polls total s pipe)
    (hdone : s'.done pipe = s.done pipe) (hbuf : s'.buf pipe = s.buf pipe)
    (hdst : s'.sink.dst pipe = s.sink.dst pipe) : Pending polls total s' pipe := by
  unfold Pending
  rw [hdone, hbuf, hdst]
  exact h

/-- The invariant of the loop. -/
structure Inv (callback : Callback E) (s : Reader (Sink E)) : Prop where
  offers : Offers callback s.sink
  wired : s.Wired

/-- Nothing happens to the other pipe. -/
structure Frame (pipe : Pipe) (s s' : Reader (Sink E)) : Prop where
  done : ∀ p, p ≠ pipe → s'.done p = s.done p
  buf : ∀ p, p ≠ pipe → s'.buf p = s.buf p
  dst : ∀ p, p ≠ pipe → s'.sink.dst p = s.sink.dst p
  revents : s'.revents = s.revents

theorem frame_hand (h : Moved callback pipe (s.buf pipe) (s.done pipe) s.sink
    (s.sink.data callback pipe (s.buf pipe) (s.done pipe))) :
    Frame pipe s (s.hand (Sink.data callback) pipe) where
  done _ _ := rfl
  buf p hp := by simp [hand, Function.update_of_ne hp]
  dst := h.other
  revents := rfl

/-- Handing on before the end: whole lines are collected. -/
theorem hand_open (h : Inv callback s) (hdone : s.done pipe = false) {rest : Bytes}
    (hwhole : WholeLines (s.sink.dst pipe)) (hrest : stream pipe polls = some rest)
    (htotal : s.sink.dst pipe ++ s.buf pipe ++ rest = total pipe) :
    Inv callback (s.hand (Sink.data callback) pipe) ∧
      Pending polls total (s.hand (Sink.data callback) pipe) pipe ∧
      Frame pipe s (s.hand (Sink.data callback) pipe) := by
  have hmoved := moved_data h.offers pipe (s.buf pipe) (s.done pipe) (.inl hwhole)
  refine ⟨⟨hmoved.offers, h.wired⟩, ?_, frame_hand hmoved⟩
  unfold Pending
  rw [if_neg (by simp [hand, hdone])]
  refine ⟨hmoved.whole hdone, rest, hrest, ?_⟩
  rw [← htotal, ← hmoved.dst_append]
  simp [hand]

/-- Handing on at the end: everything is collected. -/
theorem hand_done (polls : List Poll) (h : Inv callback s) (hdone : s.done pipe = true)
    (hwhole : WholeLines (s.sink.dst pipe) ∨ s.buf pipe = [])
    (htotal : s.sink.dst pipe ++ s.buf pipe = total pipe) :
    Inv callback (s.hand (Sink.data callback) pipe) ∧
      Pending polls total (s.hand (Sink.data callback) pipe) pipe ∧
      Frame pipe s (s.hand (Sink.data callback) pipe) := by
  have hmoved := moved_data h.offers pipe (s.buf pipe) (s.done pipe)
    (hwhole.imp_right fun hbuf => ⟨hbuf, hdone⟩)
  have hnil := hmoved.rest hdone
  refine ⟨⟨hmoved.offers, h.wired⟩, ?_, frame_hand hmoved⟩
  unfold Pending
  rw [if_pos (by simpa [hand] using hdone)]
  refine ⟨by simpa [hand] using hnil, ?_⟩
  rw [← htotal, ← hmoved.dst_append, hnil, List.append_nil]
  rfl

theorem frame_push (pipe : Pipe) (bytes : Bytes) (s : Reader (Sink E)) :
    Frame pipe s (s.push pipe bytes) where
  done _ _ := rfl
  buf p hp := by simp [push, Function.update_of_ne hp]
  dst _ _ := rfl
  revents := rfl

theorem frame_close (pipe : Pipe) (s : Reader (Sink E)) : Frame pipe s (s.close pipe) where
  done p hp := by cases pipe <;> simp [close, Function.update_of_ne hp]
  buf p _ := congrFun (close_buf pipe s) p
  dst p _ := congrFun (congrArg Sink.dst (close_sink pipe s)) p
  revents := close_revents pipe s

theorem Frame.trans {s₁ s₂ s₃ : Reader (Sink E)} (h : Frame pipe s₁ s₂) (h' : Frame pipe s₂ s₃) :
    Frame pipe s₁ s₃ where
  done p hp := (h'.done p hp).trans (h.done p hp)
  buf p hp := (h'.buf p hp).trans (h.buf p hp)
  dst p hp := (h'.dst p hp).trans (h.dst p hp)
  revents := h'.revents.trans h.revents

/-- One pipe, in one round: what was found there is taken over. -/
theorem turn_spec (pipe : Pipe) {revents : Pipe → Bool} {read : Pipe → Read}
    (h : Inv callback s)
    (hpending : Pending (.ready revents read :: polls) total s pipe)
    (hrevents : s.done pipe = false → s.revents (s.slot pipe) = revents pipe) :
    ∃ s', s.turn (Sink.data callback) read pipe = .ok s' ∧ Inv callback s' ∧
      Pending polls total s' pipe ∧ Frame pipe s s' := by
  unfold Pending at hpending
  unfold turn
  cases hdone : s.done pipe with
  | true =>
    rw [hdone, if_pos rfl] at hpending
    obtain ⟨hbuf, hdst⟩ := hpending
    -- the pipe has ended before: its buffer is empty, and handing it on adds nothing
    rw [if_neg (by simp)]
    refine ⟨_, rfl, hand_done polls h hdone (.inr hbuf) ?_⟩
    rw [hbuf, List.append_nil, hdst]
  | false =>
    rw [hdone, if_neg (by simp)] at hpending
    obtain ⟨hwhole, rest, hrest, htotal⟩ := hpending
    rw [hrevents hdone]
    rw [stream] at hrest
    cases hready : revents pipe with
    | false =>
      -- nothing is read, and the buffer is handed on as it was
      rw [hready, if_neg (by simp)] at hrest
      rw [if_neg (by simp)]
      exact ⟨_, rfl, hand_open h hdone hwhole hrest htotal⟩
    | true =>
      rw [hready, if_pos rfl] at hrest
      rw [if_pos ⟨rfl, rfl⟩]
      have hpush : Inv callback (s.push pipe (read pipe).bytes) := ⟨h.offers, h.wired⟩
      cases hend : (read pipe).ending with
      | failed =>
        rw [hend] at hrest
        cases hrest
      | wouldBlock =>
        rw [hend] at hrest
        obtain ⟨later, hlater, rfl⟩ := Option.map_eq_some_iff.mp hrest
        have htotal' : s.sink.dst pipe ++ (s.push pipe (read pipe).bytes).buf pipe ++ later =
            total pipe := by
          simpa [push] using htotal
        obtain ⟨hinv, hpend, hframe⟩ := hand_open hpush hdone hwhole hlater htotal'
        exact ⟨_, rfl, hinv, hpend, (frame_push _ _ _).trans hframe⟩
      | eof =>
        rw [hend] at hrest
        cases hrest
        -- the bytes of the last read go the same way as what was in the buffer before
        have hclose : Inv callback ((s.push pipe (read pipe).bytes).close pipe) :=
          ⟨by simpa using hpush.offers, hpush.wired.close hdone⟩
        have hclosed := close_done_self pipe (s.push pipe (read pipe).bytes)
        have hwhole' : WholeLines (((s.push pipe (read pipe).bytes).close pipe).sink.dst pipe) := by
          simpa [push] using hwhole
        have htotal' : ((s.push pipe (read pipe).bytes).close pipe).sink.dst pipe ++
            ((s.push pipe (read pipe).bytes).close pipe).buf pipe = total pipe := by
          rw [← htotal]
          simp [push]
        obtain ⟨hinv, hpend, hframe⟩ :=
          hand_done polls hclose hclosed (.inl hwhole') htotal'
        exact ⟨_, rfl, hinv, hpend,
          ((frame_push _ _ _).trans (frame_close _ _)).trans hframe⟩

theorem Pending.dst_eq (h : Pending polls total s pipe) (hdone : s.done pipe = true) :
    s.sink.dst pipe = total pipe := by
  rw [Pending, if_pos hdone] at h
  exact h.2

theorem Pending.stream_ne_none (h : Pending polls total s pipe) (hdone : s.done pipe ≠ true) :
    stream pipe polls ≠ none := by
  rw [Pending, if_neg hdone] at h
  obtain ⟨-, rest, hrest, -⟩ := h
  rw [hrest]
  simp

/-- One round: first the errors, then the output. -/
theorem round_spec {revents : Pipe → Bool} {read : Pipe → Read} (h : Inv callback s)
    (hpending : ∀ p, Pending (.ready revents read :: polls) total s p) :
    ∃ s₁ s₂, (s.answered revents).turn (Sink.data callback) read .err = .ok s₁ ∧
      s₁.turn (Sink.data callback) read .out = .ok s₂ ∧
      Inv callback s₂ ∧ ∀ p, Pending polls total s₂ p := by
  have hanswered : Inv callback (s.answered revents) := ⟨h.offers, h.wired⟩
  obtain ⟨s₁, hs₁, hinv₁, hpend₁, hframe₁⟩ :=
    turn_spec .err hanswered (hpending .err) (h.wired.answered revents)
  have hout : Pending (.ready revents read :: polls) total s₁ .out :=
    (hpending .out).congr (hframe₁.done .out (by decide)) (hframe₁.buf .out (by decide))
      (hframe₁.dst .out (by decide))
  -- the errors may have ended, which does not move the place of the output
  have hrevents : s₁.done .out = false → s₁.revents (s₁.slot .out) = revents .out := by
    intro hdone
    rw [hframe₁.done .out (by decide)] at hdone
    rw [hframe₁.revents]
    exact h.wired.answered revents hdone
  obtain ⟨s₂, hs₂, hinv₂, hpend₂, hframe₂⟩ := turn_spec .out hinv₁ hout hrevents
  refine ⟨s₁, s₂, hs₁, hs₂, hinv₂, ?_⟩
  intro p
  cases p with
  | err =>
    exact hpend₁.congr (hframe₂.done .err (by decide)) (hframe₂.buf .err (by decide))
      (hframe₂.dst .err (by decide))
  | out => exact hpend₂

/-- The loop ends if both streams do, and has collected them. -/
theorem loop_spec (h : Inv callback s) (hpending : ∀ p, Pending polls total s p) :
    ∃ sink, loop (Sink.data callback) polls s = .ok sink ∧ Offers callback sink ∧
      ∀ p, sink.dst p = total p := by
  induction polls generalizing s with
  | nil =>
    have hdone : ∀ p, s.done p = true := by
      -- with no polls left, a pipe that has not ended would have no stream
      intro p
      by_contra hopen
      exact (hpending p).stream_ne_none hopen rfl
    rw [loop, if_pos (h.wired.nfds_eq_zero.mpr hdone)]
    exact ⟨s.sink, rfl, h.offers, fun p => (hpending p).dst_eq (hdone p)⟩
  | cons poll polls ih =>
    unfold loop
    by_cases hzero : s.nfds = 0
    · rw [if_pos hzero]
      have hdone := h.wired.nfds_eq_zero.mp hzero
      exact ⟨s.sink, rfl, h.offers, fun p => (hpending p).dst_eq (hdone p)⟩
    · rw [if_neg hzero]
      cases poll with
      | interrupted => exact ih h hpending
      | failed =>
        -- a stream that is read to its end meets no failed poll
        obtain ⟨p, hopen⟩ := not_forall.mp (mt h.wired.nfds_eq_zero.mpr hzero)
        exact absurd rfl ((hpending p).stream_ne_none hopen)
      | ready revents read =>
        obtain ⟨s₁, s₂, hs₁, hs₂, hinv, hpend⟩ := round_spec h hpending
        obtain ⟨sink, hloop, hsink⟩ := ih hinv hpend
        refine ⟨sink, ?_, hsink⟩
        exact bind_eq_ok.mpr ⟨s₁, hs₁, bind_eq_ok.mpr ⟨s₂, hs₂, hloop⟩⟩

end Turn

end Reader

/-! ### Streams -/

/-- What a run is to leave behind, given the streams as a whole: both of them, in full; the lines
of each, if the callbacks succeed; and if one fails, the lines up to there. -/
structure Streamed {E : Type} (callback : Callback E) (streams : Pipe → Bytes) (sink : Sink E) :
    Prop where
  collected : ∀ p, sink.dst p = streams p
  given : Succeed callback sink.calls →
    sink.callbackError = none ∧ ∀ p, linesFor p sink.calls = lines (lossy (streams p))
  stopped : ∀ e, sink.callbackError = some e → ∃ before call, sink.calls = before ++ [call] ∧
    Succeed callback before ∧ callback before call.1 call.2 = .error e ∧
    ∀ p, linesFor p sink.calls <+: lines (lossy (streams p))

theorem Offers.streamed {E : Type} {callback : Callback E} {streams : Pipe → Bytes}
    {sink : Sink E} (h : Offers callback sink) (hdst : ∀ p, sink.dst p = streams p) :
    Streamed callback streams sink := by
  obtain ⟨offered, hanswered, hlines⟩ := h
  have hstreams : ∀ p, linesFor p offered = lines (lossy (streams p)) := by
    intro p
    rw [hlines, hdst]
    rfl
  cases hanswered with
  | all herror hcalls hsucceed =>
    -- no call has failed: the calls are all that was offered
    refine ⟨hdst, fun _ => ⟨herror, hcalls ▸ hstreams⟩, ?_⟩
    intro e he
    rw [herror] at he
    cases he
  | failed e before call after herror hcalls hoffered hfailed hsucceed =>
    refine ⟨hdst, ?_, ?_⟩
    · -- the last of the calls did not succeed
      intro hall
      have hcall := hall before call [] hcalls
      rw [hfailed] at hcall
      cases hcall
    · intro e' he'
      rw [herror] at he'
      cases he'
      refine ⟨before, call, hcalls, hsucceed, hfailed, ?_⟩
      intro p
      -- the calls that were made are the first of those that were offered
      have hsplit : offered = before ++ [call] ++ after := by
        rw [hoffered, List.append_cons]
      rw [← hstreams, hcalls, hsplit, linesFor_append p (before ++ [call])]
      exact List.prefix_append _ _

/-- The two streams of a child. -/
def streamsOf (stdout stderr : Bytes) : Pipe → Bytes
  | .err => stderr
  | .out => stdout

/-- However the streams of a child are cut into reads, and in whatever order they are read: they
are collected in full, and the callbacks are given the lines of the whole streams, up to the first
call that fails. -/
theorem execWithStreaming_streamed {E X : Type} (callback : Callback E) (polls : List Poll)
    (stdout stderr : Bytes) (hout : stream .out polls = some stdout)
    (herr : stream .err polls = some stderr) (command : String) (status : X)
    (success : X → Bool) (printOutput : Bool) :
    ∃ sink, read2 polls (Sink.data callback) .empty = .ok sink ∧
      Streamed callback (streamsOf stdout stderr) sink ∧
      let output : Output X := ⟨stdout, stderr, status⟩
      let result := execWithStreaming command true polls (some status) success callback printOutput
      (success status = true → sink.callbackError = none → result = .ok output) ∧
      (success status = true → ∀ e, sink.callbackError = some e → ∃ context,
        result = .error (.callback e context) ∧ (printOutput = true → context.output = some output))
      ∧ (success status = false → ∃ context,
        result = .error (.process context) ∧
          (printOutput = true → context.output = some output)) := by
  -- nothing has been read, so that all of both streams is still to come
  have hpending : ∀ p, (Reader.start (Sink.empty : Sink E)).Pending polls
      (streamsOf stdout stderr) p := by
    intro p
    refine ⟨.inl rfl, streamsOf stdout stderr p, ?_, rfl⟩
    cases p
    · exact herr
    · exact hout
  have hstart : (Reader.start Sink.empty).Inv callback := ⟨Offers.empty, .start _⟩
  obtain ⟨sink, hread, hoffers, hdst⟩ := Reader.loop_spec hstart hpending
  have hread' : read2 polls (Sink.data callback) .empty = .ok sink := hread
  have hstdout : sink.dst .out = stdout := hdst .out
  have hstderr : sink.dst .err = stderr := hdst .err
  refine ⟨sink, hread', hoffers.streamed hdst, ?_⟩
  simp only [execWithStreaming, if_true, hread', hstdout, hstderr]
  refine ⟨?_, ?_, ?_⟩
  · intro hsuccess herror
    simp only [hsuccess, if_true, herror]
  · intro hsuccess e herror
    simp only [hsuccess, if_true, herror]
    exact ⟨_, rfl, fun hprint => by simp [hprint]⟩
  · intro hsuccess
    simp only [hsuccess, Bool.false_eq_true, if_false]
    exact ⟨_, rfl, fun hprint => by simp [hprint]⟩

/-- A child that prints two lines, cut within the first. -/
def twoLines : List Poll :=
  [.ready (fun _ => true) fun
      | .err => ⟨[], .eof⟩
      | .out => ⟨[97], .wouldBlock⟩,
    .interrupted,
    .ready (fun p => decide (p = .out)) fun _ => ⟨[98, 10, 99], .eof⟩]

theorem twoLines_output : execWithStreaming "print" true twoLines (some 0) (fun n : ℕ => n = 0)
    (fun _ _ _ => (.ok () : Except Unit Unit)) false = .ok ⟨[97, 98, 10, 99], [], 0⟩ := by
  obtain ⟨sink, -, hstreamed, hok, -⟩ :=
    execWithStreaming_streamed (fun _ _ _ => (.ok () : Except Unit Unit)) twoLines
      [97, 98, 10, 99] [] rfl rfl "print" 0 (fun n : ℕ => n = 0) false
  exact hok rfl (hstreamed.given fun _ _ _ _ => rfl).1

end Cargo.Util.ProcessBuilder
