import Mathlib.Data.Finset.Image
import Mathlib.Data.Finset.Basic
import Mathlib.Logic.Function.Basic
import Mathlib.Tactic.Simps.Basic

/-!
# The processes of `cargo fix`

Each process runs the compiler instead of cargo, with the lock of its crate. It collects the
suggestions of the compiler, rewrites the files they are for, and may do so several times. Then
it gives the lock back, compiles again, and if that fails it writes the original code of all
files back.

The processes are of one crate, so they take the same lock, and of their steps any may come
next. What the compiler says is left open, except that it has suggestions only for files of the
crate. Everything that reads, writes or starts a process may fail.

## Main definitions

* `Suggestion.file?`, `FixedCrate.fixFile`, `FixedCrate.progress` — one round of fixes
* `Phase`, `State` — where the processes are, and the files
* `Step` — one step of one process
-/

set_option autoImplicit false

namespace Cargo.Ops.Fix

/-- The library that applies suggestions to the text of a file. -/
structure Rustfix (Code T : Type) where
  CodeFix : Type
  new : Code → CodeFix
  /-- Apply a suggestion; there may be an error. -/
  apply : CodeFix → T → CodeFix × Option String
  finish : CodeFix → Option Code

/-- A suggestion, with the places it is about: a file and a range of lines and columns. -/
structure Suggestion (F T : Type) where
  snippets : List (F × (ℕ × ℕ) × (ℕ × ℕ))
  solution : T

/-- What is known of a file that was rewritten. -/
structure FixedFile (Code : Type) where
  errorsApplyingFixes : List String
  fixesApplied : ℕ
  originalCode : Code

/-- The files that were rewritten. -/
abbrev FixedCrate (F Code : Type) := List (F × FixedFile Code)

variable {P F Code T : Type}

section Round

variable [DecidableEq F]

/-- The file of a suggestion, if all its snippets are at the same place. -/
def Suggestion.file? (s : Suggestion F T) : Option F :=
  match s.snippets with
  | [] => none
  | first :: rest => if rest.all fun snippet => snippet = first then some first.1 else none

/-- The files that there are suggestions for. -/
def suggestedFiles (suggestions : List (Suggestion F T)) : Finset F :=
  (suggestions.filterMap Suggestion.file?).toFinset

namespace FixedCrate

/-- The number of fixes applied to each file before a round. -/
def lastFixCounts (files : FixedCrate F Code) : List (F × ℕ) :=
  files.map fun entry => (entry.1, entry.2.fixesApplied)

/-- A new round starts without errors. -/
def clearErrors (files : FixedCrate F Code) : FixedCrate F Code :=
  files.map fun entry => (entry.1, { entry.2 with errorsApplyingFixes := [] })

/-- The entry of a file; if there is none yet, its code was read for the first time. -/
def entry (files : FixedCrate F Code) (file : F) (code : Code) : FixedFile Code :=
  (files.lookup file).getD ⟨[], 0, code⟩

/-- Replace the entry of a file. -/
def insert (files : FixedCrate F Code) (file : F) (fixed : FixedFile Code) : FixedCrate F Code :=
  (file, fixed) :: files.filter fun entry => entry.1 ≠ file

/-- Apply the suggestions for a file, the last one first, and count what worked. -/
def applyAll (rf : Rustfix Code T) (fixed : rf.CodeFix) (file : FixedFile Code)
    (suggestions : List (Suggestion F T)) : rf.CodeFix × FixedFile Code :=
  suggestions.reverse.foldl
    (fun state suggestion =>
      match rf.apply state.1 suggestion.solution with
      | (fixed, none) => (fixed, { state.2 with fixesApplied := state.2.fixesApplied + 1 })
      | (fixed, some e) =>
        (fixed, { state.2 with errorsApplyingFixes := state.2.errorsApplyingFixes ++ [e] }))
    (fixed, file)

/-- Fix one file: its new entry, and its new code. -/
def fixFile (rf : Rustfix Code T) (files : FixedCrate F Code) (file : F) (code : Code)
    (suggestions : List (Suggestion F T)) : FixedCrate F Code × Option Code :=
  let result := applyAll rf (rf.new code) (files.entry file code)
    (suggestions.filter fun s => s.file? = some file)
  (files.insert file result.2, rf.finish result.1)

/-- Is there a file with an error in which something was fixed nevertheless? -/
def progress (files : FixedCrate F Code) (counts : List (F × ℕ)) : Bool :=
  files.any fun entry => !entry.2.errorsApplyingFixes.isEmpty &&
    entry.2.fixesApplied != (counts.lookup entry.1).getD 0

end FixedCrate

end Round

/-- Where a process is. -/
inductive Phase (F Code T : Type)
  /-- Waiting for the lock. -/
  | waiting
  /-- With the lock, and so many rounds to go. -/
  | round (left : ℕ)
  /-- Going through the files that there are suggestions for. -/
  | fixing (left : ℕ) (counts : List (F × ℕ)) (todo : Finset F)
    (suggestions : List (Suggestion F T))
  /-- About to write the new code of a file. -/
  | editing (left : ℕ) (counts : List (F × ℕ)) (todo : Finset F)
    (suggestions : List (Suggestion F T)) (file : F) (newCode : Code)
  /-- After the last round, about to report errors and to give the lock back. -/
  | reporting
  /-- About to compile with the changes made. -/
  | checking
  /-- The compilation succeeded, and said nothing if `quiet`. -/
  | passed (quiet : Bool)
  /-- The compilation failed, and these files are still to be written back. -/
  | restoring (todo : FixedCrate F Code)
  | logging
  | executing
  | ended

/-- Does a process in this phase have the lock? -/
def Phase.locked : Phase F Code T → Bool
  | .round _ | .fixing .. | .editing .. | .reporting => true
  | _ => false

/-- A process. The files that it has rewritten and that were neither compiled successfully nor
written back are recorded too. -/
structure Proc (F Code T : Type) where
  phase : Phase F Code T
  files : FixedCrate F Code
  rewritten : Finset F

/-- The files on disk, who has the lock, and the processes; with a record of the files as they
were when a final compilation succeeded, and of all files that were rewritten. -/
structure State (P F Code T : Type) where
  disk : F → Code
  holder : Option P
  procs : P → Proc F Code T
  checked : List (P × (F → Code))
  touched : Finset F

namespace State

variable [DecidableEq P] [DecidableEq F]

/-- No process has started. -/
def init (disk : F → Code) : State P F Code T where
  disk
  holder := none
  procs := fun _ => ⟨.waiting, [], ∅⟩
  checked := []
  touched := ∅

/-- A process goes on. -/
@[simps]
def setProc (s : State P F Code T) (p : P) (proc : Proc F Code T) : State P F Code T :=
  { s with procs := Function.update s.procs p proc }

/-- A process goes on to another phase. -/
def setPhase (s : State P F Code T) (p : P) (phase : Phase F Code T) : State P F Code T :=
  s.setProc p { s.procs p with phase }

/-- A process leaves with an error. If it has the lock, then it gives it back. -/
def leave (s : State P F Code T) (p : P) : State P F Code T :=
  { s.setPhase p .ended with
    holder := if (s.procs p).phase.locked then none else s.holder }

/-- A file gets a new content. -/
@[simps]
def writeFile (s : State P F Code T) (file : F) (code : Code) : State P F Code T :=
  { s with disk := Function.update s.disk file code, touched := insert file s.touched }

end State

/-- What a step is, as far as it matters: a process reads a file to fix it, leaves with an
error, or fails to write a file. -/
inductive Label (P F : Type)
  | step (p : P)
  | read (p : P) (file : F)
  | fail (p : P)
  | failWrite (p : P)

section Steps

variable [DecidableEq P] [DecidableEq F]

/-- The steps of a process, where `crate` has the files of its crate and `iterations` is how
often it fixes at most. -/
inductive Step (crate : P → Finset F) (rf : Rustfix Code T) (iterations : ℕ) :
    State P F Code T → Label P F → State P F Code T → Prop
  | lock {s : State P F Code T} {p : P} (hphase : (s.procs p).phase = .waiting)
    (hfree : s.holder = none) :
    Step crate rf iterations s (.step p) { s.setPhase p (.round iterations) with holder := some p }
  | lockFails {s : State P F Code T} {p : P} (hphase : (s.procs p).phase = .waiting) :
    Step crate rf iterations s (.fail p) (s.leave p)
  | lastRound {s : State P F Code T} {p : P} (hphase : (s.procs p).phase = .round 0) :
    Step crate rf iterations s (.step p) (s.setPhase p .reporting)
  /-- The compiler has suggestions. -/
  | suggest {s : State P F Code T} {p : P} {left : ℕ} (suggestions : List (Suggestion F T))
    (hphase : (s.procs p).phase = .round (left + 1))
    (hcrate : suggestedFiles suggestions ⊆ crate p) :
    Step crate rf iterations s (.step p)
      (s.setProc p { s.procs p with
        phase := .fixing left (s.procs p).files.lastFixCounts (suggestedFiles suggestions)
          suggestions
        files := (s.procs p).files.clearErrors })
  /-- The code does not compile: no more rounds. -/
  | broken {s : State P F Code T} {p : P} {left : ℕ}
    (hphase : (s.procs p).phase = .round (left + 1)) :
    Step crate rf iterations s (.step p)
      (s.setProc p { s.procs p with
        phase := .reporting
        files := (s.procs p).files.clearErrors })
  /-- The compiler cannot be run, or what it says is no text. -/
  | suggestFails {s : State P F Code T} {p : P} {left : ℕ}
    (hphase : (s.procs p).phase = .round (left + 1)) :
    Step crate rf iterations s (.fail p) (s.leave p)
  /-- A file cannot be read: go on with the others. -/
  | skip {s : State P F Code T} {p : P} {left : ℕ} {counts : List (F × ℕ)} {todo : Finset F}
    {suggestions : List (Suggestion F T)} {file : F}
    (hphase : (s.procs p).phase = .fixing left counts todo suggestions) (hfile : file ∈ todo) :
    Step crate rf iterations s (.step p)
      (s.setPhase p (.fixing left counts (todo.erase file) suggestions))
  | read {s : State P F Code T} {p : P} {left : ℕ} {counts : List (F × ℕ)} {todo : Finset F}
    {suggestions : List (Suggestion F T)} {file : F} {files : FixedCrate F Code} {newCode : Code}
    (hphase : (s.procs p).phase = .fixing left counts todo suggestions) (hfile : file ∈ todo)
    (hfixed : (s.procs p).files.fixFile rf file (s.disk file) suggestions =
      (files, some newCode)) :
    Step crate rf iterations s (.read p file)
      (s.setProc p { s.procs p with
        phase := .editing left counts todo suggestions file newCode
        files })
  /-- The fixed code cannot be put together. -/
  | finishFails {s : State P F Code T} {p : P} {left : ℕ} {counts : List (F × ℕ)}
    {todo : Finset F} {suggestions : List (Suggestion F T)} {file : F}
    (hphase : (s.procs p).phase = .fixing left counts todo suggestions) (hfile : file ∈ todo)
    (hfixed : ((s.procs p).files.fixFile rf file (s.disk file) suggestions).2 = none) :
    Step crate rf iterations s (.fail p) (s.leave p)
  | write {s : State P F Code T} {p : P} {left : ℕ} {counts : List (F × ℕ)} {todo : Finset F}
    {suggestions : List (Suggestion F T)} {file : F} {newCode : Code}
    (hphase : (s.procs p).phase = .editing left counts todo suggestions file newCode) :
    Step crate rf iterations s (.step p)
      ((s.writeFile file newCode).setProc p { s.procs p with
        phase := .fixing left counts (todo.erase file) suggestions
        rewritten := insert file (s.procs p).rewritten })
  /-- The file cannot be written, and has any content after that. -/
  | writeFails {s : State P F Code T} {p : P} {left : ℕ} {counts : List (F × ℕ)}
    {todo : Finset F} {suggestions : List (Suggestion F T)} {file : F} {newCode : Code}
    (code : Code)
    (hphase : (s.procs p).phase = .editing left counts todo suggestions file newCode) :
    Step crate rf iterations s (.failWrite p) ((s.writeFile file code).leave p)
  | nextRound {s : State P F Code T} {p : P} {left : ℕ} {counts : List (F × ℕ)}
    {suggestions : List (Suggestion F T)}
    (hphase : (s.procs p).phase = .fixing left counts ∅ suggestions) :
    Step crate rf iterations s (.step p)
      (s.setPhase p (if (s.procs p).files.progress counts then .round left else .reporting))
  /-- The lock is given back before the changes are compiled. -/
  | release {s : State P F Code T} {p : P} (hphase : (s.procs p).phase = .reporting) :
    Step crate rf iterations s (.step p)
      { s.setPhase p (if (s.procs p).files.isEmpty then .executing else .checking) with
        holder := none }
  /-- An error of the last round cannot be reported. -/
  | reportFails {s : State P F Code T} {p : P} (hphase : (s.procs p).phase = .reporting)
    (herror : ∃ entry ∈ (s.procs p).files, entry.2.errorsApplyingFixes ≠ []) :
    Step crate rf iterations s (.fail p) (s.leave p)
  | check {s : State P F Code T} {p : P} (quiet : Bool)
    (hphase : (s.procs p).phase = .checking) :
    Step crate rf iterations s (.step p)
      { s.setProc p { s.procs p with phase := .passed quiet, rewritten := ∅ } with
        checked := s.checked ++ [(p, s.disk)] }
  | checkBroken {s : State P F Code T} {p : P} (hphase : (s.procs p).phase = .checking) :
    Step crate rf iterations s (.step p) (s.setPhase p (.restoring (s.procs p).files))
  /-- The compiler cannot be run. -/
  | checkFails {s : State P F Code T} {p : P} (hphase : (s.procs p).phase = .checking) :
    Step crate rf iterations s (.fail p) (s.leave p)
  | post {s : State P F Code T} {p : P} {quiet : Bool}
    (hphase : (s.procs p).phase = .passed quiet) :
    Step crate rf iterations s (.step p) (s.setPhase p (if quiet then .ended else .executing))
  | postFails {s : State P F Code T} {p : P} {quiet : Bool}
    (hphase : (s.procs p).phase = .passed quiet) :
    Step crate rf iterations s (.fail p) (s.leave p)
  | restore {s : State P F Code T} {p : P} {front back : FixedCrate F Code}
    {entry : F × FixedFile Code}
    (hphase : (s.procs p).phase = .restoring (front ++ entry :: back)) :
    Step crate rf iterations s (.step p)
      ((s.writeFile entry.1 entry.2.originalCode).setProc p { s.procs p with
        phase := .restoring (front ++ back)
        rewritten := (s.procs p).rewritten.erase entry.1 })
  /-- A file cannot be written back, and has any content after that. -/
  | restoreFails {s : State P F Code T} {p : P} {todo : FixedCrate F Code}
    {entry : F × FixedFile Code} (code : Code)
    (hphase : (s.procs p).phase = .restoring todo) (hentry : entry ∈ todo) :
    Step crate rf iterations s (.failWrite p) ((s.writeFile entry.1 code).leave p)
  | restored {s : State P F Code T} {p : P} (hphase : (s.procs p).phase = .restoring []) :
    Step crate rf iterations s (.step p) (s.setPhase p .logging)
  | log {s : State P F Code T} {p : P} (hphase : (s.procs p).phase = .logging) :
    Step crate rf iterations s (.step p) (s.setPhase p .executing)
  | logFails {s : State P F Code T} {p : P} (hphase : (s.procs p).phase = .logging) :
    Step crate rf iterations s (.fail p) (s.leave p)
  /-- The compiler runs once more, for its messages; the process ends with it. -/
  | exec {s : State P F Code T} {p : P} (hphase : (s.procs p).phase = .executing) :
    Step crate rf iterations s (.step p) (s.setPhase p .ended)

end Steps

end Cargo.Ops.Fix
