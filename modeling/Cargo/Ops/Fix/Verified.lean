import Cargo.Math.Transition
import Cargo.Ops.Fix

/-!
# Edits that nobody checked

After all processes of `cargo fix` have ended, a file that was rewritten should have its first
content or one with which a final compilation succeeded. The lock is given back before the final
compilation, so a second process can take an edit that is still unchecked for the original
code, and writes it back after the first process has taken it out; and a process that leaves
with an error leaves its edits behind. If neither happens, then no unchecked edit stays.

## Main definitions

* `Accounted` — a first content of a file, or one that was compiled
* `Careful` — a step that does neither
* `Verified` — what should hold in the end

## Main results

* `verified_of_careful` — in every run of careful steps
* `edit_left_behind` — not in every run
-/

set_option autoImplicit false

namespace Cargo.Ops.Fix

open Relation
open Cargo.Math

variable {P F Code T : Type}

/-- A content of a file that it had before all processes, or with which the final compilation of
a crate with this file succeeded. -/
def Accounted (crate : P → Finset F) (disk₀ : F → Code) (checked : List (P × (F → Code))) (file : F)
    (code : Code) : Prop :=
  code = disk₀ file ∨ ∃ entry ∈ checked, file ∈ crate entry.1 ∧ entry.2 file = code

/-- Once all processes have ended, no file that was rewritten has an unchecked edit. -/
def Verified (crate : P → Finset F) (disk₀ : F → Code) (s : State P F Code T) : Prop :=
  (∀ p, (s.procs p).phase = .ended) →
    ∀ file ∈ s.touched, Accounted crate disk₀ s.checked file (s.disk file)

/-- A step that does not read an edit as the original code of a file while the process that
made it, which has given the lock back, has neither checked it nor taken it out, and with which
no process leaves edits of its own behind. -/
def Careful (s : State P F Code T) : Label P F → Prop
  | .step _ => True
  | .read p file => file ∉ (s.procs p).files.map Prod.fst →
    ∀ q, q ≠ p → (s.procs q).phase.locked = false → file ∉ (s.procs q).rewritten
  | .fail p => (s.procs p).rewritten = ∅
  | .failWrite _ => False

/-! ### The files of a process -/

section Round

variable [DecidableEq F]

omit [DecidableEq F] in
theorem originalCode_applyAll (rf : Rustfix Code T) (fixed : rf.CodeFix) (file : FixedFile Code)
    (suggestions : List (Suggestion F T)) :
    (FixedCrate.applyAll rf fixed file suggestions).2.originalCode = file.originalCode := by
  unfold FixedCrate.applyAll
  induction suggestions.reverse generalizing fixed file with
  | nil => rfl
  | cons suggestion suggestions ih =>
    rw [List.foldl_cons]
    split
    · exact ih _ _
    · exact ih _ _

/-- Fixing a file replaces its entry, which keeps the original code. -/
theorem mem_fixFile {rf : Rustfix Code T} {files files' : FixedCrate F Code} {file : F}
    {code : Code} {newCode : Option Code} {suggestions : List (Suggestion F T)}
    (h : files.fixFile rf file code suggestions = (files', newCode)) :
    (∀ e ∈ files', e ∈ files ∨
      e.1 = file ∧ e.2.originalCode = (files.entry file code).originalCode) ∧
      file ∈ files'.map Prod.fst ∧ ∀ f ∈ files.map Prod.fst, f ∈ files'.map Prod.fst := by
  rw [FixedCrate.fixFile, Prod.mk.injEq] at h
  obtain ⟨rfl, -⟩ := h
  refine ⟨?_, List.mem_cons_self, ?_⟩
  · intro e he
    rcases List.mem_cons.mp he with rfl | he
    · exact .inr ⟨rfl, originalCode_applyAll _ _ _ _⟩
    · exact .inl (List.mem_filter.mp he).1
  · intro f hf
    by_cases heq : f = file
    · exact heq ▸ List.mem_cons_self
    · obtain ⟨e, he, rfl⟩ := List.mem_map.mp hf
      apply List.mem_cons_of_mem
      exact List.mem_map_of_mem (List.mem_filter.mpr ⟨he, by simpa using heq⟩)

/-- The entry of a file is the one it has, or a new one with the code that was read. -/
theorem entry_cases (files : FixedCrate F Code) (file : F) (code : Code) :
    (file, files.entry file code) ∈ files ∨
      file ∉ files.map Prod.fst ∧ (files.entry file code).originalCode = code := by
  rw [FixedCrate.entry]
  cases hlookup : files.lookup file with
  | none =>
    refine .inr ⟨?_, rfl⟩
    intro hfile
    obtain ⟨e, he, rfl⟩ := List.mem_map.mp hfile
    simpa using List.lookup_eq_none_iff.mp hlookup e he
  | some fixed =>
    left
    obtain ⟨l₁, l₂, rfl, -⟩ := List.lookup_eq_some_iff.mp hlookup
    simp

end Round

/-! ### One process -/

/-- What a process keeps, by where it is. -/
def PhaseOk (good : F → Code → Prop) (crate : Finset F) (proc : Proc F Code T) : Prop :=
  match proc.phase with
  | .fixing _ _ todo _ => todo ⊆ crate
  | .editing _ _ todo _ file _ => todo ⊆ crate ∧ file ∈ todo ∧ file ∈ proc.files.map Prod.fst
  | .restoring todo => (∀ e ∈ todo, good e.1 e.2.originalCode) ∧
      ∀ f ∈ proc.rewritten, f ∈ todo.map Prod.fst
  | .round _ | .reporting | .checking => True
  | .waiting | .passed _ | .logging | .executing | .ended => proc.rewritten = ∅

/-- A process that knows how to take back its edits. -/
structure ProcOk (good : F → Code → Prop) (crate : Finset F) (proc : Proc F Code T) : Prop where
  originals : ∀ e ∈ proc.files, good e.1 e.2.originalCode
  recorded : ∀ f ∈ proc.rewritten, f ∈ proc.files.map Prod.fst
  inCrate : proc.rewritten ⊆ crate
  phase : PhaseOk good crate proc

/-- The invariant: a file that no process has an edit in has an accounted content. -/
structure Inv (crate : P → Finset F) (disk₀ : F → Code) (s : State P F Code T) : Prop where
  holder : ∀ p, (s.procs p).phase.locked = true ↔ s.holder = some p
  procs : ∀ p, ProcOk (Accounted crate disk₀ s.checked) (crate p) (s.procs p)
  settled : ∀ file, (∀ p, file ∉ (s.procs p).rewritten) →
    Accounted crate disk₀ s.checked file (s.disk file)

theorem inv_init (crate : P → Finset F) (disk₀ : F → Code) :
    Inv crate disk₀ (State.init disk₀ : State P F Code T) where
  holder p := by simp [State.init, Phase.locked]
  procs p := ⟨by simp [State.init], by simp [State.init], by simp [State.init], rfl⟩
  settled file _ := .inl rfl

/-- In the end no process has edits of its own. -/
theorem Inv.verified {crate : P → Finset F} {disk₀ : F → Code} {s : State P F Code T}
    (h : Inv crate disk₀ s) : Verified crate disk₀ s := by
  intro hended file _
  apply h.settled
  intro p hfile
  have hempty : (s.procs p).rewritten = ∅ := by
    have hphase := (h.procs p).phase
    rw [PhaseOk, hended p] at hphase
    exact hphase
  rw [hempty] at hfile
  exact absurd hfile (Finset.notMem_empty file)

namespace ProcOk

variable {good good' : F → Code → Prop} {crate : Finset F} {proc : Proc F Code T}

/-- More contents are accounted for. -/
theorem mono (h : ProcOk good crate proc) (hgood : ∀ f c, good f c → good' f c) :
    ProcOk good' crate proc where
  originals e he := hgood _ _ (h.originals e he)
  recorded := h.recorded
  inCrate := h.inCrate
  phase := by
    have hphase := h.phase
    unfold PhaseOk at hphase ⊢
    split at hphase <;> first
      | exact hphase
      | exact ⟨fun e he => hgood _ _ (hphase.1 e he), hphase.2⟩

/-- A process with no edits of its own may be anywhere but at a file. -/
theorem of_empty (h : ProcOk good crate proc) (hempty : proc.rewritten = ∅) {phase : Phase F Code T}
    (hphase : PhaseOk good crate { proc with phase }) : ProcOk good crate { proc with phase } where
  originals := h.originals
  recorded := by simp [hempty]
  inCrate := by simp [hempty]
  phase := hphase

end ProcOk

namespace Inv

variable [DecidableEq P] {crate : P → Finset F} {disk₀ : F → Code} {s : State P F Code T} {p : P}

/-- A step of one process: what holds of the others stays as it is. -/
theorem change (h : Inv crate disk₀ s) {s' : State P F Code T} (proc : Proc F Code T)
    (hprocs : s'.procs = Function.update s.procs p proc)
    (hlocked : proc.phase.locked = true ↔ s'.holder = some p)
    (hothers : ∀ q, q ≠ p → (s.holder = some q ↔ s'.holder = some q))
    (hmono : ∀ f c, Accounted crate disk₀ s.checked f c → Accounted crate disk₀ s'.checked f c)
    (hok : ProcOk (Accounted crate disk₀ s'.checked) (crate p) proc)
    (hsettled : ∀ f, f ∉ proc.rewritten → (∀ q, q ≠ p → f ∉ (s.procs q).rewritten) →
      Accounted crate disk₀ s'.checked f (s'.disk f)) : Inv crate disk₀ s' where
  holder q := by
    rw [hprocs]
    by_cases hq : q = p
    · subst hq
      rw [Function.update_self]
      exact hlocked
    · rw [Function.update_of_ne hq]
      exact (h.holder q).trans (hothers q hq)
  procs q := by
    rw [hprocs]
    by_cases hq : q = p
    · subst hq
      rw [Function.update_self]
      exact hok
    · rw [Function.update_of_ne hq]
      exact (h.procs q).mono hmono
  settled file hfile := by
    rw [hprocs] at hfile
    refine hsettled file ?_ fun q hq => ?_
    · simpa using hfile p
    · simpa [Function.update_of_ne hq] using hfile q

/-- A file without edits of the others and of the process itself is accounted for. -/
theorem accounted_of_others (h : Inv crate disk₀ s) {f : F} (hself : f ∉ (s.procs p).rewritten)
    (hothers : ∀ q, q ≠ p → f ∉ (s.procs q).rewritten) :
    Accounted crate disk₀ s.checked f (s.disk f) := by
  apply h.settled f
  intro q
  by_cases hq : q = p
  · rw [hq]
    exact hself
  · exact hothers q hq

/-- A process goes on without a change to the files. -/
theorem go (h : Inv crate disk₀ s) (proc : Proc F Code T) (holder : Option P)
    (hlocked : proc.phase.locked = true ↔ holder = some p)
    (hothers : ∀ q, q ≠ p → (s.holder = some q ↔ holder = some q))
    (hrewritten : proc.rewritten = (s.procs p).rewritten)
    (hok : ProcOk (Accounted crate disk₀ s.checked) (crate p) proc) :
    Inv crate disk₀ { s.setProc p proc with holder } := by
  refine h.change proc rfl hlocked hothers (fun _ _ hc => hc) hok fun f hself hother => ?_
  exact h.accounted_of_others (hrewritten ▸ hself) hother

/-- A process goes on and keeps the lock, or goes on without it. -/
theorem stay (h : Inv crate disk₀ s) (proc : Proc F Code T)
    (hlocked : proc.phase.locked = (s.procs p).phase.locked)
    (hrewritten : proc.rewritten = (s.procs p).rewritten)
    (hok : ProcOk (Accounted crate disk₀ s.checked) (crate p) proc) :
    Inv crate disk₀ (s.setProc p proc) :=
  h.go proc s.holder (hlocked ▸ h.holder p) (fun _ _ => Iff.rfl) hrewritten hok

/-- A process goes on to another phase, with or without the lock as before. -/
theorem goTo (h : Inv crate disk₀ s) {phase : Phase F Code T} (hphase : (s.procs p).phase = phase)
    (phase' : Phase F Code T) (hlocked : phase'.locked = phase.locked)
    (hok : PhaseOk (Accounted crate disk₀ s.checked) (crate p) { s.procs p with phase := phase' }) :
    Inv crate disk₀ (s.setPhase p phase') := by
  apply h.stay
  · rw [hphase]
    exact hlocked
  · rfl
  · exact { h.procs p with phase := hok }

/-- A process leaves with no edits of its own. -/
theorem leave (h : Inv crate disk₀ s) (hempty : (s.procs p).rewritten = ∅) :
    Inv crate disk₀ (s.leave p) := by
  apply h.go
  · cases hlocked : (s.procs p).phase.locked with
    | true => simp [Phase.locked]
    | false =>
      have hne : s.holder ≠ some p := by
        intro hp
        rw [(h.holder p).mpr hp] at hlocked
        cases hlocked
      simp [Phase.locked, hne]
  · intro q hq
    cases hlocked : (s.procs p).phase.locked with
    | true =>
      rw [(h.holder p).mp hlocked]
      simp [Ne.symm hq]
    | false => simp
  · rfl
  · exact (h.procs p).of_empty hempty hempty

variable [DecidableEq F]

/-- A process writes the new code of a file. -/
theorem write (h : Inv crate disk₀ s) {left : ℕ} {counts : List (F × ℕ)} {todo : Finset F}
    {suggestions : List (Suggestion F T)} {file : F} {newCode : Code}
    (hphase : (s.procs p).phase = .editing left counts todo suggestions file newCode) :
    Inv crate disk₀ ((s.writeFile file newCode).setProc p { s.procs p with
      phase := .fixing left counts (todo.erase file) suggestions
      rewritten := insert file (s.procs p).rewritten }) := by
  have hok := h.procs p
  obtain ⟨htodo, hfile, hrecorded⟩ : todo ⊆ crate p ∧ file ∈ todo ∧
      file ∈ (s.procs p).files.map Prod.fst := by
    have hpok := hok.phase
    rw [PhaseOk, hphase] at hpok
    exact hpok
  refine h.change _ rfl ?_ (fun _ _ => Iff.rfl) (fun _ _ hc => hc) ?_ fun f hself hother => ?_
  · simpa [Phase.locked, hphase] using h.holder p
  · constructor
    · exact hok.originals
    · intro f hf
      rcases Finset.mem_insert.mp hf with rfl | hf
      · exact hrecorded
      · exact hok.recorded f hf
    · exact Finset.insert_subset (htodo hfile) hok.inCrate
    · exact (Finset.erase_subset file todo).trans htodo
  · -- what is written now has an edit of the process
    rw [Finset.mem_insert, not_or] at hself
    rw [State.setProc_disk, State.writeFile_disk, Function.update_of_ne hself.1]
    exact h.accounted_of_others hself.2 hother

/-- A process writes the original code of a file back. -/
theorem restore (h : Inv crate disk₀ s) {front back : FixedCrate F Code}
    {entry : F × FixedFile Code}
    (hphase : (s.procs p).phase = .restoring (front ++ entry :: back)) :
    Inv crate disk₀ ((s.writeFile entry.1 entry.2.originalCode).setProc p { s.procs p with
      phase := .restoring (front ++ back)
      rewritten := (s.procs p).rewritten.erase entry.1 }) := by
  have hok := h.procs p
  obtain ⟨hgood, htodo⟩ : (∀ e ∈ front ++ entry :: back,
      Accounted crate disk₀ s.checked e.1 e.2.originalCode) ∧
      ∀ f ∈ (s.procs p).rewritten, f ∈ (front ++ entry :: back).map Prod.fst := by
    have hpok := hok.phase
    rw [PhaseOk, hphase] at hpok
    exact hpok
  refine h.change _ rfl ?_ (fun _ _ => Iff.rfl) (fun _ _ hc => hc) ?_ fun f hself hother => ?_
  · simpa [Phase.locked, hphase] using h.holder p
  · constructor
    · exact hok.originals
    · exact fun f hf => hok.recorded f (Finset.mem_of_mem_erase hf)
    · exact (Finset.erase_subset _ _).trans hok.inCrate
    · refine ⟨fun e he => hgood e ?_, fun f hf => ?_⟩
      · rcases List.mem_append.mp he with he | he
        · exact List.mem_append_left _ he
        · exact List.mem_append_right _ (List.mem_cons_of_mem _ he)
      · obtain ⟨hne, hf⟩ := Finset.mem_erase.mp hf
        simpa [hne] using htodo f hf
  · by_cases hne : f = entry.1
    · subst hne
      rw [State.setProc_disk, State.writeFile_disk, Function.update_self]
      exact hgood entry (by simp)
    · rw [State.setProc_disk, State.writeFile_disk, Function.update_of_ne hne]
      exact h.accounted_of_others (fun hmem => hself (Finset.mem_erase.mpr ⟨hne, hmem⟩)) hother

/-- The final compilation of a process succeeds. -/
theorem check (h : Inv crate disk₀ s) (quiet : Bool) (hphase : (s.procs p).phase = .checking) :
    Inv crate disk₀
      { s.setProc p { s.procs p with phase := .passed quiet, rewritten := ∅ } with
        checked := s.checked ++ [(p, s.disk)] } := by
  have hmono : ∀ f c, Accounted crate disk₀ s.checked f c →
      Accounted crate disk₀ (s.checked ++ [(p, s.disk)]) f c := by
    rintro f c (hfirst | ⟨entry, hentry, hc⟩)
    · exact .inl hfirst
    · exact .inr ⟨entry, List.mem_append_left _ hentry, hc⟩
  refine h.change _ rfl ?_ (fun _ _ => Iff.rfl) hmono ?_ fun f _ hother => ?_
  · simpa [Phase.locked, hphase] using h.holder p
  · exact ⟨fun e he => hmono _ _ ((h.procs p).originals e he), by simp, by simp, rfl⟩
  · by_cases hmem : f ∈ (s.procs p).rewritten
    · -- the edits of the process itself were just compiled
      exact .inr ⟨(p, s.disk), by simp, (h.procs p).inCrate hmem, rfl⟩
    · exact hmono _ _ (h.accounted_of_others hmem hother)

/-- A process reads a file to fix it. If it does so for the first time, then no process has an
edit in it. -/
theorem read (h : Inv crate disk₀ s) {rf : Rustfix Code T} {left : ℕ} {counts : List (F × ℕ)}
    {todo : Finset F} {suggestions : List (Suggestion F T)} {file : F}
    {files : FixedCrate F Code} {newCode : Code}
    (hphase : (s.procs p).phase = .fixing left counts todo suggestions) (hfile : file ∈ todo)
    (hfixed : (s.procs p).files.fixFile rf file (s.disk file) suggestions = (files, some newCode))
    (hcareful : Careful s (.read p file)) :
    Inv crate disk₀ (s.setProc p { s.procs p with
      phase := .editing left counts todo suggestions file newCode
      files }) := by
  have hok := h.procs p
  have htodo : todo ⊆ crate p := by
    have hpok := hok.phase
    rw [PhaseOk, hphase] at hpok
    exact hpok
  obtain ⟨hentries, hrecorded, hnames⟩ := mem_fixFile hfixed
  have hlocked : (s.procs p).phase.locked = true := by rw [hphase]; rfl
  -- what is kept to restore the file is settled
  have horiginal : Accounted crate disk₀ s.checked file
      ((s.procs p).files.entry file (s.disk file)).originalCode := by
    rcases entry_cases (s.procs p).files file (s.disk file) with hmem | ⟨hnew, hcode⟩
    · exact hok.originals _ hmem
    · rw [hcode]
      apply h.settled file
      intro q hq
      by_cases heq : q = p
      · subst heq
        exact hnew (hok.recorded file hq)
      · -- no other process has the lock
        refine hcareful hnew q heq ?_ hq
        rw [Bool.eq_false_iff]
        intro hlocked'
        have hsame := ((h.holder p).mp hlocked).symm.trans ((h.holder q).mp hlocked')
        exact heq (Option.some.inj hsame).symm
  apply h.stay
  · rw [hphase]
    rfl
  · rfl
  · constructor
    · intro e he
      rcases hentries e he with he | ⟨hname, hcode⟩
      · exact hok.originals e he
      · rw [hname, hcode]
        exact horiginal
    · exact fun f hf => hnames f (hok.recorded f hf)
    · exact hok.inCrate
    · exact ⟨htodo, hfile, hrecorded⟩

omit [DecidableEq P] [DecidableEq F] in
/-- A process that has no edits in this phase. -/
theorem rewritten_eq (h : Inv crate disk₀ s) {phase : Phase F Code T}
    (hphase : (s.procs p).phase = phase)
    (hsettled : PhaseOk (Accounted crate disk₀ s.checked) (crate p) { s.procs p with phase } →
      (s.procs p).rewritten = ∅) : (s.procs p).rewritten = ∅ := by
  subst hphase
  exact hsettled (h.procs p).phase

/-- The invariant is kept by every careful step. -/
theorem step {rf : Rustfix Code T} {iterations : ℕ} {s' : State P F Code T} {label : Label P F}
    (h : Inv crate disk₀ s) (hstep : Step crate rf iterations s label s')
    (hcareful : Careful s label) : Inv crate disk₀ s' := by
  have hclear : ∀ q, ∀ e ∈ (s.procs q).files.clearErrors,
      Accounted crate disk₀ s.checked e.1 e.2.originalCode := by
    intro q e he
    obtain ⟨e', he', rfl⟩ := List.mem_map.mp he
    exact (h.procs q).originals e' he'
  have hnames : ∀ q, (s.procs q).files.clearErrors.map Prod.fst =
      (s.procs q).files.map Prod.fst := by
    intro q
    simp [FixedCrate.clearErrors, Function.comp_def]
  cases hstep with
  | @lock p hphase hfree =>
    have hempty := h.rewritten_eq hphase id
    apply h.go
    · simp [Phase.locked]
    · intro q hq
      simp [hfree, Ne.symm hq]
    · rfl
    · exact (h.procs p).of_empty hempty trivial
  | lockFails hphase => exact h.leave hcareful
  | lastRound hphase => exact h.goTo hphase .reporting rfl trivial
  | @suggest p left suggestions hphase hcrate =>
    have hok := h.procs p
    apply h.stay
    · rw [hphase]
      rfl
    · rfl
    · exact ⟨hclear p, fun f hf => (hnames p).symm ▸ hok.recorded f hf, hok.inCrate, hcrate⟩
  | @broken p left hphase =>
    have hok := h.procs p
    apply h.stay
    · rw [hphase]
      rfl
    · rfl
    · exact ⟨hclear p, fun f hf => (hnames p).symm ▸ hok.recorded f hf, hok.inCrate, trivial⟩
  | suggestFails hphase => exact h.leave hcareful
  | @skip p left counts todo suggestions file hphase hfile =>
    have htodo : todo ⊆ crate p := by
      have hpok := (h.procs p).phase
      rw [PhaseOk, hphase] at hpok
      exact hpok
    exact h.goTo hphase _ rfl ((Finset.erase_subset file todo).trans htodo)
  | read hphase hfile hfixed => exact h.read hphase hfile hfixed hcareful
  | finishFails hphase hfile hfixed => exact h.leave hcareful
  | write hphase => exact h.write hphase
  | writeFails code hphase => exact hcareful.elim
  | @nextRound p left counts suggestions hphase =>
    apply h.goTo hphase
    · cases (s.procs p).files.progress counts <;> rfl
    · cases (s.procs p).files.progress counts <;> exact trivial
  | @release p hphase =>
    have hok := h.procs p
    have hholder : s.holder = some p := (h.holder p).mp (by rw [hphase]; rfl)
    apply h.go
    · cases (s.procs p).files.isEmpty <;> simp [Phase.locked]
    · intro q hq
      simp [hholder, Ne.symm hq]
    · rfl
    · refine { hok with phase := ?_ }
      cases hfiles : (s.procs p).files.isEmpty with
      | false => exact trivial
      | true =>
        -- without files there are no edits
        apply Finset.eq_empty_of_forall_notMem
        intro f hf
        have hrecorded := hok.recorded f hf
        rw [List.isEmpty_iff.mp hfiles] at hrecorded
        exact absurd hrecorded List.not_mem_nil
  | reportFails hphase herror => exact h.leave hcareful
  | check quiet hphase => exact h.check quiet hphase
  | @checkBroken p hphase =>
    exact h.goTo hphase _ rfl ⟨(h.procs p).originals, (h.procs p).recorded⟩
  | checkFails hphase => exact h.leave hcareful
  | @post p quiet hphase =>
    have hempty := h.rewritten_eq hphase id
    apply h.goTo hphase
    · cases quiet <;> rfl
    · cases quiet <;> exact hempty
  | postFails hphase => exact h.leave hcareful
  | restore hphase => exact h.restore hphase
  | restoreFails code hphase hentry => exact hcareful.elim
  | @restored p hphase =>
    have hempty : (s.procs p).rewritten = ∅ := by
      apply h.rewritten_eq hphase
      rintro ⟨-, htodo⟩
      apply Finset.eq_empty_of_forall_notMem
      intro f hf
      exact absurd (htodo f hf) List.not_mem_nil
    exact h.goTo hphase _ rfl hempty
  | log hphase => exact h.goTo hphase _ rfl (h.rewritten_eq hphase id)
  | logFails hphase => exact h.leave hcareful
  | exec hphase => exact h.goTo hphase _ rfl (h.rewritten_eq hphase id)

end Inv

/-- If every step is careful, then in the end every file that was rewritten has its first
content or one with which a final compilation succeeded. -/
theorem verified_of_careful [DecidableEq P] [DecidableEq F] (crate : P → Finset F)
    (rf : Rustfix Code T) (iterations : ℕ) (disk₀ : F → Code) (s : State P F Code T)
    (hrun : ReflTransGen (fun s s' => ∃ label, Step crate rf iterations s label s' ∧
      Careful s label) (State.init disk₀) s) : Verified crate disk₀ s := by
  apply Inv.verified
  apply invariant_of_reachable hrun (inv_init crate disk₀)
  rintro s s' h ⟨label, hstep, hcareful⟩
  exact h.step hstep hcareful

/-! ### Two processes and one file -/

/-- Fixes that replace the code by another one. -/
def replaceFix : Rustfix ℕ ℕ where
  CodeFix := ℕ
  new := id
  apply _ code := (code, none)
  finish := some

/-- A suggestion for the only file. -/
def replaceBy (code : ℕ) : Suggestion Unit ℕ := ⟨[((), (1, 1), (1, 2))], code⟩

/-- Both processes are of a crate with this file. -/
def oneFile : Bool → Finset Unit := fun _ => {()}

/-- Someone has the lock, a process is somewhere, and the file has some code. -/
def moved (s : State Bool Unit ℕ ℕ) (holder : Option Bool) (p : Bool) (proc : Proc Unit ℕ ℕ)
    (code : ℕ) (touched : Finset Unit) : State Bool Unit ℕ ℕ :=
  { s with disk := fun _ => code, holder, procs := Function.update s.procs p proc, touched }

@[simp] theorem moved_procs (s : State Bool Unit ℕ ℕ) (holder : Option Bool) (p : Bool)
    (proc : Proc Unit ℕ ℕ) (code : ℕ) (touched : Finset Unit) :
    (moved s holder p proc code touched).procs p = proc := Function.update_self ..

@[simp] theorem setProc_moved (s : State Bool Unit ℕ ℕ) (holder : Option Bool) (p : Bool)
    (proc proc' : Proc Unit ℕ ℕ) (code : ℕ) (touched : Finset Unit) :
    (moved s holder p proc code touched).setProc p proc' =
      moved s holder p proc' code touched := by
  simp [moved, State.setProc]

@[simp] theorem writeFile_moved (s : State Bool Unit ℕ ℕ) (holder : Option Bool) (p : Bool)
    (proc : Proc Unit ℕ ℕ) (code code' : ℕ) (touched : Finset Unit) :
    (moved s holder p proc code touched).writeFile () code' =
      moved s holder p proc code' (insert () touched) := by
  have hdisk : Function.update (fun _ => code) () code' = fun _ => code' := by
    funext file
    rfl
  simp [moved, State.writeFile, hdisk]

/-- The phase of the process that moved. -/
theorem phase_moved (s : State Bool Unit ℕ ℕ) (holder : Option Bool) (p : Bool)
    (proc : Proc Unit ℕ ℕ) (code : ℕ) (touched : Finset Unit) :
    ((moved s holder p proc code touched).procs p).phase = proc.phase := by
  rw [moved_procs]

section Runs

variable (ok : State Bool Unit ℕ ℕ → Label Bool Unit → Prop) (hok : ∀ s p, ok s (.step p))
  {s : State Bool Unit ℕ ℕ} {p : Bool}

include hok

/-- A process with the lock free changes the file, in one round, and gives the lock back. -/
theorem edits (code : ℕ) (hp : s.procs p = ⟨.waiting, [], ∅⟩) (hfree : s.holder = none)
    (hread : ∀ s', (∀ q, q ≠ p → s'.procs q = s.procs q) → ok s' (.read p ())) :
    ReflTransGen (fun s s' => ∃ label, Step oneFile replaceFix 4 s label s' ∧ ok s label) s
      (moved s none p ⟨.checking, [((), ⟨[], 1, s.disk ()⟩)], {()}⟩ code
        (insert () s.touched)) := by
  let fixed : FixedCrate Unit ℕ := [((), ⟨[], 1, s.disk ()⟩)]
  -- lock, suggest, read, write, next round, release
  have hlock : Step oneFile replaceFix 4 s (.step p) _ := .lock (p := p) (by rw [hp]) hfree
  have hmoved : { s.setPhase p (.round 4) with holder := some p } =
      moved s (some p) p ⟨.round 4, [], ∅⟩ (s.disk ()) s.touched := by
    simp [moved, State.setPhase, State.setProc, hp]
  rw [hmoved] at hlock
  have hsuggest : Step oneFile replaceFix 4 _ (.step p) _ :=
    .suggest [replaceBy code] (phase_moved s (some p) p ⟨.round 4, [], ∅⟩ (s.disk ()) s.touched)
      (Finset.Subset.refl _)
  rw [setProc_moved, moved_procs] at hsuggest
  have hfix : Step oneFile replaceFix 4 _ (.read p ()) _ :=
    .read (phase_moved s (some p) p ⟨.fixing 3 [] {()} [replaceBy code], [], ∅⟩ (s.disk ())
      s.touched) (Finset.mem_singleton_self ()) (by rw [moved_procs]; rfl)
  rw [setProc_moved, moved_procs] at hfix
  have hwrite : Step oneFile replaceFix 4 _ (.step p) _ :=
    .write (phase_moved s (some p) p ⟨.editing 3 [] {()} [replaceBy code] () code, fixed, ∅⟩
      (s.disk ()) s.touched)
  rw [writeFile_moved, setProc_moved, moved_procs] at hwrite
  have hround : Step oneFile replaceFix 4 _ (.step p) _ :=
    .nextRound (phase_moved s (some p) p ⟨.fixing 3 [] ∅ [replaceBy code], fixed, {()}⟩ code
      (insert () s.touched))
  rw [State.setPhase, setProc_moved, moved_procs] at hround
  have hrelease : Step oneFile replaceFix 4 _ (.step p) _ :=
    .release (phase_moved s (some p) p ⟨.reporting, fixed, {()}⟩ code (insert () s.touched))
  rw [State.setPhase, setProc_moved, moved_procs] at hrelease
  exact .head ⟨_, hlock, hok s p⟩ <| .head ⟨_, hsuggest, hok _ p⟩ <|
    .head ⟨_, hfix, hread _ fun q hq => Function.update_of_ne hq ..⟩ <|
    .head ⟨_, hwrite, hok _ p⟩ <| .head ⟨_, hround, hok _ p⟩ <| .single ⟨_, hrelease, hok _ p⟩

/-- A process whose edit does not compile writes the original code back and ends. -/
theorem backsOut {code : ℕ} (hp : s.procs p = ⟨.checking, [((), ⟨[], 1, code⟩)], {()}⟩) :
    ReflTransGen (fun s s' => ∃ label, Step oneFile replaceFix 4 s label s' ∧ ok s label) s
      (moved s s.holder p ⟨.ended, [((), ⟨[], 1, code⟩)], ∅⟩ code (insert () s.touched)) := by
  let fixed : FixedCrate Unit ℕ := [((), ⟨[], 1, code⟩)]
  have hcheck : Step oneFile replaceFix 4 s (.step p) _ := .checkBroken (p := p) (by rw [hp])
  have hmoved : s.setPhase p (.restoring (s.procs p).files) =
      moved s s.holder p ⟨.restoring fixed, fixed, {()}⟩ (s.disk ()) s.touched := by
    simp [moved, State.setPhase, State.setProc, hp, fixed]
  rw [hmoved] at hcheck
  have hrestore : Step oneFile replaceFix 4 _ (.step p) _ :=
    .restore (phase_moved s s.holder p ⟨.restoring ([] ++ ((), ⟨[], 1, code⟩) :: []), fixed, {()}⟩
      (s.disk ()) s.touched)
  rw [writeFile_moved, setProc_moved, moved_procs] at hrestore
  have hrestored : Step oneFile replaceFix 4 _ (.step p) _ :=
    .restored (phase_moved s s.holder p ⟨.restoring [], fixed, ∅⟩ code (insert () s.touched))
  rw [State.setPhase, setProc_moved, moved_procs] at hrestored
  have hlog : Step oneFile replaceFix 4 _ (.step p) _ :=
    .log (phase_moved s s.holder p ⟨.logging, fixed, ∅⟩ code (insert () s.touched))
  rw [State.setPhase, setProc_moved, moved_procs] at hlog
  have hexec : Step oneFile replaceFix 4 _ (.step p) _ :=
    .exec (phase_moved s s.holder p ⟨.executing, fixed, ∅⟩ code (insert () s.touched))
  rw [State.setPhase, setProc_moved, moved_procs] at hexec
  exact .head ⟨_, hcheck, hok s p⟩ <| .head ⟨_, hrestore, hok _ p⟩ <|
    .head ⟨_, hrestored, hok _ p⟩ <| .head ⟨_, hlog, hok _ p⟩ <| .single ⟨_, hexec, hok _ p⟩

end Runs

/-- A process changes the file from `0` to `1` and gives the lock back. The other one takes `1`
for the original code, and changes it to `2`. Neither compiles: the first one writes `0` back,
and then the second one writes `1` back. -/
theorem edit_left_behind :
    ∃ s : State Bool Unit ℕ ℕ,
      ReflTransGen (fun s s' => ∃ label, Step oneFile replaceFix 4 s label s')
        (State.init fun _ => 0) s ∧
      (∀ p, (s.procs p).phase = .ended) ∧ s.disk () = 1 ∧
        ¬ Verified oneFile (fun _ => 0) s := by
  have hok : ∀ (_ : State Bool Unit ℕ ℕ) (_ : Bool), True := fun _ _ => trivial
  have r₁ := edits (fun _ _ => True) hok (s := State.init fun _ => 0) (p := false) 1 rfl rfl
    fun _ _ => trivial
  have r₂ := r₁.trans (edits _ hok (p := true) 2 rfl rfl fun _ _ => trivial)
  have r₃ := r₂.trans (backsOut _ hok (p := false) rfl)
  have r₄ := r₃.trans (backsOut _ hok (p := true) rfl)
  refine ⟨_, ReflTransGen.mono ?_ _ _ r₄, Bool.rec rfl rfl, rfl, ?_⟩
  · rintro s s' ⟨label, hstep, -⟩
    exact ⟨label, hstep⟩
  · intro hverified
    have haccounted := hverified (Bool.rec rfl rfl) () (Finset.mem_insert_self _ _)
    rcases haccounted with hfirst | ⟨entry, hentry, -⟩
    · cases hfirst
    · cases hentry

/-- One process after the other: the first one takes its edit back, and the edit of the second
one compiles. -/
theorem edit_verified :
    ∃ s : State Bool Unit ℕ ℕ,
      ReflTransGen (fun s s' => ∃ label, Step oneFile replaceFix 4 s label s' ∧ Careful s label)
        (State.init fun _ => 0) s ∧
      (∀ p, (s.procs p).phase = .ended) ∧ s.disk () = 2 ∧ Verified oneFile (fun _ => 0) s := by
  have hok : ∀ (s : State Bool Unit ℕ ℕ) (p : Bool), Careful s (.step p) := fun _ _ => trivial
  have r₁ := edits Careful hok (s := State.init fun _ => 0) (p := false) 1 rfl rfl (by
    intro s' hsame _ q hq _
    rw [hsame q hq]
    exact Finset.notMem_empty ())
  have r₂ := r₁.trans (backsOut _ hok (p := false) rfl)
  have r₃ := r₂.trans (edits _ hok (p := true) 2 rfl rfl (by
    intro s' hsame _ q hq _
    rw [hsame q hq]
    cases q with
    | false => exact Finset.notMem_empty ()
    | true => exact absurd rfl hq))
  have r₄ := r₃.tail ⟨_, .check (p := true) true rfl, trivial⟩
  have r₅ := r₄.tail ⟨_, .post (p := true) rfl, trivial⟩
  refine ⟨_, r₅, ?_, rfl, verified_of_careful oneFile replaceFix 4 (fun _ => 0) _ r₅⟩
  intro p
  cases p <;> rfl

end Cargo.Ops.Fix
