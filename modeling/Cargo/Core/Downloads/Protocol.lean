import Cargo.Core.Downloads.Invariant
import Cargo.Math.Transition
import Mathlib.Data.Prod.Lex
import Mathlib.Algebra.BigOperators.Group.List.Basic
import Mathlib.Tactic.IntervalCases

/-!
# The protocol of parallel downloads

No assertion fails, every package that was queued is returned once, and the bytes that are
unpacked for it are those of its one transfer that succeeded. If transfers come to an end and
the caller keeps waiting, then every package that was queued is returned or an error is reported.

## Main definitions

* `Safe` — what holds in every state
* `Process`, `Fair` — the caller, a call of `wait` and the transfers, none of which is left out
* `measure` — what is still to be done

## Main results

* `safe_of_reachable`
* `leads_to_returned` — every package that was queued is returned, or an error is reported
-/

set_option autoImplicit false

namespace Cargo.Core.Downloads

open Relation Cargo.Math

variable {I Pkg : Type} [DecidableEq I] {packages : Finset I}

/-! ### Every state -/

/-- What holds in every state up to the first error. Before the error is reported, the packages
noted as pending are those of the downloads in progress, and each package that was queued is in
progress, in hand or returned. -/
structure Safe (packages : Finset I) (s : State I Pkg) : Prop where
  no_panic : s.phase ≠ .panicked
  tokens : (s.pending.map Download.token).Nodup
  handed : Handed s
  ids : s.phase ≠ .failed → (s.pending.map Download.id).Nodup ∧
    s.pendingIds = (s.pending.map Download.id).toFinset
  once : s.phase ≠ .failed → s.queued.Nodup ∧ s.queued.Perm
    (s.returned ++ s.inHand.map (fun e => e.1.id) ++ s.pending.map Download.id)
  /-- Tokens do not overflow. -/
  next_le : s.phase ≠ .failed → s.next ≤ packages.card

theorem Inv.safe {s : State I Pkg} (h : Inv packages s) : Safe packages s where
  no_panic := h.running.2
  tokens := h.books.tokens
  handed := h.handed
  ids _ := ⟨h.books.ids, h.books.pendingIds⟩
  once _ := ⟨h.once, h.queued⟩
  next_le _ := by
    rw [h.count, ← List.toFinset_card_of_nodup h.once]
    apply Finset.card_le_card
    intro id hid
    exact h.known id (List.mem_toFinset.mp hid)

theorem Stopped.safe {s : State I Pkg} (h : Stopped s) : Safe packages s where
  no_panic := by simp [h.phase]
  tokens := h.tokens
  handed := h.handed
  ids hphase := absurd h.phase hphase
  once hphase := absurd h.phase hphase
  next_le hphase := absurd h.phase hphase

/-- Every state is in order, or an error was reported. -/
theorem inv_or_stopped {slots : I → Option Pkg} {s : State I Pkg}
    (hs : ReflTransGen (Step packages) (State.init slots) s) (hresumed : s.resumed = false) :
    Inv packages s ∨ Stopped s := by
  have hall : s.resumed = true ∨ Inv packages s ∨ Stopped s := by
    apply invariant_of_reachable hs (.inr (.inl (inv_init packages slots)))
    intro s s' hinv hstep
    rcases hinv with hresumed | hinv | hstopped
    · exact .inl (hstep.resumed hresumed)
    · exact .inr (hinv.step hstep)
    · exact .inl (hstopped.resumed hstep)
  rcases hall with htrue | hinv
  · rw [hresumed] at htrue
    cases htrue
  · exact hinv

theorem safe_of_reachable {slots : I → Option Pkg} {s : State I Pkg}
    (hs : ReflTransGen (Step packages) (State.init slots) s) (hresumed : s.resumed = false) :
    Safe packages s := by
  rcases inv_or_stopped hs hresumed with hinv | hstopped
  · exact hinv.safe
  · exact hstopped.safe

/-! ### Progress -/

/-- The parties that take steps. -/
inductive Process
  /-- The caller, who waits while something is pending. -/
  | caller
  /-- A call of `wait`. -/
  | waiting
  /-- A transfer, which comes to an end. -/
  | transfer (handle : ℕ)

/-- The steps of a process. A call of `wait` goes on when something has ended; a source that was
handed the bytes of a package answers with the package or with an error. -/
def Process.acts (packages : Finset I) : Process → State I Pkg → State I Pkg → Prop
  | .caller, s, s' => s.phase = .idle ∧ s.pending ≠ [] ∧ s' = s.loop
  | .waiting, s, s' => WaitStep packages s s' ∨
      (∃ dl data, s.phase = .finishing dl data) ∧ FailStep packages s s'
  | .transfer handle, s, s' => Completes handle s s'

/-- No process is left out forever while it can take a step. -/
def Fair {s₀ : State I Pkg} (b : Behaviour (Step packages) s₀) : Prop :=
  ∀ p : Process, b.WeaklyFair (p.acts packages)

/-- The packages that may still be started. -/
def State.fresh (packages : Finset I) (s : State I Pkg) : Finset I :=
  packages.filter fun id => (s.slots id).isNone ∧ id ∉ s.queued

/-- How many attempts there may be for the downloads in progress, and the download in hand. -/
def State.work (s : State I Pkg) : ℕ :=
  (s.pending.map fun dl => dl.remaining + 1).sum + s.inHand.length

/-- How far the caller is from handling a result. -/
def Phase.rank : Phase I → ℕ
  | .idle => 3
  | .performing => 2
  | .processing _ _ => 1
  | _ => 0

/-- The transfers that have not ended. -/
def State.openTransfers (s : State I Pkg) : Finset ℕ :=
  s.multi.filter fun handle => ((s.attempts[handle]?).bind Attempt.done).isNone

/-- What is still to be done. -/
def State.measure (packages : Finset I) (s : State I Pkg) : ℕ ×ₗ ℕ ×ₗ ℕ ×ₗ ℕ :=
  toLex ((s.fresh packages).card, toLex (s.work, toLex (s.phase.rank, s.openTransfers.card)))

section Measure

variable {s s' : State I Pkg}

theorem measure_lt_of_fresh (h : s'.fresh packages ⊂ s.fresh packages) :
    s'.measure packages < s.measure packages :=
  Prod.Lex.toLex_lt_toLex.mpr (.inl (Finset.card_lt_card h))

theorem measure_lt_of_work (hfresh : s'.fresh packages = s.fresh packages)
    (h : s'.work < s.work) : s'.measure packages < s.measure packages := by
  rw [State.measure, State.measure, hfresh]
  exact Prod.Lex.toLex_lt_toLex.mpr (.inr ⟨rfl, Prod.Lex.toLex_lt_toLex.mpr (.inl h)⟩)

theorem measure_lt_of_rank (hfresh : s'.fresh packages = s.fresh packages)
    (hwork : s'.work ≤ s.work) (h : s'.phase.rank < s.phase.rank) :
    s'.measure packages < s.measure packages := by
  rcases hwork.lt_or_eq with hlt | heq
  · exact measure_lt_of_work hfresh hlt
  · rw [State.measure, State.measure, hfresh, heq]
    refine Prod.Lex.toLex_lt_toLex.mpr (.inr ⟨rfl, Prod.Lex.toLex_lt_toLex.mpr (.inr ⟨rfl, ?_⟩)⟩)
    exact Prod.Lex.toLex_lt_toLex.mpr (.inl h)

theorem measure_lt_of_open (hfresh : s'.fresh packages = s.fresh packages)
    (hwork : s'.work = s.work) (hrank : s'.phase.rank = s.phase.rank)
    (h : s'.openTransfers ⊂ s.openTransfers) : s'.measure packages < s.measure packages := by
  rw [State.measure, State.measure, hfresh, hwork, hrank]
  refine Prod.Lex.toLex_lt_toLex.mpr (.inr ⟨rfl, Prod.Lex.toLex_lt_toLex.mpr (.inr ⟨rfl, ?_⟩)⟩)
  exact Prod.Lex.toLex_lt_toLex.mpr (.inr ⟨rfl, Finset.card_lt_card h⟩)

end Measure

/-- A step that moves nothing forward: bytes are written, a timeout is noted, or there is nothing
to be done. -/
structure Quiet (s s' : State I Pkg) : Prop where
  phase : s'.phase = s.phase
  slots : s'.slots = s.slots
  queued : s'.queued = s.queued
  returned : s'.returned = s.returned
  pending : s'.pending.map Download.remaining = s.pending.map Download.remaining
  multi : s'.multi = s.multi
  done : ∀ i : ℕ, (s'.attempts[i]?).map Attempt.done = (s.attempts[i]?).map Attempt.done
  messages : s'.messages = s.messages
  results : s'.results = s.results

namespace Quiet

variable {s s' : State I Pkg}

omit [DecidableEq I] in
theorem refl (s : State I Pkg) : Quiet s s :=
  ⟨rfl, rfl, rfl, rfl, rfl, rfl, fun _ => rfl, rfl, rfl⟩

omit [DecidableEq I] in
theorem inHand_eq (h : Quiet s s') : s'.inHand = s.inHand := by
  rw [State.inHand, h.phase, State.inHand]

/-- What is to be done stays the same. -/
theorem measure_eq (h : Quiet s s') : s'.measure packages = s.measure packages := by
  have hfresh : s'.fresh packages = s.fresh packages := by
    rw [State.fresh, h.slots, h.queued, State.fresh]
  have hwork : s'.work = s.work := by
    have hremaining := congrArg (fun l : List ℕ => (l.map (· + 1)).sum) h.pending
    simp only [List.map_map] at hremaining
    rw [State.work, State.work, h.inHand_eq]
    exact congrArg (· + s.inHand.length) hremaining
  have hopen : s'.openTransfers = s.openTransfers := by
    rw [State.openTransfers, State.openTransfers, h.multi]
    apply Finset.filter_congr
    intro handle _
    have hdone := congrArg (fun o => o.bind id) (h.done handle)
    simp only [Option.bind_map, Function.id_comp] at hdone
    rw [hdone]
  rw [State.measure, hfresh, hwork, h.phase, hopen, State.measure]

/-- A process that could take a step still can. -/
theorem enabled (h : Quiet s s') (hphase : s.phase = .performing) (p : Process)
    (hp : ∃ t, p.acts packages s t) : ∃ t, p.acts packages s' t := by
  obtain ⟨t, ht⟩ := hp
  have hphase' : s'.phase = .performing := h.phase.trans hphase
  cases p with
  | caller =>
    obtain ⟨hidle, -⟩ := ht
    rw [hphase] at hidle
    cases hidle
  | waiting =>
    rcases ht with hwait | ⟨⟨dl, data, hfinishing⟩, -⟩
    · cases hwait with
      | collect _ hsome =>
        rw [← h.messages, ← h.results] at hsome
        exact ⟨_, .inl (.collect hphase' hsome)⟩
      | process hprocessing =>
        rw [hphase] at hprocessing
        cases hprocessing
      | finish pkg hfinishing =>
        rw [hphase] at hfinishing
        cases hfinishing
    · rw [hphase] at hfinishing
      cases hfinishing
  | transfer handle =>
    obtain ⟨-, hmulti, ha, hopen, d⟩ := ht
    have hdone := h.done handle
    rw [ha, Option.map_some, hopen, Option.map_eq_some_iff] at hdone
    obtain ⟨a', ha', hopen'⟩ := hdone
    exact ⟨_, .done hphase' (h.multi ▸ hmulti) ha' hopen' d⟩

omit [DecidableEq I] in
/-- Curl tells a download something. -/
theorem modify (s : State I Pkg) (token : ℕ) (f : Download I → Download I)
    (hf : ∀ dl, (f dl).remaining = dl.remaining) (attempts : List (Attempt I))
    (hdone : ∀ i : ℕ, (attempts[i]?).map Attempt.done = (s.attempts[i]?).map Attempt.done) :
    Quiet s ({ s with attempts }.modify token f) := by
  refine ⟨rfl, rfl, rfl, rfl, ?_, rfl, hdone, rfl, rfl⟩
  rw [State.modify, List.map_map]
  apply List.map_congr_left
  intro dl _
  rw [Function.comp_apply]
  split
  · exact hf dl
  · rfl

end Quiet

/-! ### What a step does -/

/-- A step moves something forward, or is quiet. -/
def Forward (packages : Finset I) (s s' : State I Pkg) : Prop :=
  s.queued ⊆ s'.queued ∧ s'.measure packages < s.measure packages

namespace Inv

variable {s s' : State I Pkg}

theorem fresh_ready (h : Inv packages s) {id : I} (pkg : Pkg) (hphase : s.phase = .idle)
    (hid : id ∈ packages) (hslot : s.slots id = none) (hpending : ∀ dl ∈ s.pending, dl.id ≠ id) :
    State.fresh packages { s with slots := Function.update s.slots id (some pkg) } ⊂
      s.fresh packages := by
  have hfresh := h.notMem_queued hphase hslot hpending
  rw [Finset.ssubset_iff_of_subset]
  · refine ⟨id, ?_, ?_⟩
    · simp [State.fresh, hid, hslot, hfresh]
    · simp [State.fresh]
  · intro id' hid'
    simp only [State.fresh, Finset.mem_filter] at hid' ⊢
    refine ⟨hid'.1, ?_, hid'.2.2⟩
    by_cases heq : id' = id
    · rw [heq, hslot, Option.isNone_none]
    · rw [Function.update_of_ne heq] at hid'
      exact hid'.2.1

theorem queued_startDownload (h : Inv packages s) {id : I} (retries : ℕ)
    (hpending : ∀ dl ∈ s.pending, dl.id ≠ id) :
    (s.startDownload id retries).queued = s.queued ++ [id] ∧
      (s.startDownload id retries).slots = s.slots := by
  rw [State.startDownload, if_neg (h.id_notMem_pendingIds hpending)]
  exact ⟨rfl, rfl⟩

theorem fresh_startDownload (h : Inv packages s) {id : I} (retries : ℕ) (hphase : s.phase = .idle)
    (hid : id ∈ packages) (hslot : s.slots id = none) (hpending : ∀ dl ∈ s.pending, dl.id ≠ id) :
    (s.startDownload id retries).fresh packages ⊂ s.fresh packages := by
  have hfresh := h.notMem_queued hphase hslot hpending
  obtain ⟨hqueued, hslots⟩ := h.queued_startDownload retries hpending
  rw [State.fresh, hqueued, hslots, Finset.ssubset_iff_of_subset]
  · refine ⟨id, ?_, ?_⟩
    · simp [State.fresh, hid, hslot, hfresh]
    · simp
  · intro id' hid'
    simp only [State.fresh, Finset.mem_filter, List.mem_append, not_or] at hid' ⊢
    exact ⟨hid'.1, hid'.2.1, hid'.2.2.1⟩

/-- A call of `wait` begins. -/
theorem forward_loop (h : Inv packages s) (hphase : s.phase = .idle) :
    Forward packages s s.loop := by
  rw [loop_eq h.books.length_eq_card]
  refine ⟨List.Subset.refl _, measure_lt_of_rank rfl ?_ ?_⟩
  · simp [State.work, State.inHand, hphase]
  · simp [Phase.rank, hphase]

/-- A transfer ends. -/
theorem forward_complete {handle : ℕ} (hstep : Completes handle s s') : Forward packages s s' := by
  obtain ⟨hphase, hmulti, ha, hopen, d⟩ := hstep
  rename_i a
  refine ⟨List.Subset.refl _, measure_lt_of_open rfl ?_ rfl ?_⟩
  · simp [State.work, State.inHand, hphase]
  · have hself : (s.attempts.set handle { a with done := some d })[handle]? =
        some { a with done := some d } := by grind
    rw [Finset.ssubset_iff_of_subset]
    · refine ⟨handle, ?_, ?_⟩
      · simp [State.openTransfers, hmulti, ha, hopen]
      · simp [State.openTransfers, hself]
    · intro i hi
      simp only [State.openTransfers, Finset.mem_filter] at hi ⊢
      by_cases heq : i = handle
      · simp [heq, hmulti, ha, hopen]
      · rw [List.getElem?_set_ne (Ne.symm heq)] at hi
        exact hi

/-- A result is taken. -/
theorem forward_collect (h : Inv packages s) (hphase : s.phase = .performing)
    (hsome : s.messages ≠ [] ∨ s.results ≠ []) : Forward packages s s.waitForCurl := by
  obtain ⟨-, hpending, hnext⟩ := h.books.waitForCurl hphase (h.busy hphase)
  obtain ⟨hqueued, -, -, hslots⟩ := waitForCurl_kept s
  rcases hnext with ⟨-, hmessages, hresults⟩ | ⟨token, result, hprocessing⟩
  · rcases hsome with hsome | hsome
    · exact absurd hmessages hsome
    · exact absurd hresults hsome
  · refine ⟨hqueued ▸ List.Subset.refl _, measure_lt_of_rank ?_ ?_ ?_⟩
    · rw [State.fresh, hslots, hqueued, State.fresh]
    · simp [State.work, State.inHand, hprocessing, hpending]
    · simp [Phase.rank, hphase, hprocessing]

/-- The attempts for the downloads in progress are those for one of them and for the others. -/
theorem sum_remove (h : Inv packages s) {dl : Download I} (hdl : dl ∈ s.pending) :
    (s.pending.map fun dl => dl.remaining + 1).sum =
      ((s.remove dl).pending.map fun dl => dl.remaining + 1).sum + (dl.remaining + 1) := by
  have hperm := ((h.books.perm_remove hdl).map fun dl => dl.remaining + 1).sum_eq
  rw [List.map_append, List.sum_append, List.map_singleton, List.sum_singleton] at hperm
  exact hperm

omit [DecidableEq I] in
theorem inHand_loop (s : State I Pkg) : s.loop.inHand = [] := by
  by_cases hlength : s.pending.length = s.pendingIds.card
  · simp [State.inHand, State.loop, hlength]
  · simp [State.inHand, State.loop, hlength]

/-- A result is handled. -/
theorem forward_process (h : Inv packages s) {token : ℕ} {result : Except CurlError Unit}
    (hphase : s.phase = .processing token result) :
    (s.process token result).phase = .failed ∨ Forward packages s (s.process token result) := by
  have hmem : (token, result) ∈ s.collected := by simp [State.collected, hphase]
  obtain ⟨dl, hdl, htoken, -⟩ := h.books.collected.2 _ hmem
  subst htoken
  have hsum := h.sum_remove hdl
  have hwork : s.work = (s.pending.map fun dl => dl.remaining + 1).sum := by
    simp [State.work, State.inHand, hphase]
  rw [State.process, h.books.download?_eq hdl]
  simp only
  split
  · right
    refine ⟨List.Subset.refl _, measure_lt_of_rank rfl ?_ ?_⟩
    · rw [hwork, hsum]
      simp [State.work, State.inHand]
    · simp [Phase.rank, hphase]
  · split
    · rename_i hretry
      right
      -- one try less is left, which outweighs the transfer that is added
      have hothers : ∀ dl' ∈ (s.remove dl).pending, dl'.token ≠ dl.token := by
        intro dl' hdl' heq
        obtain ⟨hdl', hne⟩ := (h.books.mem_remove hdl).mp hdl'
        exact hne (h.books.eq_of_token hdl' hdl heq)
      have hpending := Books.pending_enqueue
        { s.remove dl with pendingIds := insert dl.id (s.remove dl).pendingIds }
        { dl with data := [], remaining := dl.remaining - 1 } hothers
      refine ⟨List.Subset.refl _, measure_lt_of_work rfl ?_⟩
      rw [hwork, hsum, State.work, inHand_loop, List.length_nil, Nat.add_zero]
      change (List.map (fun dl => dl.remaining + 1) (State.enqueue _ _).pending).sum < _
      rw [hpending, List.map_append, List.sum_append, List.map_singleton, List.sum_singleton]
      exact Nat.add_lt_add_left (by dsimp only; omega) _
    · exact .inl rfl

/-- A package is returned. -/
theorem forward_finish (h : Inv packages s) {dl : Download I} {data : List UInt8} (pkg : Pkg)
    (hphase : s.phase = .finishing dl data) :
    Forward packages s (s.finish packages dl data pkg) := by
  have hinHand : s.inHand = [(dl, data)] := by rw [State.inHand, hphase]
  have hmem : (dl, data) ∈ s.inHand := by simp [hinHand]
  obtain ⟨hid, hslot, -⟩ := h.books.hand _ hmem
  have hqueued : dl.id ∈ s.queued := by
    rw [h.queued.mem_iff, hinHand]
    simp
  have hnone : (s.slots dl.id).isNone := by rw [hslot, Option.isNone_none]
  rw [State.finish, if_pos ⟨hid, hnone⟩]
  refine ⟨List.Subset.refl _, measure_lt_of_work ?_ ?_⟩
  · apply Finset.filter_congr
    intro id _
    by_cases heq : id = dl.id
    · simp [heq, hqueued]
    · simp [Function.update_of_ne heq]
  · simp [State.work, State.inHand, hphase]

omit [DecidableEq I] in
theorem waitForCurl_eq_self (hmessages : s.messages = []) (hresults : s.results = [])
    (hbusy : s.pending ≠ []) : s.waitForCurl = s := by
  obtain ⟨slots, pending, pendingIds, results, next, attempts, multi, messages⟩ := s
  subst hmessages hresults
  simp only at hbusy
  simp [State.waitForCurl, hbusy]

/-- A step reports an error, moves something forward, or is quiet. -/
theorem progress (h : Inv packages s) (hstep : Step packages s s') :
    s'.phase = .failed ∨ Forward packages s s' ∨
      (s' = s ∨ s.phase = .performing ∧ Quiet s s') := by
  cases hstep with
  | call hcall =>
    right
    cases hcall with
    | cached hphase hid hslot => exact .inr (.inl rfl)
    | ready pkg hphase hid hslot hpending =>
      left
      exact ⟨List.Subset.refl _,
        measure_lt_of_fresh (h.fresh_ready pkg hphase hid hslot hpending)⟩
    | download retries hphase hid hslot hpending =>
      left
      refine ⟨?_, measure_lt_of_fresh (h.fresh_startDownload retries hphase hid hslot hpending)⟩
      rw [(h.queued_startDownload retries hpending).1]
      exact List.subset_append_left _ _
    | wait hphase hpending => exact .inl (h.forward_loop hphase)
  | curl hcurl =>
    right
    cases hcurl with
    | @write handle a hphase hmulti ha hopen bytes =>
      refine .inr (.inr ⟨hphase, ?_⟩)
      rw [h.books.writeFunction_eq hmulti ha]
      apply Quiet.modify
      · exact fun _ => rfl
      · intro i
        by_cases heq : i = handle
        · subst heq
          have hlt := (List.getElem?_eq_some_iff.mp ha).1
          rw [List.getElem?_set_self hlt, ha]
          rfl
        · rw [List.getElem?_set_ne (Ne.symm heq)]
    | progress hphase hmulti ha hopen timedOut =>
      refine .inr (.inr ⟨hphase, ?_⟩)
      rw [h.books.progressFunction_eq hmulti ha]
      exact Quiet.modify s _ (fun dl => { dl with timedOut := dl.timedOut || timedOut })
        (fun _ => rfl) s.attempts fun _ => rfl
    | complete handle hcompletes => exact .inl (forward_complete hcompletes)
    | block hphase hmessages hresults =>
      exact .inr (.inl (waitForCurl_eq_self hmessages hresults (h.busy hphase)))
  | wait hwait =>
    cases hwait with
    | collect hphase hsome => exact .inr (.inl (h.forward_collect hphase hsome))
    | process hphase =>
      rcases h.forward_process hphase with hfailed | hforward
      · exact .inl hfailed
      · exact .inr (.inl hforward)
    | finish pkg hphase => exact .inr (.inl (h.forward_finish pkg hphase))
  | fail hfail => exact .inl (h.fail hfail).phase
  | resume hfailed => exact absurd hfailed h.running.1

/-- While a package is to be returned, some process can take a step. -/
theorem exists_acts (h : Inv packages s) {id : I} (hqueued : id ∈ s.queued)
    (hreturned : id ∉ s.returned) : ∃ (p : Process) (t : State I Pkg), p.acts packages s t := by
  cases hphase : s.phase with
  | idle =>
    refine ⟨.caller, s.loop, hphase, ?_, rfl⟩
    intro hnil
    rw [h.queued.mem_iff, hnil, State.inHand, hphase] at hqueued
    simp at hqueued
    exact hreturned hqueued
  | performing =>
    by_cases hsome : s.messages ≠ [] ∨ s.results ≠ []
    · exact ⟨.waiting, _, .inl (.collect hphase hsome)⟩
    · -- nothing has ended, so a transfer is still going on
      rw [not_or, not_not, not_not] at hsome
      obtain ⟨dl, hdl⟩ := List.exists_mem_of_ne_nil _ (h.busy hphase)
      obtain ⟨a, ha, -⟩ := h.books.transfer dl hdl
      have hopen : a.done = none := by
        by_contra hdone
        have hended := h.books.ended dl hdl a ha hdone
        rw [Books.collected_of_performing hphase, hsome.1, hsome.2] at hended
        simp at hended
      have hmulti : dl.handle ∈ s.multi := (h.books.multi dl.handle).mpr ⟨dl, hdl, rfl⟩
      exact ⟨.transfer dl.handle, _, .done hphase hmulti ha hopen ⟨.ok (), 200⟩⟩
  | processing token result => exact ⟨.waiting, _, .inl (.process hphase)⟩
  | finishing dl data => exact ⟨.waiting, _, .inr ⟨⟨dl, data, hphase⟩, .announce hphase⟩⟩
  | failed => exact absurd hphase h.running.1
  | panicked => exact absurd hphase h.running.2

/-- The steps of the processes report an error or move something forward. -/
theorem forward_acts (h : Inv packages s) {p : Process} (hacts : p.acts packages s s') :
    s'.phase = .failed ∨ Forward packages s s' := by
  cases p with
  | caller =>
    obtain ⟨hphase, -, rfl⟩ := hacts
    exact .inr (h.forward_loop hphase)
  | waiting =>
    rcases hacts with hwait | ⟨-, hfail⟩
    · cases hwait with
      | collect hphase hsome => exact .inr (h.forward_collect hphase hsome)
      | process hphase => exact h.forward_process hphase
      | finish pkg hphase => exact .inr (h.forward_finish pkg hphase)
    · exact .inl (h.fail hfail).phase
  | transfer handle => exact .inr (forward_complete hacts)

end Inv

/-- Every package that was queued is returned, or an error is reported. -/
theorem leads_to_returned {slots : I → Option Pkg}
    (b : Behaviour (Step packages) (State.init slots))
    (hfair : Fair b) {k : ℕ} (hresumed : (b.state k).resumed = false) {id : I}
    (hid : id ∈ (b.state k).queued) :
    ∃ m, k ≤ m ∧ (id ∈ (b.state m).returned ∨ (b.state m).phase = .failed) := by
  rcases inv_or_stopped (b.reachable k) hresumed with hinv | hstopped
  · by_cases hreturned : id ∈ (b.state k).returned
    · exact ⟨k, le_rfl, .inl hreturned⟩
    · apply b.leads_to_of_descent
        (P := fun s => Inv packages s ∧ id ∈ s.queued ∧ id ∉ s.returned)
        (Q := fun s => id ∈ s.returned ∨ s.phase = .failed)
        (State.measure packages) hfair
      · rintro s s' ⟨hs, hqueued, hnot⟩ hstep
        rcases hs.step hstep with hs' | hstopped
        · by_cases hreturned' : id ∈ s'.returned
          · exact .inl (.inl hreturned')
          · rcases hs.progress hstep with hfailed | ⟨hsub, hlt⟩ | rfl | ⟨hphase, hquiet⟩
            · exact .inl (.inr hfailed)
            · exact .inr ⟨⟨hs', hsub hqueued, hreturned'⟩, .inl hlt⟩
            · exact .inr ⟨⟨hs', hqueued, hreturned'⟩, .inr ⟨rfl, fun _ hp => hp⟩⟩
            · refine .inr ⟨⟨hs', hquiet.queued ▸ hqueued, hreturned'⟩, .inr ⟨?_, ?_⟩⟩
              · exact hquiet.measure_eq
              · exact fun p hp => hquiet.enabled hphase p hp
        · exact .inl (.inr hstopped.phase)
      · rintro p s s' ⟨hs, -, -⟩ hacts
        rcases hs.forward_acts hacts with hfailed | ⟨-, hlt⟩
        · exact .inl (.inr hfailed)
        · exact .inr hlt
      · rintro s ⟨hs, hqueued, hnot⟩
        exact hs.exists_acts hqueued hnot
      · exact ⟨hinv, hid, hreturned⟩
  · exact ⟨k, le_rfl, .inr hstopped.phase⟩

/-- Whatever packages there are and in whichever order they are started, waited for and
transferred: up to the first error no assertion fails and the books are in order, and in every
fair run each package that was queued is returned or an error is reported. -/
theorem safe_and_returned (I Pkg : Type) [DecidableEq I] (packages : Finset I)
    (slots : I → Option Pkg) :
    (∀ s, ReflTransGen (Step packages) (State.init slots) s → s.resumed = false →
        Safe packages s) ∧
      ∀ b : Behaviour (Step packages) (State.init slots), Fair b →
        ∀ k, (b.state k).resumed = false → ∀ id ∈ (b.state k).queued,
          ∃ m, k ≤ m ∧ (id ∈ (b.state m).returned ∨ (b.state m).phase = .failed) :=
  ⟨fun _ hs hresumed => safe_of_reachable hs hresumed,
    fun b hfair _ hresumed _ hid => leads_to_returned b hfair hresumed hid⟩

/-- The bytes of a transfer that is going on, and how it ends. -/
def transferred (s : State ℕ ℕ) (handle : ℕ) (bytes : List UInt8) (d : Done) :
    State ℕ ℕ × State ℕ ℕ :=
  let a : Attempt ℕ := ⟨0, 0, [], none⟩
  let written := State.writeFunction { s with
    attempts := s.attempts.set handle { a with written := a.written ++ bytes } } 0 bytes
  (written, { written with
    attempts := written.attempts.set handle { a with written := bytes, done := some d }
    messages := written.messages ++ [handle] })

/-- One package is downloaded, at the second attempt. -/
def retried : ℕ → State ℕ ℕ
  | 0 => State.init fun _ => none
  | 1 => (retried 0).startDownload 0 2
  | 2 => (retried 1).loop
  | 3 => (transferred (retried 2) 0 [1] ⟨.error .recvError, 0⟩).1
  | 4 => (transferred (retried 2) 0 [1] ⟨.error .recvError, 0⟩).2
  | 5 => (retried 4).waitForCurl
  | 6 => (retried 5).process 0 (.error .recvError)
  | 7 => (transferred (retried 6) 1 [2, 3] ⟨.ok (), 200⟩).1
  | 8 => (transferred (retried 6) 1 [2, 3] ⟨.ok (), 200⟩).2
  | 9 => (retried 8).waitForCurl
  | 10 => (retried 9).process 0 (.ok ())
  | 11 => (retried 10).finish {0} ⟨0, 0, [2, 3], false, 1, 1⟩ [2, 3] 7
  | k + 12 => retried (k + 11)

/-- Once the package is returned, nothing changes. -/
theorem retried_eq {k : ℕ} (hk : 11 ≤ k) : retried k = retried 11 := by
  induction k, hk using Nat.le_induction with
  | base => rfl
  | succ k hk ih =>
    obtain ⟨n, rfl⟩ : ∃ n, k = n + 11 := ⟨k - 11, by omega⟩
    exact ih

/-- The run as a behaviour of the system. -/
def retriedRun : Behaviour (Step {0}) (State.init fun _ : ℕ => (none : Option ℕ)) where
  state := retried
  start := rfl
  step k := by
    have hfirst : (retried 2).attempts[0]? = some ⟨0, 0, [], none⟩ := rfl
    have hfailed : (retried 3).attempts[0]? = some ⟨0, 0, [1], none⟩ := rfl
    have hsecond : (retried 6).attempts[1]? = some ⟨0, 0, [], none⟩ := rfl
    have hreceived : (retried 7).attempts[1]? = some ⟨0, 0, [2, 3], none⟩ := rfl
    have hnone : (retried 0).pending = [] := rfl
    have hlength : (retried 1).pending.length = 1 := rfl
    have hmessages : (retried 4).messages = [0] ∧ (retried 8).messages = [1] := ⟨rfl, rfl⟩
    by_cases hk : 11 ≤ k
    · exact .inl ((retried_eq (Nat.le_succ_of_le hk)).trans (retried_eq hk).symm)
    · right
      interval_cases k
      · exact .call (.download 2 rfl (Finset.mem_singleton_self 0) rfl (by simp [hnone]))
      · exact .call (.wait rfl (List.ne_nil_of_length_eq_add_one hlength))
      · exact .curl (.write rfl (by decide) hfirst rfl [1])
      · exact .curl (.complete 0 (.done rfl (by decide) hfailed rfl ⟨.error .recvError, 0⟩))
      · exact .wait (.collect rfl (.inl (by simp [hmessages])))
      · exact .wait (.process rfl)
      · exact .curl (.write rfl (by decide) hsecond rfl [2, 3])
      · exact .curl (.complete 1 (.done rfl (by decide) hreceived rfl ⟨.ok (), 200⟩))
      · exact .wait (.collect rfl (.inl (by simp [hmessages])))
      · exact .wait (.process rfl)
      · exact .wait (.finish 7 rfl)

/-- The caller has nothing to wait for, and no transfer is going on. -/
theorem retried_not_acts {p : Process} {s : State ℕ ℕ} : ¬ p.acts {0} (retried 11) s := by
  have hphase : (retried 11).phase = .idle := rfl
  have hpending : (retried 11).pending = [] := rfl
  intro hacts
  cases p with
  | caller => exact hacts.2.1 hpending
  | waiting =>
    rcases hacts with hwait | ⟨⟨dl, data, hfinishing⟩, -⟩
    · cases hwait with
      | collect hphase' | process hphase' | finish _ hphase' =>
        rw [hphase] at hphase'
        cases hphase'
    · rw [hphase] at hfinishing
      cases hfinishing
  | transfer handle =>
    obtain ⟨hphase'⟩ := hacts
    rw [hphase] at hphase'
    cases hphase'

/-- The package is returned, with the bytes of the second attempt only. -/
theorem retried_returned :
    Fair retriedRun ∧ (retriedRun.state 11).finished = [(0, [2, 3], 1)] ∧
      ∃ m, 1 ≤ m ∧ (0 ∈ (retriedRun.state m).returned ∨ (retriedRun.state m).phase = .failed) := by
  have hfair : Fair retriedRun := by
    intro p k henabled
    obtain ⟨s, hs⟩ := henabled (k + 11) (Nat.le_add_right k 11)
    rw [show retriedRun.state (k + 11) = retried 11 from retried_eq (by omega)] at hs
    exact absurd hs retried_not_acts
  have hqueued : 0 ∈ (retriedRun.state 1).queued := List.mem_singleton_self 0
  exact ⟨hfair, rfl, (safe_and_returned ℕ ℕ {0} fun _ => none).2 retriedRun hfair 1 rfl 0 hqueued⟩

/-- After the transfer of a package could not be set up, the package is noted as pending and
nothing is downloaded. If it is started again, then an assertion fails. -/
theorem setUp_failed_noted : ∃ s s' : State ℕ ℕ,
    ReflTransGen (Step {0}) (State.init fun _ => none) s ∧ s.phase = .idle ∧
      s.pending = [] ∧ s.pendingIds = {0} ∧
      CallStep {0} s s' ∧ s'.phase = .panicked := by
  let start : State ℕ ℕ := State.init fun _ => none
  have hnone : start.pending = [] := rfl
  let noted : State ℕ ℕ := { start with next := 1, pendingIds := {0}, phase := .failed }
  have hfail : FailStep {0} start noted :=
    .setUp 0 rfl (Finset.mem_singleton_self 0) rfl (by simp [hnone])
  let resumed : State ℕ ℕ := { noted with phase := .idle, resumed := true }
  have hresumed : resumed.pending = [] := rfl
  have hresume : Step {0} noted resumed := .resume rfl
  refine ⟨resumed, resumed.startDownload 0 2, ?_, rfl, rfl, rfl, ?_, rfl⟩
  · exact .tail (.single (.fail hfail)) hresume
  · exact .download 2 rfl (Finset.mem_singleton_self 0) rfl (by simp [hresumed])

end Cargo.Core.Downloads
