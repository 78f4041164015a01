import Cargo.Core.Downloads
import Mathlib.Data.List.Nodup

/-!
# Invariants of parallel downloads

Every download in progress has one transfer of its own, whose bytes are its data. A transfer
that has ended is known by a message of curl or by a result that was not handled yet, and by one
of them only, so each result finds its download.

## Main definitions

* `State.collected`, `State.inHand` — results not handled yet, and the download that is finished
* `Books` — the downloads in progress, their transfers and the results
* `Inv` — the books are in order, and every package that was queued is accounted for

## Main results

* `Inv.step` — a step keeps the invariant, or reports an error
-/

set_option autoImplicit false

namespace Cargo.Core.Downloads

variable {I Pkg : Type}

/-- The results that were not handled yet, the one at hand included. -/
def State.collected (s : State I Pkg) : List (ℕ × Except CurlError Unit) :=
  match s.phase with
  | .processing token result => s.results ++ [(token, result)]
  | _ => s.results

/-- The download that is about to be finished, with its bytes. -/
def State.inHand (s : State I Pkg) : List (Download I × List UInt8) :=
  match s.phase with
  | .finishing dl data => [(dl, data)]
  | _ => []

/-- Bytes of a package are those that were written in a transfer for it, which succeeded. -/
def FromTransfer (attempts : List (Attempt I)) (id : I) (data : List UInt8) (handle : ℕ) : Prop :=
  ∃ a, attempts[handle]? = some a ∧ a.id = id ∧ a.written = data ∧ a.Succeeded

theorem verdict_eq_ok_iff {timedOut : Bool} {result : Except CurlError Unit} {code : ℕ} :
    verdict timedOut result code = .ok () ↔ result = .ok () ∧ (code = 200 ∨ code = 0) := by
  cases result with
  | error e => cases e <;> simp [verdict]
  | ok u =>
    simp only [verdict, true_and]
    split
    · rename_i hcode
      simp [hcode]
    · rename_i hcode
      simpa [or_iff_not_imp_left] using hcode

/-- The downloads in progress, their transfers and the results. -/
structure Books [DecidableEq I] (packages : Finset I) (s : State I Pkg) : Prop where
  tokens : (s.pending.map Download.token).Nodup
  tokens_lt : ∀ dl ∈ s.pending, dl.token < s.next
  ids : (s.pending.map Download.id).Nodup
  pendingIds : s.pendingIds = (s.pending.map Download.id).toFinset
  transfer : ∀ dl ∈ s.pending, ∃ a, s.attempts[dl.handle]? = some a ∧ a.id = dl.id ∧
    a.token = dl.token ∧ a.written = dl.data
  multi : ∀ h, h ∈ s.multi ↔ ∃ dl ∈ s.pending, dl.handle = h
  messages : s.messages.Nodup ∧ ∀ h ∈ s.messages, h ∈ s.multi ∧
    ∃ a d, s.attempts[h]? = some a ∧ a.done = some d
  collected : (s.collected.map Prod.fst).Nodup ∧ ∀ e ∈ s.collected, ∃ dl ∈ s.pending,
    dl.token = e.1 ∧ dl.handle ∉ s.messages ∧
      ∃ a d, s.attempts[dl.handle]? = some a ∧ a.done = some d ∧ d.result = e.2
  /-- What has ended was reported by curl, or will be. -/
  ended : ∀ dl ∈ s.pending, ∀ a, s.attempts[dl.handle]? = some a → a.done ≠ none →
    dl.handle ∈ s.messages ∨ dl.token ∈ s.collected.map Prod.fst
  slots : ∀ dl ∈ s.pending, dl.id ∈ packages ∧ s.slots dl.id = none
  hand : ∀ e ∈ s.inHand, e.1.id ∈ packages ∧ s.slots e.1.id = none ∧
    e.1.id ∉ s.pending.map Download.id ∧ FromTransfer s.attempts e.1.id e.2 e.1.handle
  returned : ∀ id ∈ s.returned, s.slots id ≠ none
  finished : s.finished.map Prod.fst = s.returned ∧
    ∀ e ∈ s.finished, FromTransfer s.attempts e.1 e.2.1 e.2.2
  succeeded : ∀ h a, s.attempts[h]? = some a → a.Succeeded →
    (∃ dl ∈ s.pending, dl.handle = h) ∨ (∃ e ∈ s.inHand, e.1.handle = h) ∨
      ∃ e ∈ s.finished, e.2.2 = h

theorem books_init [DecidableEq I] (packages : Finset I) (slots : I → Option Pkg) :
    Books packages (State.init slots) := by
  constructor <;> simp [State.init, State.collected, State.inHand]

namespace Books

variable [DecidableEq I] {packages : Finset I} {s : State I Pkg}

theorem eq_of_token (h : Books packages s) {dl dl' : Download I} (hdl : dl ∈ s.pending)
    (hdl' : dl' ∈ s.pending) (heq : dl.token = dl'.token) : dl = dl' :=
  List.inj_on_of_nodup_map h.tokens hdl hdl' heq

theorem eq_of_id (h : Books packages s) {dl dl' : Download I} (hdl : dl ∈ s.pending)
    (hdl' : dl' ∈ s.pending) (heq : dl.id = dl'.id) : dl = dl' :=
  List.inj_on_of_nodup_map h.ids hdl hdl' heq

/-- A transfer belongs to one download. -/
theorem eq_of_handle (h : Books packages s) {dl dl' : Download I} (hdl : dl ∈ s.pending)
    (hdl' : dl' ∈ s.pending) (heq : dl.handle = dl'.handle) : dl = dl' := by
  obtain ⟨a, ha, -, htoken, -⟩ := h.transfer dl hdl
  obtain ⟨a', ha', -, htoken', -⟩ := h.transfer dl' hdl'
  rw [heq, ha', Option.some.injEq] at ha
  subst ha
  exact h.eq_of_token hdl hdl' (htoken.symm.trans htoken')

/-- A token finds its download. -/
theorem download?_eq (h : Books packages s) {dl : Download I} (hdl : dl ∈ s.pending) :
    s.download? dl.token = some dl := by
  rw [State.download?]
  cases hfind : s.pending.find? fun other => other.token = dl.token with
  | none =>
    have := List.find?_eq_none.mp hfind dl hdl
    simp at this
  | some other =>
    have htoken : other.token = dl.token := by simpa using List.find?_some hfind
    rw [h.eq_of_token (List.mem_of_find?_eq_some hfind) hdl htoken]

/-- The download of a transfer that was added. -/
theorem exists_download (h : Books packages s) {handle : ℕ} {a : Attempt I}
    (hmulti : handle ∈ s.multi) (ha : s.attempts[handle]? = some a) :
    ∃ dl ∈ s.pending, dl.handle = handle ∧ dl.id = a.id ∧ dl.token = a.token ∧
      dl.data = a.written := by
  obtain ⟨dl, hdl, rfl⟩ := (h.multi handle).mp hmulti
  obtain ⟨a', ha', hid, htoken, hdata⟩ := h.transfer dl hdl
  rw [ha, Option.some.injEq] at ha'
  subst ha'
  exact ⟨dl, hdl, rfl, hid.symm, htoken.symm, hdata.symm⟩

/-- A transfer whose bytes were handed on was taken out. -/
theorem notMem_multi_of_finished (h : Books packages s) {e : I × List UInt8 × ℕ}
    (he : e ∈ s.finished) : e.2.2 ∉ s.multi := by
  intro hmulti
  obtain ⟨a, ha, hid, -⟩ := h.finished.2 e he
  obtain ⟨dl, hdl, -, hdlid, -⟩ := h.exists_download hmulti ha
  have hreturned : e.1 ∈ s.returned := by
    rw [← h.finished.1]
    exact List.mem_map_of_mem he
  have hslot := (h.slots dl hdl).2
  rw [hdlid, hid] at hslot
  exact h.returned e.1 hreturned hslot

/-! ### While curl performs -/

omit [DecidableEq I] in
theorem collected_of_performing (hphase : s.phase = .performing) : s.collected = s.results := by
  rw [State.collected, hphase]

omit [DecidableEq I] in
theorem inHand_of_performing (hphase : s.phase = .performing) : s.inHand = [] := by
  rw [State.inHand, hphase]

/-- What curl tells a download in progress changes neither its token nor its package, nor its
transfer, and what curl keeps of a transfer changes only for one that was added. -/
theorem modify (h : Books packages s) (hphase : s.phase = .performing) {token : ℕ}
    {f : Download I → Download I} {attempts : List (Attempt I)}
    (hf : ∀ dl, (f dl).token = dl.token ∧ (f dl).id = dl.id ∧ (f dl).handle = dl.handle)
    (hsame : ∀ i : ℕ, (attempts[i]?).map (fun a => (a.id, a.token, a.done)) =
      (s.attempts[i]?).map fun a => (a.id, a.token, a.done))
    (hwritten : ∀ dl ∈ s.pending, ∀ a, attempts[dl.handle]? = some a →
      a.written = (if dl.token = token then f dl else dl).data)
    (hold : ∀ i : ℕ, i ∉ s.multi → attempts[i]? = s.attempts[i]?) :
    Books packages ({ s with attempts }.modify token f) := by
  -- the pending downloads are mapped by `g`; attempts keep all that the clauses ask for
  let g := fun dl : Download I => if dl.token = token then f dl else dl
  have hg : ∀ dl, (g dl).token = dl.token ∧ (g dl).id = dl.id ∧ (g dl).handle = dl.handle := by
    intro dl
    by_cases hdl : dl.token = token
    · simp only [g, if_pos hdl]
      exact hf dl
    · simp only [g, if_neg hdl, and_self]
  have hmem : ∀ dl ∈ s.pending.map g, ∃ dl₀ ∈ s.pending, g dl₀ = dl := fun dl hdl =>
    List.mem_map.mp hdl
  have htokens : (s.pending.map g).map Download.token = s.pending.map Download.token := by
    rw [List.map_map]
    exact List.map_congr_left fun dl _ => (hg dl).1
  have hids : (s.pending.map g).map Download.id = s.pending.map Download.id := by
    rw [List.map_map]
    exact List.map_congr_left fun dl _ => (hg dl).2.1
  have hnext : ∀ (i : ℕ) (a : Attempt I), s.attempts[i]? = some a → ∃ a', attempts[i]? = some a' ∧
      a'.id = a.id ∧ a'.token = a.token ∧ a'.done = a.done := by
    intro i a ha
    have hi := hsame i
    rw [ha, Option.map_some, Option.map_eq_some_iff] at hi
    obtain ⟨a', ha', heq⟩ := hi
    rw [Prod.mk.injEq, Prod.mk.injEq] at heq
    exact ⟨a', ha', heq⟩
  have hprev : ∀ (i : ℕ) (a : Attempt I), attempts[i]? = some a → ∃ a', s.attempts[i]? = some a' ∧
      a'.done = a.done := by
    intro i a ha
    have hi := (hsame i).symm
    rw [ha, Option.map_some, Option.map_eq_some_iff] at hi
    obtain ⟨a', ha', heq⟩ := hi
    rw [Prod.mk.injEq, Prod.mk.injEq] at heq
    exact ⟨a', ha', heq.2.2⟩
  have hcollected : ({ s with attempts }.modify token f).collected = s.collected := by
    simp [State.collected, State.modify, hphase]
  have hinHand : ({ s with attempts }.modify token f).inHand = s.inHand := by
    simp [State.inHand, State.modify, hphase]
  constructor
  · exact htokens.symm ▸ h.tokens
  · intro dl hdl
    obtain ⟨dl₀, hdl₀, rfl⟩ := hmem dl hdl
    rw [(hg dl₀).1]
    exact h.tokens_lt dl₀ hdl₀
  · exact hids.symm ▸ h.ids
  · exact h.pendingIds.trans (congrArg List.toFinset hids.symm)
  · intro dl hdl
    obtain ⟨dl₀, hdl₀, rfl⟩ := hmem dl hdl
    obtain ⟨a, ha, hid, htoken, -⟩ := h.transfer dl₀ hdl₀
    obtain ⟨a', ha', hid', htoken', -⟩ := hnext _ a ha
    rw [(hg dl₀).1, (hg dl₀).2.1, (hg dl₀).2.2]
    exact ⟨a', ha', hid'.trans hid, htoken'.trans htoken, hwritten dl₀ hdl₀ a' ha'⟩
  · intro i
    refine (h.multi i).trans ⟨?_, ?_⟩
    · rintro ⟨dl, hdl, rfl⟩
      exact ⟨g dl, List.mem_map_of_mem hdl, (hg dl).2.2⟩
    · rintro ⟨dl, hdl, rfl⟩
      obtain ⟨dl₀, hdl₀, rfl⟩ := hmem dl hdl
      exact ⟨dl₀, hdl₀, (hg dl₀).2.2.symm⟩
  · refine ⟨h.messages.1, fun i hi => ?_⟩
    obtain ⟨hmulti, a, d, ha, hd⟩ := h.messages.2 i hi
    obtain ⟨a', ha', -, -, hdone⟩ := hnext i a ha
    exact ⟨hmulti, a', d, ha', hdone.trans hd⟩
  · rw [hcollected]
    refine ⟨h.collected.1, fun e he => ?_⟩
    obtain ⟨dl, hdl, htoken, hmessages, a, d, ha, hd, hresult⟩ := h.collected.2 e he
    obtain ⟨a', ha', -, -, hdone⟩ := hnext _ a ha
    refine ⟨g dl, List.mem_map_of_mem hdl, (hg dl).1.trans htoken, ?_, ?_⟩
    · rw [(hg dl).2.2]
      exact hmessages
    · rw [(hg dl).2.2]
      exact ⟨a', d, ha', hdone.trans hd, hresult⟩
  · intro dl hdl a ha hdone
    obtain ⟨dl₀, hdl₀, rfl⟩ := hmem dl hdl
    rw [(hg dl₀).2.2] at ha ⊢
    rw [(hg dl₀).1, hcollected]
    obtain ⟨a', ha', hdone'⟩ := hprev _ a ha
    exact h.ended dl₀ hdl₀ a' ha' (hdone' ▸ hdone)
  · intro dl hdl
    obtain ⟨dl₀, hdl₀, rfl⟩ := hmem dl hdl
    rw [(hg dl₀).2.1]
    exact h.slots dl₀ hdl₀
  · rw [hinHand, inHand_of_performing hphase]
    simp
  · exact h.returned
  · refine ⟨h.finished.1, fun e he => ?_⟩
    obtain ⟨a, ha, hrest⟩ := h.finished.2 e he
    exact ⟨a, (hold _ (h.notMem_multi_of_finished he)).trans ha, hrest⟩
  · intro i a ha hsucceeded
    obtain ⟨a', ha', hdone⟩ := hprev i a ha
    have hsucceeded' : a'.Succeeded := by
      obtain ⟨code, hcode, hok⟩ := hsucceeded
      exact ⟨code, hdone.trans hcode, hok⟩
    rw [hinHand]
    rcases h.succeeded i a' ha' hsucceeded' with ⟨dl, hdl, rfl⟩ | hhand | hfinished
    · exact .inl ⟨g dl, List.mem_map_of_mem hdl, (hg dl).2.2⟩
    · exact .inr (.inl hhand)
    · exact .inr (.inr hfinished)

/-- The callback for bytes finds its download. -/
theorem writeFunction_eq (h : Books packages s) {handle : ℕ} {a : Attempt I}
    (hmulti : handle ∈ s.multi) (ha : s.attempts[handle]? = some a) (bytes : List UInt8)
    (attempts : List (Attempt I)) :
    State.writeFunction { s with attempts } a.token bytes =
      State.modify { s with attempts } a.token fun dl => { dl with data := dl.data ++ bytes } := by
  obtain ⟨dl, hdl, rfl, -, htoken, -⟩ := h.exists_download hmulti ha
  have hfind : State.download? { s with attempts } a.token = some dl := by
    rw [← htoken]
    exact h.download?_eq hdl
  rw [State.writeFunction, hfind]

/-- The callback for progress finds its download. -/
theorem progressFunction_eq (h : Books packages s) {handle : ℕ} {a : Attempt I}
    (hmulti : handle ∈ s.multi) (ha : s.attempts[handle]? = some a) (timedOut : Bool) :
    s.progressFunction a.token timedOut =
      s.modify a.token fun dl => { dl with timedOut := dl.timedOut || timedOut } := by
  obtain ⟨dl, hdl, rfl, -, htoken, -⟩ := h.exists_download hmulti ha
  rw [State.progressFunction, ← htoken, h.download?_eq hdl]

/-- Bytes that are written for a transfer are added to the data of its download. -/
theorem write (h : Books packages s) {handle : ℕ} {a : Attempt I} (hphase : s.phase = .performing)
    (hmulti : handle ∈ s.multi) (ha : s.attempts[handle]? = some a) (bytes : List UInt8) :
    Books packages (State.writeFunction { s with
      attempts := s.attempts.set handle { a with written := a.written ++ bytes } }
        a.token bytes) := by
  rw [h.writeFunction_eq hmulti ha]
  obtain ⟨dl, hdl, rfl, -, htoken, hdata⟩ := h.exists_download hmulti ha
  have hget : ∀ i : ℕ, i ≠ dl.handle →
      (s.attempts.set dl.handle { a with written := a.written ++ bytes })[i]? =
        s.attempts[i]? := fun i hi => List.getElem?_set_ne (Ne.symm hi)
  have hself : (s.attempts.set dl.handle { a with written := a.written ++ bytes })[dl.handle]? =
      some { a with written := a.written ++ bytes } := by grind
  apply h.modify hphase
  · exact fun _ => ⟨rfl, rfl, rfl⟩
  · intro i
    by_cases hi : i = dl.handle
    · rw [hi, hself, ha]
      rfl
    · rw [hget i hi]
  · intro dl' hdl' a' ha'
    by_cases heq : dl' = dl
    · subst heq
      rw [hself, Option.some.injEq] at ha'
      rw [if_pos htoken, ← ha', hdata]
    · rw [hget _ fun hhandle => heq (h.eq_of_handle hdl' hdl hhandle)] at ha'
      obtain ⟨a₀, ha₀, -, -, hwritten⟩ := h.transfer dl' hdl'
      rw [ha', Option.some.injEq] at ha₀
      rw [if_neg fun htoken' => heq (h.eq_of_token hdl' hdl (htoken'.trans htoken.symm)), ha₀]
      exact hwritten
  · intro i hi
    exact hget i fun heq => hi (heq ▸ hmulti)

/-- Progress of a transfer is noted for its download. -/
theorem progress (h : Books packages s) {handle : ℕ} {a : Attempt I}
    (hphase : s.phase = .performing)
    (hmulti : handle ∈ s.multi) (ha : s.attempts[handle]? = some a) (timedOut : Bool) :
    Books packages (s.progressFunction a.token timedOut) := by
  rw [h.progressFunction_eq hmulti ha]
  apply h.modify hphase
  · exact fun _ => ⟨rfl, rfl, rfl⟩
  · exact fun _ => rfl
  · intro dl' hdl' a' ha'
    obtain ⟨a₀, ha₀, -, -, hwritten⟩ := h.transfer dl' hdl'
    rw [ha', Option.some.injEq] at ha₀
    rw [ha₀, hwritten]
    split <;> rfl
  · exact fun _ _ => rfl

/-- A transfer ends. -/
theorem complete (h : Books packages s) {handle : ℕ} {s' : State I Pkg}
    (hstep : Completes handle s s') : Books packages s' := by
  obtain ⟨hphase, hmulti, ha, hopen, d⟩ := hstep
  rename_i a
  have hget : ∀ i : ℕ, i ≠ handle → (s.attempts.set handle { a with done := some d })[i]? =
      s.attempts[i]? := fun i hi => List.getElem?_set_ne (Ne.symm hi)
  have hself : (s.attempts.set handle { a with done := some d })[handle]? =
      some { a with done := some d } := by grind
  -- a transfer that had ended before is another one
  have hne : ∀ (i : ℕ) (a' : Attempt I) (d' : Done), s.attempts[i]? = some a' →
      a'.done = some d' → i ≠ handle := by
    rintro i a' d' ha' hd' rfl
    rw [ha, Option.some.injEq] at ha'
    rw [ha', hd'] at hopen
    cases hopen
  obtain ⟨dl, hdl, hhandle, -⟩ := h.exists_download hmulti ha
  have hcollected := h.collected
  have hended := h.ended
  rw [collected_of_performing hphase] at hcollected hended
  refine { h with
    transfer := ?_, messages := ?_, collected := ?_, ended := ?_, hand := ?_, finished := ?_
    succeeded := ?_ }
  · intro dl' hdl'
    obtain ⟨a', ha', hid, htoken, hwritten⟩ := h.transfer dl' hdl'
    by_cases hi : dl'.handle = handle
    · rw [hi, ha, Option.some.injEq] at ha'
      subst ha'
      refine ⟨{ a with done := some d }, ?_, hid, htoken, hwritten⟩
      rw [hi]
      exact hself
    · exact ⟨a', (hget _ hi).trans ha', hid, htoken, hwritten⟩
  · refine ⟨?_, ?_⟩
    · apply h.messages.1.append (List.nodup_singleton handle)
      intro i hi hi'
      obtain ⟨-, a', d', ha', hd'⟩ := h.messages.2 i hi
      exact hne i a' d' ha' hd' (List.mem_singleton.mp hi')
    · intro i hi
      rcases List.mem_append.mp hi with hi | hi
      · obtain ⟨hmulti', a', d', ha', hd'⟩ := h.messages.2 i hi
        exact ⟨hmulti', a', d', (hget i (hne i a' d' ha' hd')).trans ha', hd'⟩
      · rw [List.mem_singleton.mp hi]
        exact ⟨hmulti, _, d, hself, rfl⟩
  · refine ⟨?_, ?_⟩
    · simpa [State.collected, hphase] using hcollected.1
    · intro e he
      have he' : e ∈ s.results := by simpa [State.collected, hphase] using he
      obtain ⟨dl', hdl', htoken, hmessages, a', d', ha', hd', hresult⟩ := hcollected.2 e he'
      have hi := hne _ a' d' ha' hd'
      exact ⟨dl', hdl', htoken, by simp [hmessages, hi], a', d', (hget _ hi).trans ha', hd',
        hresult⟩
  · intro dl' hdl' a' ha' hdone
    by_cases hi : dl'.handle = handle
    · exact .inl (by simp [hi])
    · have ha₀ : s.attempts[dl'.handle]? = some a' := (hget _ hi).symm.trans ha'
      rcases hended dl' hdl' a' ha₀ hdone with hmessages | htoken
      · exact .inl (List.mem_append_left _ hmessages)
      · exact .inr (by simpa [State.collected, hphase] using htoken)
  · intro e he
    simp [State.inHand, hphase] at he
  · refine ⟨h.finished.1, fun e he => ?_⟩
    obtain ⟨a', ha', hrest⟩ := h.finished.2 e he
    have hi : e.2.2 ≠ handle := fun heq => h.notMem_multi_of_finished he (heq ▸ hmulti)
    exact ⟨a', (hget _ hi).trans ha', hrest⟩
  · intro i a' ha' hsucceeded
    by_cases hi : i = handle
    · exact .inl ⟨dl, hdl, hhandle.trans hi.symm⟩
    · have ha₀ : s.attempts[i]? = some a' := (hget _ hi).symm.trans ha'
      simpa [State.inHand, hphase] using h.succeeded i a' ha₀ hsucceeded

/-- What curl says of a transfer that has ended: its token and its result. -/
def messageOf (attempts : List (Attempt I)) (handle : ℕ) : ℕ × Except CurlError Unit :=
  ((attempts[handle]?).elim 0 Attempt.token,
    ((attempts[handle]?).bind Attempt.done).elim (.ok ()) Done.result)

/-- A message finds its download. -/
theorem readMessage_eq (h : Books packages s) {handle : ℕ} (hmessage : handle ∈ s.messages) :
    s.readMessage handle = some [messageOf s.attempts handle] := by
  obtain ⟨hmulti, a, d, ha, hd⟩ := h.messages.2 handle hmessage
  obtain ⟨dl, hdl, hhandle, -, htoken, -⟩ := h.exists_download hmulti ha
  rw [State.readMessage, ha, Option.bind_some, ← htoken, h.download?_eq hdl, Option.map_some,
    if_pos hhandle]
  simp [messageOf, ha, hd, htoken]

/-- All messages are read. -/
theorem readMessages_eq (h : Books packages s) :
    s.messages.mapM s.readMessage =
      some (s.messages.map fun handle => [messageOf s.attempts handle]) := by
  have hall : ∀ l : List ℕ, (∀ handle ∈ l, handle ∈ s.messages) →
      l.mapM s.readMessage = some (l.map fun handle => [messageOf s.attempts handle]) := by
    intro l hl
    induction l with
    | nil => rfl
    | cons handle l ih =>
      rw [List.mapM_cons, h.readMessage_eq (hl handle List.mem_cons_self),
        ih fun i hi => hl i (List.mem_cons_of_mem _ hi)]
      rfl
  exact hall s.messages fun _ hi => hi

/-- The messages add results for other downloads than those with a result, one for each. -/
theorem results_append (h : Books packages s) (hphase : s.phase = .performing) :
    ((s.results ++ s.messages.map (messageOf s.attempts)).map Prod.fst).Nodup ∧
      ∀ e ∈ s.results ++ s.messages.map (messageOf s.attempts), ∃ dl ∈ s.pending,
        dl.token = e.1 ∧
          ∃ a d, s.attempts[dl.handle]? = some a ∧ a.done = some d ∧ d.result = e.2 := by
  have hcollected := h.collected
  rw [collected_of_performing hphase] at hcollected
  have hmessage : ∀ i ∈ s.messages, ∃ dl ∈ s.pending, dl.handle = i ∧
      dl.token = (messageOf s.attempts i).1 ∧
        ∃ a d, s.attempts[dl.handle]? = some a ∧ a.done = some d ∧
          d.result = (messageOf s.attempts i).2 := by
    intro i hi
    obtain ⟨hmulti, a, d, ha, hd⟩ := h.messages.2 i hi
    obtain ⟨dl, hdl, rfl, -, htoken, -⟩ := h.exists_download hmulti ha
    exact ⟨dl, hdl, rfl, by simp [messageOf, ha, htoken], a, d, ha, hd, by simp [messageOf, ha, hd]⟩
  refine ⟨?_, ?_⟩
  · rw [List.map_append, List.map_map]
    refine hcollected.1.append ?_ ?_
    · apply h.messages.1.map_on
      intro i hi j hj heq
      obtain ⟨dl, hdl, hdli, htoken, -⟩ := hmessage i hi
      obtain ⟨dl', hdl', hdlj, htoken', -⟩ := hmessage j hj
      have hsame := h.eq_of_token hdl hdl' (htoken.trans (heq.trans htoken'.symm))
      rw [← hdli, ← hdlj, hsame]
    -- the message of a collected result has been taken, those that are added had not been
    · intro token htoken htoken'
      obtain ⟨e, he, rfl⟩ := List.mem_map.mp htoken
      obtain ⟨i, hi, heq⟩ := List.mem_map.mp htoken'
      obtain ⟨dl, hdl, hdle, hnot, -⟩ := hcollected.2 e he
      obtain ⟨dl', hdl', hdli, hdli', -⟩ := hmessage i hi
      have hsame := h.eq_of_token hdl hdl' (hdle.trans (heq.symm.trans hdli'.symm))
      rw [hsame, hdli] at hnot
      exact hnot hi
  · intro e he
    rcases List.mem_append.mp he with he | he
    · obtain ⟨dl, hdl, htoken, -, hrest⟩ := hcollected.2 e he
      exact ⟨dl, hdl, htoken, hrest⟩
    · obtain ⟨i, hi, rfl⟩ := List.mem_map.mp he
      obtain ⟨dl, hdl, -, htoken, hrest⟩ := hmessage i hi
      exact ⟨dl, hdl, htoken, hrest⟩

/-- The messages are read into the results, and one of the results may be taken. -/
theorem collect (h : Books packages s) (hphase : s.phase = .performing)
    {results : List (ℕ × Except CurlError Unit)} {phase : Phase I}
    (hcollected : State.collected { s with messages := [], results, phase } =
      s.results ++ s.messages.map (messageOf s.attempts))
    (hinHand : State.inHand { s with messages := [], results, phase } = []) :
    Books packages { s with messages := [], results, phase } := by
  obtain ⟨hnodup, hresults⟩ := h.results_append hphase
  have hended := h.ended
  have hsucceeded := h.succeeded
  rw [collected_of_performing hphase] at hended
  rw [inHand_of_performing hphase] at hsucceeded
  refine { h with
    messages := ⟨List.nodup_nil, by simp⟩, collected := ?_, ended := ?_, hand := ?_
    succeeded := ?_ }
  · rw [hcollected]
    refine ⟨hnodup, fun e he => ?_⟩
    obtain ⟨dl, hdl, htoken, hrest⟩ := hresults e he
    exact ⟨dl, hdl, htoken, List.not_mem_nil, hrest⟩
  · intro dl hdl a ha hdone
    right
    rw [hcollected, List.map_append, List.mem_append]
    rcases hended dl hdl a ha hdone with hmessage | htoken
    · right
      obtain ⟨a', ha', -, htoken, -⟩ := h.transfer dl hdl
      rw [List.map_map]
      refine List.mem_map.mpr ⟨dl.handle, hmessage, ?_⟩
      simp [messageOf, ha', htoken]
    · exact .inl htoken
  · rw [hinHand]
    simp
  · rw [hinHand]
    exact hsucceeded

/-- Curl is asked for what has ended. -/
theorem waitForCurl (h : Books packages s) (hphase : s.phase = .performing)
    (hbusy : s.pending ≠ []) :
    Books packages s.waitForCurl ∧ s.waitForCurl.pending = s.pending ∧
      ((s.waitForCurl.phase = .performing ∧ s.messages = [] ∧ s.results = []) ∨
        ∃ token result, s.waitForCurl.phase = .processing token result) := by
  have hflat : (s.messages.map fun handle => [messageOf s.attempts handle]).flatten =
      s.messages.map (messageOf s.attempts) := by
    induction s.messages with
    | nil => rfl
    | cons handle l ih => simpa using ih
  rw [State.waitForCurl, h.readMessages_eq]
  simp only [hflat]
  cases hlast : (s.results ++ s.messages.map (messageOf s.attempts)).getLast? with
  | none =>
    have hnil := List.getLast?_eq_none_iff.mp hlast
    have hnil' := List.append_eq_nil_iff.mp hnil
    refine ⟨?_, rfl, .inl ⟨?_, by simpa using hnil'.2, hnil'.1⟩⟩
    · apply h.collect hphase
      · simp [State.collected, hphase, hbusy]
      · simp [State.inHand, hphase, hbusy]
    · simp [hbusy, hphase]
  | some e =>
    refine ⟨?_, rfl, .inr ⟨e.1, e.2, rfl⟩⟩
    apply h.collect hphase
    · have hne : s.results ++ s.messages.map (messageOf s.attempts) ≠ [] := by
        intro hnil
        rw [hnil] at hlast
        cases hlast
      rw [List.getLast?_eq_some_getLast hne, Option.some.injEq] at hlast
      rw [← hlast]
      exact List.dropLast_append_getLast hne
    · rfl

/-! ### After a transfer has ended -/

/-- The number of packages is that of the downloads. -/
theorem length_eq_card (h : Books packages s) : s.pending.length = s.pendingIds.card := by
  rw [h.pendingIds, List.toFinset_card_of_nodup h.ids, List.length_map]

/-- The caller goes on without a result or a download in hand. -/
theorem setPhase (h : Books packages s) {phase : Phase I}
    (hcollected : State.collected { s with phase } = s.collected)
    (hinHand : State.inHand { s with phase } = s.inHand) : Books packages { s with phase } := by
  refine { h with collected := ?_, ended := ?_, hand := ?_, succeeded := ?_ }
  · exact hcollected.symm ▸ h.collected
  · exact hcollected.symm ▸ h.ended
  · exact hinHand.symm ▸ h.hand
  · exact hinHand.symm ▸ h.succeeded

/-- The other downloads stay. -/
theorem mem_remove (h : Books packages s) {dl dl' : Download I} (hdl : dl ∈ s.pending) :
    dl' ∈ (s.remove dl).pending ↔ dl' ∈ s.pending ∧ dl' ≠ dl := by
  rw [State.remove, List.mem_filter, decide_eq_true_eq]
  constructor
  · rintro ⟨hdl', hne⟩
    exact ⟨hdl', fun heq => hne (heq ▸ rfl)⟩
  · rintro ⟨hdl', hne⟩
    exact ⟨hdl', fun heq => hne (h.eq_of_token hdl' hdl heq)⟩

theorem id_notMem_remove (h : Books packages s) {dl : Download I} (hdl : dl ∈ s.pending) :
    dl.id ∉ (s.remove dl).pending.map Download.id := by
  intro hid
  obtain ⟨dl', hdl', heq⟩ := List.mem_map.mp hid
  obtain ⟨hdl', hne⟩ := (h.mem_remove hdl).mp hdl'
  exact hne (h.eq_of_id hdl' hdl heq)

/-- A download, and the others. -/
theorem perm_remove (h : Books packages s) {dl : Download I} (hdl : dl ∈ s.pending) :
    s.pending.Perm ((s.remove dl).pending ++ [dl]) := by
  have hsub : (s.remove dl).pending.Sublist s.pending := List.filter_sublist
  have hnodup : s.pending.Nodup := List.Nodup.of_map _ h.tokens
  have hnodup' : ((s.remove dl).pending ++ [dl]).Nodup := by
    apply (hsub.nodup hnodup).append (List.nodup_singleton _)
    intro dl' hdl' heq
    exact ((h.mem_remove hdl).mp hdl').2 (List.mem_singleton.mp heq)
  rw [List.perm_ext_iff_of_nodup hnodup hnodup']
  intro dl'
  rw [List.mem_append, List.mem_singleton, h.mem_remove hdl]
  constructor
  · intro hdl'
    by_cases heq : dl' = dl
    · exact .inr heq
    · exact .inl ⟨hdl', heq⟩
  · rintro (⟨hdl', -⟩ | rfl)
    · exact hdl'
    · exact hdl

/-- The package of a download, and those of the others. -/
theorem perm_ids_remove (h : Books packages s) {dl : Download I} (hdl : dl ∈ s.pending) :
    (s.pending.map Download.id).Perm ((s.remove dl).pending.map Download.id ++ [dl.id]) := by
  have hperm := (h.perm_remove hdl).map Download.id
  rw [List.map_append] at hperm
  exact hperm

/-- The download of a result is taken out, and is in hand if its transfer succeeded. -/
theorem remove (h : Books packages s) {token : ℕ} {result : Except CurlError Unit}
    (hphase : s.phase = .processing token result) {dl : Download I} (hdl : dl ∈ s.pending)
    (htoken : dl.token = token) {phase : Phase I}
    (hcollected : State.collected { s.remove dl with phase } = s.results)
    (hinHand : ∀ e ∈ State.inHand { s.remove dl with phase }, e = (dl, dl.data) ∧
      FromTransfer s.attempts dl.id dl.data dl.handle)
    (hsucceeded : ∀ a, s.attempts[dl.handle]? = some a → a.Succeeded →
      (dl, dl.data) ∈ State.inHand { s.remove dl with phase }) :
    Books packages { s.remove dl with phase } := by
  have hall : s.collected = s.results ++ [(token, result)] := by rw [State.collected, hphase]
  have hnone : s.inHand = [] := by rw [State.inHand, hphase]
  have hcoll := h.collected
  rw [hall] at hcoll
  have hmem : ∀ dl', dl' ∈ (s.remove dl).pending ↔ dl' ∈ s.pending ∧ dl' ≠ dl :=
    fun dl' => h.mem_remove hdl
  have hsub : (s.remove dl).pending.Sublist s.pending := List.filter_sublist
  have hnotMem := h.id_notMem_remove hdl
  -- the result at hand is the only one for this download
  have htokens : dl.token ∉ s.results.map Prod.fst := by
    rw [htoken]
    have hnodup := hcoll.1
    rw [List.map_append, List.map_singleton, List.nodup_append] at hnodup
    intro hmem'
    exact hnodup.2.2 token hmem' token (List.mem_singleton_self token) rfl
  constructor
  · exact (hsub.map _).nodup h.tokens
  · exact fun dl' hdl' => h.tokens_lt dl' ((hmem dl').mp hdl').1
  · exact (hsub.map _).nodup h.ids
  · ext id
    change id ∈ s.pendingIds.erase dl.id ↔ _
    rw [Finset.mem_erase, h.pendingIds, List.mem_toFinset, List.mem_toFinset]
    constructor
    · rintro ⟨hne, hid⟩
      obtain ⟨dl', hdl', rfl⟩ := List.mem_map.mp hid
      exact List.mem_map_of_mem ((hmem dl').mpr ⟨hdl', fun heq => hne (heq ▸ rfl)⟩)
    · intro hid
      obtain ⟨dl', hdl', rfl⟩ := List.mem_map.mp hid
      refine ⟨fun heq => hnotMem (heq ▸ hid), ?_⟩
      exact List.mem_map_of_mem ((hmem dl').mp hdl').1
  · exact fun dl' hdl' => h.transfer dl' ((hmem dl').mp hdl').1
  · intro i
    change i ∈ s.multi.erase dl.handle ↔ _
    rw [Finset.mem_erase, h.multi]
    constructor
    · rintro ⟨hne, dl', hdl', rfl⟩
      exact ⟨dl', (hmem dl').mpr ⟨hdl', fun heq => hne (heq ▸ rfl)⟩, rfl⟩
    · rintro ⟨dl', hdl', rfl⟩
      obtain ⟨hdl', hne⟩ := (hmem dl').mp hdl'
      exact ⟨fun heq => hne (h.eq_of_handle hdl' hdl heq), dl', hdl', rfl⟩
  · refine ⟨h.messages.1, fun i hi => ?_⟩
    obtain ⟨hmulti, hrest⟩ := h.messages.2 i hi
    refine ⟨Finset.mem_erase.mpr ⟨?_, hmulti⟩, hrest⟩
    rintro rfl
    obtain ⟨dl', hdl', htoken', hnot, -⟩ := hcoll.2 (token, result) (by simp)
    rw [h.eq_of_token hdl' hdl (htoken'.trans htoken.symm)] at hnot
    exact hnot hi
  · rw [hcollected]
    refine ⟨?_, fun e he => ?_⟩
    · have hnodup := hcoll.1
      rw [List.map_append] at hnodup
      exact hnodup.of_append_left
    · obtain ⟨dl', hdl', htoken', hrest⟩ := hcoll.2 e (List.mem_append_left _ he)
      refine ⟨dl', (hmem dl').mpr ⟨hdl', ?_⟩, htoken', hrest⟩
      rintro rfl
      exact htokens (htoken' ▸ List.mem_map_of_mem he)
  · intro dl' hdl' a ha hdone
    obtain ⟨hdl', hne⟩ := (hmem dl').mp hdl'
    rw [hcollected]
    rcases h.ended dl' hdl' a ha hdone with hmessage | htoken'
    · exact .inl hmessage
    · rw [hall, List.map_append, List.mem_append] at htoken'
      refine .inr (htoken'.resolve_right fun heq => hne ?_)
      exact h.eq_of_token hdl' hdl ((List.mem_singleton.mp heq).trans htoken.symm)
  · exact fun dl' hdl' => h.slots dl' ((hmem dl').mp hdl').1
  · intro e he
    obtain ⟨rfl, hfrom⟩ := hinHand e he
    exact ⟨(h.slots dl hdl).1, (h.slots dl hdl).2, hnotMem, hfrom⟩
  · exact h.returned
  · exact h.finished
  · intro i a ha hsucc
    rcases h.succeeded i a ha hsucc with ⟨dl', hdl', rfl⟩ | ⟨e, he, -⟩ | hfinished
    · by_cases heq : dl' = dl
      · subst heq
        exact .inr (.inl ⟨_, hsucceeded a ha hsucc, rfl⟩)
      · exact .inl ⟨dl', (hmem dl').mpr ⟨hdl', heq⟩, rfl⟩
    · rw [hnone] at he
      cases he
    · exact .inr (.inr hfinished)

omit [DecidableEq I] in
theorem pending_enqueue (s : State I Pkg) (dl : Download I)
    (htoken : ∀ dl' ∈ s.pending, dl'.token ≠ dl.token) :
    (s.enqueue dl).pending =
      s.pending ++ [{ dl with timedOut := false, handle := s.attempts.length }] := by
  have hfilter : (s.pending.filter fun other => other.token ≠ dl.token) = s.pending := by
    rw [List.filter_eq_self]
    intro dl' hdl'
    exact decide_eq_true (htoken dl' hdl')
  rw [State.enqueue, hfilter]

/-- A transfer is added for a download that is not in progress. -/
theorem enqueue (h : Books packages s) (dl : Download I) {next : ℕ} (hdata : dl.data = [])
    (htoken : ∀ dl' ∈ s.pending, dl'.token ≠ dl.token) (hlt : dl.token < next)
    (hnext : s.next ≤ next) (hid : ∀ dl' ∈ s.pending, dl'.id ≠ dl.id) (hpkg : dl.id ∈ packages)
    (hslot : s.slots dl.id = none) (hhand : s.inHand = []) :
    Books packages
      ({ s with next, pendingIds := insert dl.id s.pendingIds }.enqueue dl) := by
  -- the new download is the last one, and so is its attempt; old attempts stay where they are
  let new : Download I := { dl with timedOut := false, handle := s.attempts.length }
  have hpending : ({ s with next, pendingIds := insert dl.id s.pendingIds }.enqueue dl).pending =
      s.pending ++ [new] := pending_enqueue _ dl htoken
  have hold : ∀ (i : ℕ) (a : Attempt I), s.attempts[i]? = some a →
      (s.attempts ++ [⟨dl.id, dl.token, [], none⟩])[i]? = some a := by
    intro i a ha
    rw [List.getElem?_append_left (List.getElem?_eq_some_iff.mp ha).1]
    exact ha
  have hlast : (s.attempts ++ [⟨dl.id, dl.token, [], none⟩])[s.attempts.length]? =
      some (⟨dl.id, dl.token, [], none⟩ : Attempt I) := by simp
  have hcases : ∀ (i : ℕ) (a : Attempt I),
      (s.attempts ++ [⟨dl.id, dl.token, [], none⟩])[i]? = some a →
        s.attempts[i]? = some a ∨ a.done = none := by
    intro i a ha
    rcases lt_or_ge i s.attempts.length with hi | hi
    · rw [List.getElem?_append_left hi] at ha
      exact .inl ha
    · right
      rw [List.getElem?_append_right hi] at ha
      have hmem := List.mem_of_getElem? ha
      rw [List.mem_singleton.mp hmem]
  constructor
  · rw [hpending, List.map_append]
    apply h.tokens.append (List.nodup_singleton _)
    intro t ht ht'
    obtain ⟨dl', hdl', rfl⟩ := List.mem_map.mp ht
    exact htoken dl' hdl' (List.mem_singleton.mp ht')
  · intro dl' hdl'
    rw [hpending, List.mem_append, List.mem_singleton] at hdl'
    rcases hdl' with hdl' | rfl
    · exact (h.tokens_lt dl' hdl').trans_le hnext
    · exact hlt
  · rw [hpending, List.map_append]
    apply h.ids.append (List.nodup_singleton _)
    intro t ht ht'
    obtain ⟨dl', hdl', rfl⟩ := List.mem_map.mp ht
    exact hid dl' hdl' (List.mem_singleton.mp ht')
  · rw [hpending]
    ext id
    change id ∈ insert dl.id s.pendingIds ↔ _
    simp [h.pendingIds, new, eq_comm]
  · intro dl' hdl'
    rw [hpending, List.mem_append, List.mem_singleton] at hdl'
    rcases hdl' with hdl' | rfl
    · obtain ⟨a, ha, hrest⟩ := h.transfer dl' hdl'
      exact ⟨a, hold _ a ha, hrest⟩
    · exact ⟨_, hlast, rfl, rfl, hdata.symm⟩
  · intro i
    change i ∈ insert s.attempts.length s.multi ↔ _
    rw [hpending, Finset.mem_insert, h.multi]
    constructor
    · rintro (rfl | ⟨dl', hdl', rfl⟩)
      · exact ⟨new, by simp, rfl⟩
      · exact ⟨dl', List.mem_append_left _ hdl', rfl⟩
    · rintro ⟨dl', hdl', rfl⟩
      rw [List.mem_append, List.mem_singleton] at hdl'
      rcases hdl' with hdl' | rfl
      · exact .inr ⟨dl', hdl', rfl⟩
      · exact .inl rfl
  · refine ⟨h.messages.1, fun i hi => ?_⟩
    obtain ⟨hmulti, a, d, ha, hd⟩ := h.messages.2 i hi
    exact ⟨Finset.mem_insert_of_mem hmulti, a, d, hold i a ha, hd⟩
  · refine ⟨h.collected.1, fun e he => ?_⟩
    obtain ⟨dl', hdl', htoken', hnot, a, d, ha, hrest⟩ := h.collected.2 e he
    rw [hpending]
    exact ⟨dl', List.mem_append_left _ hdl', htoken', hnot, a, d, hold _ a ha, hrest⟩
  · intro dl' hdl' a ha hdone
    rcases hcases _ a ha with ha' | hnone
    · rw [hpending, List.mem_append, List.mem_singleton] at hdl'
      rcases hdl' with hdl' | rfl
      · exact h.ended dl' hdl' a ha' hdone
      · exact absurd (List.getElem?_eq_some_iff.mp ha').1 (lt_irrefl _)
    · exact absurd hnone hdone
  · intro dl' hdl'
    rw [hpending, List.mem_append, List.mem_singleton] at hdl'
    rcases hdl' with hdl' | rfl
    · exact h.slots dl' hdl'
    · exact ⟨hpkg, hslot⟩
  · intro e he
    change e ∈ s.inHand at he
    rw [hhand] at he
    cases he
  · exact h.returned
  · refine ⟨h.finished.1, fun e he => ?_⟩
    obtain ⟨a, ha, hrest⟩ := h.finished.2 e he
    exact ⟨a, hold _ a ha, hrest⟩
  · intro i a ha hsucceeded
    rcases hcases i a ha with ha' | hnone
    · rw [hpending]
      rcases h.succeeded i a ha' hsucceeded with ⟨dl', hdl', hi⟩ | hrest
      · exact .inl ⟨dl', List.mem_append_left _ hdl', hi⟩
      · exact .inr hrest
    · obtain ⟨code, hcode, -⟩ := hsucceeded
      rw [hnone] at hcode
      cases hcode

end Books

/-! ### The steps -/

/-- The books are in order, and each package that was queued is in progress, in hand or
returned. -/
structure Inv [DecidableEq I] (packages : Finset I) (s : State I Pkg) : Prop where
  books : Books packages s
  queued : s.queued.Perm
    (s.returned ++ s.inHand.map (fun e => e.1.id) ++ s.pending.map Download.id)
  known : ∀ id ∈ s.queued, id ∈ packages
  once : s.queued.Nodup
  count : s.next = s.queued.length
  busy : s.phase = .performing → s.pending ≠ []
  running : s.phase ≠ .failed ∧ s.phase ≠ .panicked

theorem inv_init [DecidableEq I] (packages : Finset I) (slots : I → Option Pkg) :
    Inv packages (State.init slots) where
  books := books_init packages slots
  queued := by simp [State.init, State.inHand]
  known := by simp [State.init]
  once := List.nodup_nil
  count := rfl
  busy := by simp [State.init]
  running := by simp [State.init]

/-- The bytes handed to `finish_download` for a package are those of the one transfer for it
that succeeded, and they are handed over once. -/
structure Handed (s : State I Pkg) : Prop where
  once : (s.finished.map Prod.fst).Nodup
  bytes : ∀ e ∈ s.finished, FromTransfer s.attempts e.1 e.2.1 e.2.2
  unique : ∀ e ∈ s.finished, ∀ (i : ℕ) (a : Attempt I), s.attempts[i]? = some a → a.id = e.1 →
    a.Succeeded → i = e.2.2

/-- The first error is reported. -/
structure Stopped (s : State I Pkg) : Prop where
  phase : s.phase = .failed
  tokens : (s.pending.map Download.token).Nodup
  handed : Handed s

namespace Inv

variable [DecidableEq I] {packages : Finset I} {s s' : State I Pkg}

/-- A package that was returned is neither in progress nor in hand. -/
theorem once_returned (h : Inv packages s) : s.returned.Nodup := by
  have hnodup := h.queued.nodup_iff.mp h.once
  rw [List.append_assoc] at hnodup
  exact hnodup.of_append_left

theorem handed (h : Inv packages s) : Handed s where
  once := h.books.finished.1.symm ▸ h.once_returned
  bytes := h.books.finished.2
  unique e he i a ha hid hsucceeded := by
    have hreturned : e.1 ∈ s.returned := by
      rw [← h.books.finished.1]
      exact List.mem_map_of_mem he
    have hslot := h.books.returned e.1 hreturned
    rcases h.books.succeeded i a ha hsucceeded with ⟨dl, hdl, rfl⟩ | ⟨e', he', rfl⟩ | ⟨e', he', rfl⟩
    · obtain ⟨a', ha', hid', -⟩ := h.books.transfer dl hdl
      rw [ha, Option.some.injEq] at ha'
      subst ha'
      exact absurd (h.books.slots dl hdl).2 (by rw [← hid', hid]; exact hslot)
    · obtain ⟨-, hnone, -, a', ha', hid', -⟩ := h.books.hand e' he'
      rw [ha, Option.some.injEq] at ha'
      subst ha'
      exact absurd hnone (by rw [← hid', hid]; exact hslot)
    · obtain ⟨a', ha', hid', -⟩ := h.books.finished.2 e' he'
      rw [ha, Option.some.injEq] at ha'
      subst ha'
      have hnodup : (s.finished.map Prod.fst).Nodup := h.books.finished.1.symm ▸ h.once_returned
      rw [List.inj_on_of_nodup_map hnodup he' he (hid'.symm.trans hid)]

/-- An error leaves what was handed over as it is. -/
theorem stopped (h : Inv packages s) (hphase : s'.phase = .failed)
    (hpending : s'.pending.Sublist s.pending) (hattempts : s'.attempts = s.attempts)
    (hfinished : s'.finished = s.finished) : Stopped s' where
  phase := hphase
  tokens := (hpending.map _).nodup h.books.tokens
  handed := by
    obtain ⟨honce, hbytes, hunique⟩ := h.handed
    exact ⟨hfinished ▸ honce, hfinished ▸ hattempts ▸ hbytes, hfinished ▸ hattempts ▸ hunique⟩

/-- The loop of `wait` finds as many packages as downloads. -/
theorem loop (h : Inv packages s) (hphase : s.phase = .idle) (hpending : s.pending ≠ []) :
    Inv packages s.loop := by
  have hperforming : s.loop = { s with phase := .performing } := by
    rw [State.loop, if_pos h.books.length_eq_card]
  rw [hperforming]
  refine { h with books := ?_, queued := ?_, busy := fun _ => hpending, running := by simp }
  · apply h.books.setPhase <;> simp [State.collected, State.inHand, hphase]
  · simpa [State.inHand, hphase] using h.queued

theorem id_notMem_pendingIds (h : Inv packages s) {id : I}
    (hpending : ∀ dl ∈ s.pending, dl.id ≠ id) : id ∉ s.pendingIds := by
  rw [h.books.pendingIds, List.mem_toFinset]
  intro hmem
  obtain ⟨dl, hdl, heq⟩ := List.mem_map.mp hmem
  exact hpending dl hdl heq

/-- A package with an empty slot that is not pending between two calls was not queued. -/
theorem notMem_queued (h : Inv packages s) {id : I} (hphase : s.phase = .idle)
    (hslot : s.slots id = none) (hpending : ∀ dl ∈ s.pending, dl.id ≠ id) : id ∉ s.queued := by
  have hperm := h.queued
  rw [show s.inHand = [] by rw [State.inHand, hphase], List.map_nil, List.append_nil] at hperm
  rw [hperm.mem_iff, List.mem_append]
  rintro (hreturned | hmem)
  · exact h.books.returned id hreturned hslot
  · obtain ⟨dl, hdl, heq⟩ := List.mem_map.mp hmem
    exact hpending dl hdl heq

/-- A package is queued for download. -/
theorem startDownload (h : Inv packages s) {id : I} (retries : ℕ) (hphase : s.phase = .idle)
    (hid : id ∈ packages) (hslot : s.slots id = none) (hpending : ∀ dl ∈ s.pending, dl.id ≠ id) :
    Inv packages (s.startDownload id retries) := by
  have hnot := h.id_notMem_pendingIds hpending
  have hinHand : s.inHand = [] := by rw [State.inHand, hphase]
  have hperm := h.queued
  rw [hinHand, List.map_nil, List.append_nil] at hperm
  have hfresh := h.notMem_queued hphase hslot hpending
  -- tokens count up, so that this one is new
  have htoken : ∀ dl ∈ s.pending, dl.token ≠ s.next :=
    fun dl hdl => (h.books.tokens_lt dl hdl).ne
  have hbooks := h.books.enqueue ⟨s.next, id, [], false, retries, 0⟩ rfl htoken
    (Nat.lt_succ_self _) (Nat.le_succ _) hpending hid hslot hinHand
  have hids : ((s.startDownload id retries).pending.map Download.id) =
      s.pending.map Download.id ++ [id] := by
    rw [State.startDownload, if_neg hnot, Books.pending_enqueue _ _ htoken, List.map_append]
    rfl
  rw [State.startDownload, if_neg hnot] at hids ⊢
  constructor
  · exact { hbooks with }
  · have hnone : State.inHand ({ s with
        next := s.next + 1
        pendingIds := insert id s.pendingIds
        queued := s.queued ++ [id] }.enqueue ⟨s.next, id, [], false, retries, 0⟩) = [] := hinHand
    rw [hids, hnone, List.map_nil, List.append_nil, ← List.append_assoc]
    exact hperm.append_right [id]
  · intro id' hid'
    rcases List.mem_append.mp hid' with hid' | hid'
    · exact h.known id' hid'
    · rw [List.mem_singleton.mp hid']
      exact hid
  · apply h.once.append (List.nodup_singleton id)
    intro id' hid' heq
    exact hfresh (List.mem_singleton.mp heq ▸ hid')
  · change s.next + 1 = (s.queued ++ [id]).length
    rw [h.count, List.length_append, List.length_singleton]
  · intro hperforming
    change s.phase = .performing at hperforming
    rw [hphase] at hperforming
    cases hperforming
  · exact h.running

omit [DecidableEq I] in
theorem loop_eq (hlength : s.pending.length = s.pendingIds.card) :
    s.loop = { s with phase := .performing } := by
  rw [State.loop, if_pos hlength]

/-- The transfer of a download is added again. -/
theorem retry (h : Inv packages s) {token : ℕ} {result : Except CurlError Unit}
    (hphase : s.phase = .processing token result) {dl : Download I} (hdl : dl ∈ s.pending)
    (htoken : dl.token = token)
    (hnot : ∀ a, s.attempts[dl.handle]? = some a → ¬ a.Succeeded) :
    Inv packages ({ s.remove dl with pendingIds := insert dl.id (s.remove dl).pendingIds }.enqueue
      { dl with data := [], remaining := dl.remaining - 1 }).loop := by
  have hremoved : Books packages { s.remove dl with phase := .performing } := by
    apply h.books.remove hphase hdl htoken
    · rfl
    · intro e he
      cases he
    · exact fun a ha hsucc => absurd hsucc (hnot a ha)
  -- with the download taken out, its token and its id are free again
  have hothers : ∀ dl' ∈ (s.remove dl).pending, dl'.token ≠ dl.token ∧ dl'.id ≠ dl.id := by
    intro dl' hdl'
    obtain ⟨hdl', hne⟩ := (h.books.mem_remove hdl).mp hdl'
    exact ⟨fun heq => hne (h.books.eq_of_token hdl' hdl heq),
      fun heq => hne (h.books.eq_of_id hdl' hdl heq)⟩
  have hbooks := hremoved.enqueue { dl with data := [], remaining := dl.remaining - 1 } rfl
    (fun dl' hdl' => (hothers dl' hdl').1) (h.books.tokens_lt dl hdl) le_rfl
    (fun dl' hdl' => (hothers dl' hdl').2) (h.books.slots dl hdl).1 (h.books.slots dl hdl).2 rfl
  have hlength : ({ s.remove dl with
      pendingIds := insert dl.id (s.remove dl).pendingIds }.enqueue
        { dl with data := [], remaining := dl.remaining - 1 }).pending.length =
      ({ s.remove dl with pendingIds := insert dl.id (s.remove dl).pendingIds }.enqueue
        { dl with data := [], remaining := dl.remaining - 1 }).pendingIds.card :=
    hbooks.length_eq_card
  rw [loop_eq hlength]
  have hpending := Books.pending_enqueue
    { s.remove dl with pendingIds := insert dl.id (s.remove dl).pendingIds }
    { dl with data := [], remaining := dl.remaining - 1 } fun dl' hdl' => (hothers dl' hdl').1
  have hperm := h.queued
  rw [show s.inHand = [] by rw [State.inHand, hphase], List.map_nil, List.append_nil] at hperm
  refine { h with books := { hbooks with }, queued := ?_, busy := ?_, running := by simp }
  · rw [hpending, List.map_append, List.append_assoc]
    exact hperm.trans ((h.books.perm_ids_remove hdl).append_left s.returned)
  · intro _
    rw [hpending]
    simp

/-- A result is handled: the download is in hand, its transfer is added again, or an error is
reported. -/
theorem process (h : Inv packages s) {token : ℕ} {result : Except CurlError Unit}
    (hphase : s.phase = .processing token result) :
    Inv packages (s.process token result) ∨ Stopped (s.process token result) := by
  have hmem : (token, result) ∈ s.collected := by simp [State.collected, hphase]
  obtain ⟨dl, hdl, htoken, -, a, d, ha, hd, hresult⟩ := h.books.collected.2 _ hmem
  subst htoken hresult
  have hinHand : s.inHand = [] := by rw [State.inHand, hphase]
  have hperm := h.queued
  rw [hinHand, List.map_nil, List.append_nil] at hperm
  have hperm' := hperm.trans ((h.books.perm_ids_remove hdl).append_left s.returned)
  rw [State.process, h.books.download?_eq hdl]
  simp only [ha, hd, Option.bind_some, Option.elim_some]
  have hsucceeded : ∀ a', s.attempts[dl.handle]? = some a' → a'.Succeeded →
      verdict dl.timedOut d.result d.code = .ok () := by
    intro a' ha' hsucc
    rw [ha, Option.some.injEq] at ha'
    subst ha'
    obtain ⟨code, hcode, hok⟩ := hsucc
    rw [hd, Option.some.injEq] at hcode
    rw [hcode]
    exact verdict_eq_ok_iff.mpr ⟨rfl, hok⟩
  cases hverdict : verdict dl.timedOut d.result d.code with
  | ok u =>
    left
    -- what was received goes from the pending downloads to the hand
    obtain ⟨hok, hcode⟩ := verdict_eq_ok_iff.mp hverdict
    have hfrom : FromTransfer s.attempts dl.id dl.data dl.handle := by
      obtain ⟨a', ha', hid, -, hwritten⟩ := h.books.transfer dl hdl
      rw [ha, Option.some.injEq] at ha'
      subst ha'
      refine ⟨a, ha, hid, hwritten, d.code, ?_, hcode⟩
      rw [hd, ← hok]
    refine { h with books := ?_, queued := ?_, busy := by simp, running := by simp }
    · apply h.books.remove hphase hdl rfl
      · rfl
      · intro e he
        exact ⟨List.mem_singleton.mp he, hfrom⟩
      · exact fun _ _ _ => List.mem_singleton_self _
    · refine hperm'.trans ?_
      rw [List.append_assoc]
      exact List.perm_append_comm.append_left s.returned
  | error e =>
    have hnot : ∀ a', s.attempts[dl.handle]? = some a' → ¬ a'.Succeeded := by
      intro a' ha' hsucc
      rw [hsucceeded a' ha' hsucc] at hverdict
      cases hverdict
    by_cases hretry : e.maybeSpurious = true ∧ 0 < dl.remaining
    · left
      -- the same download once more, with an attempt of its own
      simp only [if_pos hretry]
      exact h.retry hphase hdl rfl hnot
    · right
      simp only [if_neg hretry]
      exact h.stopped rfl List.filter_sublist rfl rfl

/-- A package is ready, so nothing has to be downloaded. -/
theorem ready (h : Inv packages s) {id : I} (pkg : Pkg) (hphase : s.phase = .idle)
    (hpending : ∀ dl ∈ s.pending, dl.id ≠ id) :
    Inv packages { s with slots := Function.update s.slots id (some pkg) } := by
  refine { h with books := { h.books with slots := ?_, hand := ?_, returned := ?_ } }
  · intro dl hdl
    obtain ⟨hpkg, hslot⟩ := h.books.slots dl hdl
    refine ⟨hpkg, ?_⟩
    change Function.update s.slots id (some pkg) dl.id = none
    rw [Function.update_of_ne (hpending dl hdl)]
    exact hslot
  · intro e he
    simp [State.inHand, hphase] at he
  · intro id' hid'
    change Function.update s.slots id (some pkg) id' ≠ none
    by_cases heq : id' = id
    · rw [heq, Function.update_self]
      simp
    · rw [Function.update_of_ne heq]
      exact h.books.returned id' hid'

/-- The callbacks of curl change the bytes of a download or note a timeout. -/
theorem ofBooks (h : Inv packages s) (hbooks : Books packages s')
    (hids : s'.pending.map Download.id = s.pending.map Download.id) (hphase : s'.phase = s.phase)
    (hnext : s'.next = s.next) (hqueued : s'.queued = s.queued)
    (hreturned : s'.returned = s.returned) : Inv packages s' where
  books := hbooks
  queued := by
    have hinHand : s'.inHand = s.inHand := by rw [State.inHand, hphase, State.inHand]
    rw [hqueued, hreturned, hinHand, hids]
    exact h.queued
  known := hqueued ▸ h.known
  once := hqueued ▸ h.once
  count := by rw [hnext, hqueued, h.count]
  busy hperforming hnil := by
    apply h.busy (hphase ▸ hperforming)
    rw [hnil, List.map_nil] at hids
    exact List.map_eq_nil_iff.mp hids.symm
  running := hphase ▸ h.running

omit [DecidableEq I] in
/-- The packages stay the same. -/
theorem ids_modify (s : State I Pkg) (token : ℕ) (f : Download I → Download I)
    (hf : ∀ dl, (f dl).id = dl.id) :
    (s.modify token f).pending.map Download.id = s.pending.map Download.id := by
  rw [State.modify, List.map_map]
  apply List.map_congr_left
  intro dl _
  rw [Function.comp_apply]
  split
  · exact hf dl
  · rfl

omit [DecidableEq I] in
/-- Reading messages changes what is known of the transfers only. -/
theorem waitForCurl_kept (s : State I Pkg) :
    s.waitForCurl.queued = s.queued ∧ s.waitForCurl.returned = s.returned ∧
      s.waitForCurl.next = s.next ∧ s.waitForCurl.slots = s.slots := by
  rw [State.waitForCurl]
  split
  · exact ⟨rfl, rfl, rfl, rfl⟩
  · dsimp only
    split <;> exact ⟨rfl, rfl, rfl, rfl⟩

/-- Curl is asked for what has ended. -/
theorem waitForCurl (h : Inv packages s) (hphase : s.phase = .performing) :
    Inv packages s.waitForCurl := by
  obtain ⟨hbooks, hpending, hnext⟩ := h.books.waitForCurl hphase (h.busy hphase)
  obtain ⟨hqueued, hreturned, hcount, -⟩ := waitForCurl_kept s
  have hinHand : s.waitForCurl.inHand = s.inHand := by
    rw [Books.inHand_of_performing hphase]
    rcases hnext with ⟨hperforming, -⟩ | ⟨token, result, hprocessing⟩
    · exact Books.inHand_of_performing hperforming
    · rw [State.inHand, hprocessing]
  constructor
  · exact hbooks
  · rw [hqueued, hreturned, hinHand, hpending]
    exact h.queued
  · exact hqueued ▸ h.known
  · exact hqueued ▸ h.once
  · rw [hcount, hqueued, h.count]
  · intro _
    rw [hpending]
    exact h.busy hphase
  · rcases hnext with ⟨hperforming, -⟩ | ⟨token, result, hprocessing⟩
    · simp [hperforming]
    · simp [hprocessing]

/-- What curl does while it performs keeps the invariant. -/
theorem curl (h : Inv packages s) (hstep : CurlStep s s') : Inv packages s' := by
  cases hstep with
  | write hphase hmulti ha hopen bytes =>
    apply h.ofBooks (h.books.write hphase hmulti ha bytes)
    all_goals rw [h.books.writeFunction_eq hmulti ha]
    · exact ids_modify _ _ _ fun _ => rfl
    all_goals rfl
  | progress hphase hmulti ha hopen timedOut =>
    apply h.ofBooks (h.books.progress hphase hmulti ha timedOut)
    all_goals rw [h.books.progressFunction_eq hmulti ha]
    · exact ids_modify _ _ _ fun _ => rfl
    all_goals rfl
  | complete handle hcompletes =>
    have hbooks := h.books.complete hcompletes
    obtain ⟨hphase, hmulti, ha, hopen, d⟩ := hcompletes
    exact h.ofBooks hbooks rfl rfl rfl rfl rfl
  | block hphase hmessages hresults => exact h.waitForCurl hphase

/-- The package of a download in hand is there. -/
theorem finish (h : Inv packages s) {dl : Download I} {data : List UInt8} (pkg : Pkg)
    (hphase : s.phase = .finishing dl data) : Inv packages (s.finish packages dl data pkg) := by
  have hmem : (dl, data) ∈ s.inHand := by simp [State.inHand, hphase]
  obtain ⟨hid, hslot, hnotMem, hfrom⟩ := h.books.hand _ hmem
  have hcollected : s.collected = s.results := by rw [State.collected, hphase]
  have hinHand : s.inHand = [(dl, data)] := by rw [State.inHand, hphase]
  have hcoll := h.books.collected
  have hended := h.books.ended
  have hsucceeded := h.books.succeeded
  rw [hcollected] at hcoll hended
  rw [hinHand] at hsucceeded
  have hnone : (s.slots dl.id).isNone := by rw [hslot, Option.isNone_none]
  rw [State.finish, if_pos ⟨hid, hnone⟩]
  -- the slot of the package is filled; no download of it is pending any more
  refine { h with
    books := { h.books with
      collected := hcoll, ended := hended, slots := ?_, hand := ?_, returned := ?_, finished := ?_
      succeeded := ?_ }
    queued := ?_, busy := by simp, running := by simp }
  · intro dl' hdl'
    obtain ⟨hpkg, hslot'⟩ := h.books.slots dl' hdl'
    refine ⟨hpkg, ?_⟩
    have hne : dl'.id ≠ dl.id := fun heq => hnotMem (heq ▸ List.mem_map_of_mem hdl')
    change Function.update s.slots dl.id (some pkg) dl'.id = none
    rw [Function.update_of_ne hne]
    exact hslot'
  · intro e he
    cases he
  · intro id hid'
    change Function.update s.slots dl.id (some pkg) id ≠ none
    by_cases heq : id = dl.id
    · rw [heq, Function.update_self]
      simp
    · rw [Function.update_of_ne heq]
      rcases List.mem_append.mp hid' with hid' | hid'
      · exact h.books.returned id hid'
      · exact absurd (List.mem_singleton.mp hid') heq
  · refine ⟨?_, ?_⟩
    · rw [List.map_append, h.books.finished.1, List.map_singleton]
    · intro e he
      rcases List.mem_append.mp he with he | he
      · exact h.books.finished.2 e he
      · rw [List.mem_singleton.mp he]
        exact hfrom
  · intro i a ha hsucc
    rcases hsucceeded i a ha hsucc with hpending | ⟨e, he, rfl⟩ | ⟨e, he, rfl⟩
    · exact .inl hpending
    · right
      right
      refine ⟨(dl.id, data, dl.handle), by simp, ?_⟩
      rw [List.mem_singleton.mp he]
    · exact .inr (.inr ⟨e, List.mem_append_left _ he, rfl⟩)
  · have hperm := h.queued
    rw [hinHand] at hperm
    change s.queued.Perm (s.returned ++ [dl.id] ++ [] ++ s.pending.map Download.id)
    rw [List.append_nil]
    exact hperm

/-- What is handed over when the package cannot be unpacked comes from its transfer too. -/
theorem handed_finish (h : Inv packages s) {dl : Download I} {data : List UInt8}
    (hphase : s.phase = .finishing dl data) :
    Handed { s with finished := s.finished ++ [(dl.id, data, dl.handle)], phase := .failed } := by
  have hinHand : s.inHand = [(dl, data)] := by rw [State.inHand, hphase]
  have hmem : (dl, data) ∈ s.inHand := by simp [hinHand]
  obtain ⟨-, hslot, hnotMem, hfrom⟩ := h.books.hand _ hmem
  -- its slot is empty, and what was handed over before has a package
  have hfinished : ∀ e ∈ s.finished, e.1 ≠ dl.id := by
    intro e he heq
    apply h.books.returned e.1
    · rw [← h.books.finished.1]
      exact List.mem_map_of_mem he
    · rw [heq]
      exact hslot
  constructor
  · rw [List.map_append]
    apply h.handed.once.append (List.nodup_singleton _)
    intro id hid hid'
    obtain ⟨e, he, rfl⟩ := List.mem_map.mp hid
    exact hfinished e he (List.mem_singleton.mp hid')
  · intro e he
    rcases List.mem_append.mp he with he | he
    · exact h.books.finished.2 e he
    · rw [List.mem_singleton.mp he]
      exact hfrom
  · intro e he i a ha hid hsucc
    rcases List.mem_append.mp he with he | he
    · exact h.handed.unique e he i a ha hid hsucc
    · rw [List.mem_singleton.mp he] at hid ⊢
      -- a transfer that succeeded is of a pending download, the one in hand or one handed over
      rcases h.books.succeeded i a ha hsucc with ⟨dl', hdl', rfl⟩ | ⟨e', he', rfl⟩ | ⟨e', he', rfl⟩
      · obtain ⟨a', ha', hid', -⟩ := h.books.transfer dl' hdl'
        rw [ha, Option.some.injEq] at ha'
        subst ha'
        have hsame : dl'.id = dl.id := hid'.symm.trans hid
        exact absurd (hsame ▸ List.mem_map_of_mem hdl') hnotMem
      · rw [hinHand] at he'
        rw [List.mem_singleton.mp he']
      · obtain ⟨a', ha', hid', -⟩ := h.books.finished.2 e' he'
        rw [ha, Option.some.injEq] at ha'
        subst ha'
        exact absurd (hid'.symm.trans hid) (hfinished e' he')

/-- Errors are reported and no assertion fails. -/
theorem fail (h : Inv packages s) (hstep : FailStep packages s s') : Stopped s' := by
  cases hstep with
  | start hphase => exact h.stopped rfl (List.Sublist.refl _) rfl rfl
  | setUp id hphase hid hslot hpending =>
    have hnot := h.id_notMem_pendingIds hpending
    apply h.stopped
    · simp only [if_neg hnot]
    · exact List.Sublist.refl _
    · rfl
    · rfl
  | tick retries hphase hid hslot hpending hstarted =>
    have hnext := h.startDownload retries hphase hid hslot hpending
    exact hnext.stopped rfl (List.Sublist.refl _) rfl rfl
  | perform hphase => exact h.stopped rfl (List.Sublist.refl _) rfl rfl
  | takeOut hphase hdl | warn hphase hdl | addAgain hphase hdl =>
    exact h.stopped rfl List.filter_sublist rfl rfl
  | announce hphase => exact h.stopped rfl (List.Sublist.refl _) rfl rfl
  | finish hphase => exact ⟨rfl, h.books.tokens, h.handed_finish hphase⟩

/-- A step keeps the invariant, or reports an error. -/
theorem step (h : Inv packages s) (hstep : Step packages s s') : Inv packages s' ∨ Stopped s' := by
  cases hstep with
  | call hcall =>
    left
    cases hcall with
    | cached hphase hid hslot => exact h
    | ready pkg hphase hid hslot hpending => exact h.ready pkg hphase hpending
    | download retries hphase hid hslot hpending =>
      exact h.startDownload retries hphase hid hslot hpending
    | wait hphase hpending => exact h.loop hphase hpending
  | curl hcurl => exact .inl (h.curl hcurl)
  | wait hwait =>
    cases hwait with
    | collect hphase hsome => exact .inl (h.waitForCurl hphase)
    | process hphase => exact h.process hphase
    | finish pkg hphase => exact .inl (h.finish pkg hphase)
  | fail hfail => exact .inr (h.fail hfail)
  | resume hfailed => exact absurd hfailed h.running.1

end Inv

/-! ### Going on after an error -/

section Resumed

theorem resumed_writeFunction (s : State I Pkg) (token : ℕ) (bytes : List UInt8) :
    (s.writeFunction token bytes).resumed = s.resumed := by
  rw [State.writeFunction]
  split <;> rfl

theorem resumed_progressFunction (s : State I Pkg) (token : ℕ) (timedOut : Bool) :
    (s.progressFunction token timedOut).resumed = s.resumed := by
  rw [State.progressFunction]
  split <;> rfl

theorem resumed_waitForCurl (s : State I Pkg) : s.waitForCurl.resumed = s.resumed := by
  rw [State.waitForCurl]
  split
  · rfl
  · dsimp only
    split <;> rfl

variable [DecidableEq I] {packages : Finset I} {s s' : State I Pkg}

theorem resumed_startDownload (s : State I Pkg) (id : I) (retries : ℕ) :
    (s.startDownload id retries).resumed = s.resumed := by
  rw [State.startDownload]
  split <;> rfl

theorem resumed_process (s : State I Pkg) (token : ℕ) (result : Except CurlError Unit) :
    (s.process token result).resumed = s.resumed := by
  rw [State.process]
  split
  · rfl
  · dsimp only
    split
    · rfl
    · split <;> rfl

theorem resumed_finish (s : State I Pkg) (dl : Download I) (data : List UInt8) (pkg : Pkg) :
    (s.finish packages dl data pkg).resumed = s.resumed := by
  rw [State.finish]
  split <;> rfl

/-- A caller that has gone on has gone on for good. -/
theorem Step.resumed (hstep : Step packages s s') (h : s.resumed = true) : s'.resumed = true := by
  cases hstep with
  | call hcall =>
    cases hcall with
    | download retries _ _ _ _ => exact (resumed_startDownload s _ retries).trans h
    | _ => exact h
  | curl hcurl =>
    cases hcurl with
    | write _ _ _ _ bytes => exact (resumed_writeFunction _ _ bytes).trans h
    | progress _ _ _ _ timedOut => exact (resumed_progressFunction s _ timedOut).trans h
    | complete handle hcompletes =>
      obtain ⟨-⟩ := hcompletes
      exact h
    | block _ _ _ => exact (resumed_waitForCurl s).trans h
  | wait hwait =>
    cases hwait with
    | collect _ _ => exact (resumed_waitForCurl s).trans h
    | process _ => exact (resumed_process s _ _).trans h
    | finish pkg _ => exact (resumed_finish s _ _ pkg).trans h
  | fail hfail =>
    cases hfail with
    | tick retries _ _ _ _ _ => exact (resumed_startDownload s _ retries).trans h
    | _ => exact h
  | resume _ => rfl

end Resumed

/-- After an error the caller goes on, or nothing happens. -/
theorem Stopped.resumed [DecidableEq I] {packages : Finset I} {s s' : State I Pkg}
    (h : Stopped s) (hstep : Step packages s s') : s'.resumed = true := by
  have hphase := h.phase
  cases hstep with
  | call hcall => cases hcall <;> simp_all
  | curl hcurl =>
    cases hcurl with
    | complete handle hcompletes =>
      obtain ⟨hperforming⟩ := hcompletes
      simp_all
    | _ => simp_all
  | wait hwait => cases hwait <;> simp_all
  | fail hfail => cases hfail <;> simp_all
  | resume _ => rfl

end Cargo.Core.Downloads
