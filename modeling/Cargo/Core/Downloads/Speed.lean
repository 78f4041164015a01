import Cargo.Math.Iteration
import Mathlib.Logic.Function.Basic

/-!
# Downloads that are too slow

All downloads have one deadline and one number of bytes that are to be received before it. What
any of them receives is taken off the number; when that is reached, both start over, and they start
over whenever a transfer is added. If the deadline comes first, then the transfer that happens to
report its progress is aborted, and so is one that reports after nothing was received for too long.

How much a transfer has received is the difference to what it reported before. A transfer that is
redirected may start counting from zero again. And if the limit is zero, then no bytes are missing
when the deadline comes, which the code does not expect.

## Main definitions

* `State.progress` — the callback of a transfer
* `Along` — a sequence of events, each after some time
* `Accounts` — no callback panics, and slow transfers are ended with a message
* `Meets` — counts do not go back, and if the limit is zero the deadline is not reached

## Main results

* `progress_spec` — what one callback does
* `along_accounts_iff` — the runs in which all callbacks are so
-/

set_option autoImplicit false

namespace Cargo.Core.Downloads.Speed

open Cargo.Math

/-- Times are in nanoseconds. -/
def second : ℕ := 10 ^ 9

structure HttpTimeout where
  dur : ℕ
  lowSpeedLimit : ℕ

/-- From the settings `http.low-speed-limit` and `http.timeout`, and the variable
`HTTP_TIMEOUT`. -/
def HttpTimeout.new (lowSpeedLimit timeout httpTimeout : Option ℕ) : HttpTimeout where
  dur := ((timeout.or httpTimeout).getD 30) * second
  lowSpeedLimit := lowSpeedLimit.getD 10

/-- A download, as far as its speed is concerned. -/
structure Download where
  id : String
  total : ℕ
  current : ℕ
  timedOut : Option String

inductive Panic
  /-- `cur - dl.current.get()` -/
  | count
  /-- `threshold - delta` -/
  | threshold
  /-- `now - self.updated_at.get()` -/
  | instant
  /-- `assert!(self.next_speed_check_bytes_threshold.get() > 0)` -/
  | assertion
  /-- There is no download with the token. -/
  | noDownload
  deriving DecidableEq, Repr

/-- The state of the timeouts. The clock `now` does not go back. -/
structure State where
  timeout : HttpTimeout
  pending : ℕ → Option Download
  updatedAt : ℕ
  nextSpeedCheck : ℕ
  nextSpeedCheckBytesThreshold : ℕ
  now : ℕ

/-- A subtraction that must not underflow. -/
def sub (a b : ℕ) (panic : Panic) : Except Panic ℕ :=
  if b ≤ a then .ok (a - b) else .error panic

namespace State

def init (timeout : HttpTimeout) (now : ℕ) : State where
  timeout
  pending _ := none
  updatedAt := now
  nextSpeedCheck := now
  nextSpeedCheckBytesThreshold := 0
  now

def put (s : State) (token : ℕ) (dl : Download) : State :=
  { s with pending := Function.update s.pending token (some dl) }

def enqueue (s : State) (token : ℕ) (id : String) : State :=
  { s with
    updatedAt := s.now
    nextSpeedCheck := s.now + s.timeout.dur
    nextSpeedCheckBytesThreshold := s.timeout.lowSpeedLimit }.put token ⟨id, 0, 0, none⟩

/-- The transfer has ended. -/
def remove (s : State) (token : ℕ) : State :=
  { s with pending := Function.update s.pending token none }

/-- The time that `finish_download` took does not count. -/
def finish (s : State) (finishDur : ℕ) : State :=
  { s with
    now := s.now + finishDur
    updatedAt := s.updatedAt + finishDur
    nextSpeedCheck := s.nextSpeedCheck + finishDur }

/-- The bytes that a transfer has received. -/
def receive (s : State) (token : ℕ) (dl : Download) (cur : ℕ) : Except Panic State :=
  if cur = dl.current then .ok (s.put token dl)
  else do
    let delta ← sub cur dl.current .count
    let threshold := s.nextSpeedCheckBytesThreshold
    let s := { s.put token { dl with current := cur } with updatedAt := s.now }
    -- fast enough, so that the time for the next check is put off
    if threshold ≤ delta then
      .ok { s with
        nextSpeedCheck := s.now + s.timeout.dur
        nextSpeedCheckBytesThreshold := s.timeout.lowSpeedLimit }
    else do
      let rest ← sub threshold delta .threshold
      .ok { s with nextSpeedCheckBytesThreshold := rest }

/-- A message for a transfer that is aborted. -/
def abort (s : State) (token : ℕ) (dl : Download) (msg : String) : State :=
  s.put token { dl with timedOut := some msg }

def noData (s : State) (dl : Download) : String :=
  "failed to download any data for `" ++ dl.id ++ "` within " ++
    toString (s.timeout.dur / second) ++ "s"

def tooSlow (s : State) (dl : Download) : String :=
  "download of `" ++ dl.id ++ "` failed to transfer more than " ++
    toString s.timeout.lowSpeedLimit ++ " bytes in " ++ toString (s.timeout.dur / second) ++ "s"

/-- Is the transfer to go on? `tick` says whether the progress could be shown. -/
def check (s : State) (token : ℕ) (dl : Download) (tick : Bool) : Except Panic (State × Bool) :=
  if tick = false then .ok (s, false)
  else do
    let idle ← sub s.now s.updatedAt .instant
    if s.timeout.dur < idle then
      .ok ({ s with updatedAt := s.now }.abort token dl (s.noData dl), false)
    else if s.nextSpeedCheck ≤ s.now then
      let s := { s with nextSpeedCheck := s.now + s.timeout.dur }
      if 0 < s.nextSpeedCheckBytesThreshold then .ok (s.abort token dl (s.tooSlow dl), false)
      else .error .assertion
    else .ok (s, true)

/-- The callback of a transfer: it has received `cur` bytes of `total`. -/
def progress (s : State) (token total cur : ℕ) (tick : Bool) : Except Panic (State × Bool) :=
  match s.pending token with
  | none => .error .noDownload
  | some dl => do
    let s ← s.receive token { dl with total } cur
    s.check token { dl with total, current := cur } tick

end State

/-! ### Runs -/

inductive Event
  | enqueue (token : ℕ) (id : String)
  | progress (token total cur : ℕ) (tick : Bool)
  | remove (token : ℕ)
  | finish (finishDur : ℕ)

def State.step (s : State) : Event → Except Panic State
  | .enqueue token id => .ok (s.enqueue token id)
  | .progress token total cur tick => (s.progress token total cur tick).map Prod.fst
  | .remove token => .ok (s.remove token)
  | .finish finishDur => .ok (s.finish finishDur)

/-- Time passes. -/
def State.wait (s : State) (elapsed : ℕ) : State := { s with now := s.now + elapsed }

/-- Nothing was received for longer than the timeout, or bytes are missing at the deadline. -/
def Slow (s : State) (dl : Download) (cur : ℕ) : Prop :=
  if cur = dl.current then s.timeout.dur < s.now - s.updatedAt ∨ s.nextSpeedCheck ≤ s.now
  else cur - dl.current < s.nextSpeedCheckBytesThreshold ∧ s.nextSpeedCheck ≤ s.now

/-- The transfer is ended with a message. -/
def Ended (s : State) (token : ℕ) : Prop :=
  ∃ dl, s.pending token = some dl ∧ dl.timedOut.isSome

/-- The callback does not panic, and if its transfer is slow then it ends it with a message. -/
def Accounts (s : State) : Event → Prop
  | .progress token total cur tick => ∀ dl, s.pending token = some dl →
      ∃ s' go, s.progress token total cur tick = .ok (s', go) ∧
        (tick = true → Slow s dl cur → go = false ∧ Ended s' token)
  | _ => True

/-- A property of every event of a run, in the state it comes to. Each comes after some time, and
none after a panic. -/
def Along (p : State → Event → Prop) : State → List (ℕ × Event) → Prop
  | _, [] => True
  | s, (elapsed, e) :: events =>
    p (s.wait elapsed) e ∧ ∀ s', (s.wait elapsed).step e = .ok s' → Along p s' events

/-- The callback comes at the deadline, or after: it is in time for the data, and either nothing
was received since, or there is no time at all. -/
def ReachesDeadline (s : State) (dl : Download) (cur : ℕ) (tick : Bool) : Prop :=
  tick = true ∧
    if cur = dl.current then s.now - s.updatedAt ≤ s.timeout.dur ∧ s.nextSpeedCheck ≤ s.now
    else s.timeout.dur = 0

/-- The count does not go back, and if the limit is zero then the deadline is not reached. -/
def Meets (s : State) : Event → Prop
  | .progress token _ cur tick => ∀ dl, s.pending token = some dl →
      dl.current ≤ cur ∧ (s.timeout.lowSpeedLimit = 0 → ¬ ReachesDeadline s dl cur tick)
  | _ => True

/-! ### One step -/

/-- The last bytes came at some time before, and there are bytes missing to the limit, unless that
is zero. -/
structure Inv (s : State) : Prop where
  updatedAt_le : s.updatedAt ≤ s.now
  threshold_pos : 0 < s.timeout.lowSpeedLimit → ∀ token, s.pending token ≠ none →
    0 < s.nextSpeedCheckBytesThreshold
  threshold_zero : s.timeout.lowSpeedLimit = 0 → s.nextSpeedCheckBytesThreshold = 0

theorem sub_of_le {a b : ℕ} (h : b ≤ a) (panic : Panic) : sub a b panic = .ok (a - b) := if_pos h

theorem sub_of_lt {a b : ℕ} (h : a < b) (panic : Panic) : sub a b panic = .error panic :=
  if_neg (by omega)

section Steps

variable {s : State} {token cur : ℕ} {dl : Download} {tick : Bool}

theorem inv_init (timeout : HttpTimeout) (now : ℕ) : Inv (State.init timeout now) where
  updatedAt_le := le_rfl
  threshold_pos _ _ h := absurd rfl h
  threshold_zero _ := rfl

theorem Inv.wait (h : Inv s) (elapsed : ℕ) : Inv (s.wait elapsed) where
  updatedAt_le := h.updatedAt_le.trans (Nat.le_add_right _ _)
  threshold_pos := h.threshold_pos
  threshold_zero := h.threshold_zero

theorem inv_enqueue (s : State) (token : ℕ) (id : String) : Inv (s.enqueue token id) where
  updatedAt_le := le_rfl
  threshold_pos hlimit _ _ := hlimit
  threshold_zero hlimit := hlimit

theorem Inv.remove (h : Inv s) (token : ℕ) : Inv (s.remove token) where
  updatedAt_le := h.updatedAt_le
  threshold_pos hlimit other hother := by
    apply h.threshold_pos hlimit other
    intro hnone
    apply hother
    by_cases heq : other = token <;> simp [State.remove, heq, hnone]
  threshold_zero := h.threshold_zero

theorem Inv.finish (h : Inv s) (finishDur : ℕ) : Inv (s.finish finishDur) where
  updatedAt_le := Nat.add_le_add_right h.updatedAt_le _
  threshold_pos := h.threshold_pos
  threshold_zero := h.threshold_zero

/-- Changing a download that is there. -/
theorem Inv.put (h : Inv s) (hpending : s.pending token ≠ none) (dl : Download) :
    Inv (s.put token dl) where
  updatedAt_le := h.updatedAt_le
  threshold_pos hlimit _ _ := h.threshold_pos hlimit token hpending
  threshold_zero := h.threshold_zero

theorem receive_of_lt (s : State) (token : ℕ) (dl : Download) (hcur : cur < dl.current) :
    s.receive token dl cur = .error .count := by
  rw [State.receive, if_neg (by omega), sub_of_lt hcur]
  rfl

/-- The clock and the deadlines after bytes were received: the last of them come now, and if they
were enough then a new deadline is set. -/
structure Received (s s' : State) (dl : Download) (cur : ℕ) : Prop where
  now : s'.now = s.now
  timeout : s'.timeout = s.timeout
  same : cur = dl.current → s'.updatedAt = s.updatedAt ∧ s'.nextSpeedCheck = s.nextSpeedCheck
  updatedAt : cur ≠ dl.current → s'.updatedAt = s.now
  enough : cur ≠ dl.current → s.nextSpeedCheckBytesThreshold ≤ cur - dl.current →
    s'.nextSpeedCheck = s.now + s.timeout.dur
  missing : cur - dl.current < s.nextSpeedCheckBytesThreshold →
    s'.nextSpeedCheck = s.nextSpeedCheck

theorem receive_spec (h : Inv s) (dl : Download) (hpending : s.pending token ≠ none)
    (hcur : dl.current ≤ cur) :
    ∃ s', s.receive token dl cur = .ok s' ∧ Inv s' ∧ s'.pending token ≠ none ∧
      Received s s' dl cur := by
  have hput : ∀ dl', (s.put token dl').pending token ≠ none := by
    intro dl'
    simp [State.put]
  unfold State.receive
  by_cases heq : cur = dl.current
  · simp only [if_pos heq]
    exact ⟨_, rfl, h.put hpending dl, hput dl, rfl, rfl, fun _ => ⟨rfl, rfl⟩,
      fun hne => absurd heq hne, fun hne => absurd heq hne, fun _ => rfl⟩
  · simp only [if_neg heq, sub_of_le hcur, bind, Except.bind]
    by_cases hthreshold : s.nextSpeedCheckBytesThreshold ≤ cur - dl.current
    · simp only [if_pos hthreshold]
      exact ⟨_, rfl, ⟨le_rfl, fun hlimit _ _ => hlimit, fun hlimit => hlimit⟩, hput _, rfl, rfl,
        fun hsame => absurd hsame heq, fun _ => rfl, fun _ _ => rfl,
        fun hmissing => absurd hthreshold (by omega)⟩
    · simp only [if_neg hthreshold]
      rw [sub_of_le (by omega)]
      refine ⟨_, rfl, ⟨le_rfl, fun _ _ _ => ?_, fun hlimit => ?_⟩, hput _, rfl, rfl,
        fun hsame => absurd hsame heq, fun _ => rfl, fun _ henough => absurd henough hthreshold,
        fun _ => rfl⟩
      · change 0 < s.nextSpeedCheckBytesThreshold - (cur - dl.current)
        omega
      · -- with the limit zero, no bytes are missing
        have := h.threshold_zero hlimit
        omega

theorem ended_abort (s : State) (token : ℕ) (dl : Download) (msg : String) :
    Ended (s.abort token dl msg) token :=
  ⟨{ dl with timedOut := some msg }, Function.update_self _ _ _, rfl⟩

theorem Inv.abort (h : Inv s) (hpending : s.pending token ≠ none) (dl : Download) (msg : String) :
    Inv (s.abort token dl msg) :=
  h.put hpending _

/-- The deadline has come, and bytes did in time. -/
def AtDeadline (s : State) (tick : Bool) : Prop :=
  tick = true ∧ s.now - s.updatedAt ≤ s.timeout.dur ∧ s.nextSpeedCheck ≤ s.now

theorem check_of_atDeadline (h : Inv s) (hlimit : s.timeout.lowSpeedLimit = 0)
    (hdeadline : AtDeadline s tick) (dl : Download) :
    s.check token dl tick = .error .assertion := by
  obtain ⟨rfl, hidle, hdue⟩ := hdeadline
  have hzero : ¬ 0 < s.nextSpeedCheckBytesThreshold := by
    have := h.threshold_zero hlimit
    omega
  unfold State.check
  rw [if_neg (by simp), sub_of_le h.updatedAt_le]
  simp only [bind, Except.bind]
  rw [if_neg (by omega), if_pos hdue, if_neg hzero]

/-- Otherwise it does not fail, and a slow transfer is ended. -/
theorem check_spec (h : Inv s) (hpending : s.pending token ≠ none)
    (hnot : s.timeout.lowSpeedLimit = 0 → ¬ AtDeadline s tick) (dl : Download) :
    ∃ s' go, s.check token dl tick = .ok (s', go) ∧ Inv s' ∧
      (tick = true → s.timeout.dur < s.now - s.updatedAt ∨ s.nextSpeedCheck ≤ s.now →
        go = false ∧ Ended s' token) := by
  unfold State.check
  cases tick with
  | false => exact ⟨s, false, rfl, h, fun htick => Bool.noConfusion htick⟩
  | true =>
    rw [if_neg (by simp), sub_of_le h.updatedAt_le]
    simp only [bind, Except.bind]
    by_cases hidle : s.timeout.dur < s.now - s.updatedAt
    · rw [if_pos hidle]
      have hinv : Inv { s with updatedAt := s.now } :=
        ⟨le_rfl, h.threshold_pos, h.threshold_zero⟩
      exact ⟨_, false, rfl, hinv.abort hpending dl _, fun _ _ => ⟨rfl, ended_abort _ _ _ _⟩⟩
    · rw [if_neg hidle]
      by_cases hdue : s.nextSpeedCheck ≤ s.now
      · rw [if_pos hdue]
        have hlimit : 0 < s.timeout.lowSpeedLimit := by
          by_contra hzero
          exact hnot (by omega) ⟨rfl, by omega, hdue⟩
        rw [if_pos (h.threshold_pos hlimit token hpending)]
        have hinv : Inv { s with nextSpeedCheck := s.now + s.timeout.dur } :=
          ⟨h.updatedAt_le, h.threshold_pos, h.threshold_zero⟩
        exact ⟨_, false, rfl, hinv.abort hpending dl _, fun _ _ => ⟨rfl, ended_abort _ _ _ _⟩⟩
      · rw [if_neg hdue]
        refine ⟨s, true, rfl, h, fun _ hslow => ?_⟩
        omega

/-- With the limit zero no bytes are missing, so all that come set a new deadline. -/
theorem reachesDeadline_iff {s' : State} (h : Inv s) (hlimit : s.timeout.lowSpeedLimit = 0)
    (hreceived : Received s s' dl cur) :
    ReachesDeadline s dl cur tick ↔ AtDeadline s' tick := by
  unfold ReachesDeadline AtDeadline
  rw [hreceived.now, hreceived.timeout]
  by_cases heq : cur = dl.current
  · obtain ⟨hupdatedAt, hnextSpeedCheck⟩ := hreceived.same heq
    rw [if_pos heq, hupdatedAt, hnextSpeedCheck]
  · have hzero := h.threshold_zero hlimit
    rw [if_neg heq, hreceived.updatedAt heq, hreceived.enough heq (by omega)]
    -- a new deadline is reached at once if there is no time
    have hnone : s.now - s.now ≤ s.timeout.dur ∧ s.now + s.timeout.dur ≤ s.now ↔
        s.timeout.dur = 0 := by
      omega
    rw [hnone]

/-- A callback that meets the condition does what it is to do. -/
theorem progress_spec (h : Inv s) (total : ℕ) (hdl : s.pending token = some dl)
    (hcur : dl.current ≤ cur)
    (hnot : s.timeout.lowSpeedLimit = 0 → ¬ ReachesDeadline s dl cur tick) :
    ∃ s' go, s.progress token total cur tick = .ok (s', go) ∧ Inv s' ∧
      (tick = true → Slow s dl cur → go = false ∧ Ended s' token) := by
  have hpending : s.pending token ≠ none := by simp [hdl]
  unfold State.progress
  simp only [hdl]
  obtain ⟨s₁, hreceive, hinv, hpending₁, hreceived⟩ :=
    receive_spec h { dl with total } hpending hcur
  have hnot₁ : s₁.timeout.lowSpeedLimit = 0 → ¬ AtDeadline s₁ tick := by
    intro hlimit hdeadline
    rw [hreceived.timeout] at hlimit
    exact hnot hlimit ((reachesDeadline_iff h hlimit hreceived).mpr hdeadline)
  obtain ⟨s', go, hcheck, hinv', hended⟩ :=
    check_spec hinv hpending₁ hnot₁ { dl with total, current := cur }
  rw [hreceive]
  refine ⟨s', go, hcheck, hinv', fun htick hslow => hended htick ?_⟩
  -- a transfer that was slow before still is
  unfold Slow at hslow
  rw [hreceived.now, hreceived.timeout]
  by_cases heq : cur = dl.current
  · rw [if_pos heq] at hslow
    obtain ⟨hupdatedAt, hnextSpeedCheck⟩ := hreceived.same heq
    rw [hupdatedAt, hnextSpeedCheck]
    exact hslow
  · rw [if_neg heq] at hslow
    rw [hreceived.missing hslow.1]
    exact .inr hslow.2

/-- A callback that does not meet it panics. -/
theorem progress_error (h : Inv s) (total : ℕ) (hdl : s.pending token = some dl)
    (hbad : cur < dl.current ∨ s.timeout.lowSpeedLimit = 0 ∧ ReachesDeadline s dl cur tick) :
    ∃ panic, s.progress token total cur tick = .error panic := by
  have hpending : s.pending token ≠ none := by simp [hdl]
  unfold State.progress
  simp only [hdl]
  by_cases hcur : cur < dl.current
  · refine ⟨.count, ?_⟩
    rw [receive_of_lt s token { dl with total } hcur]
    rfl
  · obtain ⟨hlimit, hreaches⟩ := hbad.resolve_left hcur
    obtain ⟨s₁, hreceive, hinv, hpending₁, hreceived⟩ :=
      receive_spec h { dl with total } hpending (by simpa using hcur)
    have hdeadline : AtDeadline s₁ tick := (reachesDeadline_iff h hlimit hreceived).mp hreaches
    refine ⟨.assertion, ?_⟩
    rw [hreceive]
    exact check_of_atDeadline hinv (by rw [hreceived.timeout, hlimit]) hdeadline _

theorem accounts_iff (h : Inv s) (e : Event) : Accounts s e ↔ Meets s e := by
  cases e with
  | progress token total cur tick =>
    unfold Accounts Meets
    refine forall₂_congr fun dl hdl => ?_
    constructor
    · rintro ⟨s', go, hok, -⟩
      by_contra hbad
      have : cur < dl.current ∨
          s.timeout.lowSpeedLimit = 0 ∧ ReachesDeadline s dl cur tick := by
        by_contra hne
        exact hbad ⟨by omega, fun hlimit hreaches => hne (.inr ⟨hlimit, hreaches⟩)⟩
      obtain ⟨panic, herr⟩ := progress_error h total hdl this
      rw [hok] at herr
      cases herr
    · intro hmeets
      obtain ⟨s', go, hok, -, hslow⟩ := progress_spec h total hdl hmeets.1 hmeets.2
      exact ⟨s', go, hok, hslow⟩
  | enqueue token id => exact Iff.rfl
  | remove token => exact Iff.rfl
  | finish finishDur => exact Iff.rfl

/-- No event breaks the invariant: one that would, panics. -/
theorem Inv.step (h : Inv s) {e : Event} {s' : State} (hs : s.step e = .ok s') : Inv s' := by
  cases e with
  | enqueue token id =>
    cases hs
    exact inv_enqueue s token id
  | progress token total cur tick =>
    obtain ⟨⟨s₁, go⟩, hprogress, rfl⟩ := map_eq_ok.mp hs
    cases hdl : s.pending token with
    | none => simp [State.progress, hdl] at hprogress
    | some dl =>
      by_cases hbad : cur < dl.current ∨
          s.timeout.lowSpeedLimit = 0 ∧ ReachesDeadline s dl cur tick
      · obtain ⟨panic, herr⟩ := progress_error h total hdl hbad
        rw [hprogress] at herr
        cases herr
      · obtain ⟨s₂, go₂, hok, hinv, -⟩ := progress_spec h total hdl
          (by omega) fun hlimit hreaches => hbad (.inr ⟨hlimit, hreaches⟩)
        rw [hprogress] at hok
        cases hok
        exact hinv
  | remove token =>
    cases hs
    exact h.remove token
  | finish finishDur =>
    cases hs
    exact h.finish finishDur

/-- Over a run, two conditions that agree wherever the invariant holds are the same. -/
theorem along_congr {p q : State → Event → Prop} (hpq : ∀ s e, Inv s → (p s e ↔ q s e))
    {events : List (ℕ × Event)} : ∀ {s : State}, Inv s → (Along p s events ↔ Along q s events) := by
  induction events with
  | nil => exact fun _ => Iff.rfl
  | cons event events ih =>
    obtain ⟨elapsed, e⟩ := event
    intro s h
    have hwait := h.wait elapsed
    exact and_congr (hpq _ e hwait) (forall₂_congr fun s' hs => ih (hwait.step hs))

/-- The accounting is safe in a run exactly if no count goes back and, should the limit be zero,
the deadline is not reached. -/
theorem along_accounts_iff (timeout : HttpTimeout) (now : ℕ) (events : List (ℕ × Event)) :
    Along Accounts (State.init timeout now) events ↔
      Along Meets (State.init timeout now) events :=
  along_congr (fun _ e h => accounts_iff h e) (inv_init timeout now)

end Steps

/-- A transfer that is redirected counts from zero, whatever the settings. And with the limit zero,
of two transfers that receive nothing the first is ended, and the other then reaches the
deadline. -/
theorem not_accounts_redirected_zero :
    ¬ Along Accounts (State.init (HttpTimeout.new none none none) 0)
      [(0, .enqueue 0 "a"), (0, .progress 0 100 50 true), (0, .progress 0 100 10 true)] ∧
    ¬ Along Accounts (State.init (HttpTimeout.new (some 0) none none) 0)
      [(0, .enqueue 0 "a"), (0, .enqueue 1 "b"), (31 * second, .progress 0 0 0 true),
        (0, .progress 1 0 0 true)] := by
  constructor
  · intro h
    obtain ⟨-, h⟩ := h
    obtain ⟨-, h⟩ := h _ rfl
    obtain ⟨h, -⟩ := h _ rfl
    obtain ⟨s', go, hok, -⟩ := h _ rfl
    cases hok
  · intro h
    obtain ⟨-, h⟩ := h
    obtain ⟨-, h⟩ := h _ rfl
    obtain ⟨-, h⟩ := h _ rfl
    obtain ⟨h, -⟩ := h _ rfl
    obtain ⟨s', go, hok, -⟩ := h _ rfl
    cases hok

end Cargo.Core.Downloads.Speed
