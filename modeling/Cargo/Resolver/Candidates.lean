import Cargo.Math.Peekable
import Cargo.Resolver.Accounted
import Cargo.Resolver.Links

/-!
# Sessions of candidates

The candidates for a dependency are tried one after the other, in the context in which the
dependency was picked. All calls of `next` for it make a session. Those that do anything are to
see that context, and then they return the candidates that are valid in it.

A candidate is valid if it claims no `links` value of another package and no other version that is
compatible is active. But the iterator looks only at the first active version that is compatible.
Where there are two of them, it returns a candidate that is active itself, though another version is
active as well.

## Main definitions

* `MayActivate` — a candidate is valid in a context
* `Doubled` — the candidate is the first of several compatible versions that are active
* `Session`, `Session.ReturnsValid` — the calls for a dependency, and what they are to return
* `Session.Sees` — the calls that do anything were made in the context of the session

## Main results

* `mayActivate_iff` — what is not refused is valid or doubled
* `next_eq` — `next` is an iterator that looks ahead
* `Session.Sees.returnsValid` — a session that sees one context returns what it is to
-/

set_option autoImplicit false

namespace Cargo.Resolver

open Cargo.Core Cargo.Math

variable {S R : Type} [DecidableEq S]

/-! ### Valid candidates -/

/-- The `links` value of the candidate is not claimed by another package. -/
def LinksFree (cx : Context S R) (c : Candidate S R) : Prop :=
  ∀ link ∈ c.summary.links, ∀ a ∈ cx.links.lookup link, a = c.summary.packageId

instance (cx : Context S R) (c : Candidate S R) : Decidable (LinksFree cx c) :=
  inferInstanceAs (Decidable (∀ link ∈ c.summary.links, ∀ a ∈ cx.links.lookup link,
    a = c.summary.packageId))

/-- An active version of the package is compatible with the candidate. -/
def Rivals (c : Candidate S R) (a : Summary S R) : Bool :=
  compatible a.packageId.version c.summary.packageId.version

/-- The candidate is valid: its `links` value is free, and no different version that is compatible
is active. -/
def MayActivate (cx : Context S R) (dep : Dependency S R) (c : Candidate S R) : Prop :=
  LinksFree cx c ∧
    ∀ a ∈ cx.prevActive dep, Rivals c a = true → a.packageId = c.summary.packageId

instance (cx : Context S R) (dep : Dependency S R) (c : Candidate S R) :
    Decidable (MayActivate cx dep c) :=
  inferInstanceAs (Decidable (LinksFree cx c ∧
    ∀ a ∈ cx.prevActive dep, Rivals c a = true → a.packageId = c.summary.packageId))

/-- The `links` value of the candidate is free, and it is itself the first of the active versions
that are compatible; but there is another one. -/
def Doubled (cx : Context S R) (dep : Dependency S R) (c : Candidate S R) : Prop :=
  LinksFree cx c ∧
    (∃ a, (cx.prevActive dep).find? (Rivals c) = some a ∧ a.packageId = c.summary.packageId) ∧
    ∃ a ∈ cx.prevActive dep, Rivals c a = true ∧ a.packageId ≠ c.summary.packageId

section Valid

variable {cx : Context S R} {dep : Dependency S R} {c : Candidate S R}

omit [DecidableEq S] in
theorem linksFree_iff : LinksFree cx c ↔
    ∀ link, c.summary.links = some link → ∀ a, cx.links.lookup link = some a →
      a = c.summary.packageId := Iff.rfl

theorem refusal_eq_none_iff : refusal cx dep c = none ↔
    LinksFree cx c ∧ ∀ a, (cx.prevActive dep).find? (Rivals c) = some a →
      a.packageId = c.summary.packageId := by
  have hrivals : (cx.prevActive dep).find? (fun a =>
      compatible a.packageId.version c.summary.packageId.version) =
        (cx.prevActive dep).find? (Rivals c) := rfl
  rw [linksFree_iff]
  unfold refusal
  rw [hrivals]
  generalize (cx.prevActive dep).find? (Rivals c) = first
  -- without a `links` value of another package, the first compatible version decides
  cases hlinks : c.summary.links with
  | none => cases first <;> simp
  | some link =>
    cases hlookup : cx.links.lookup link with
    | none => cases first <;> simp [hlookup]
    | some a =>
      by_cases ha : a = c.summary.packageId
      · cases first <;> simp [hlookup, ha]
      · simp [hlookup, ha]

theorem MayActivate.refusal_eq_none (h : MayActivate cx dep c) : refusal cx dep c = none := by
  refine refusal_eq_none_iff.mpr ⟨h.1, fun a ha => ?_⟩
  exact h.2 a (List.mem_of_find?_eq_some ha) (List.find?_some ha)

/-- What is not refused is valid, unless it is doubled. -/
theorem mayActivate_iff (h : refusal cx dep c = none) :
    MayActivate cx dep c ↔ ¬Doubled cx dep c := by
  obtain ⟨hlinks, hfirst⟩ := refusal_eq_none_iff.mp h
  constructor
  · rintro hmay ⟨-, -, a, ha, hrivals, hne⟩
    exact hne (hmay.2 a ha hrivals)
  · intro hdoubled
    refine ⟨hlinks, fun a ha hrivals => ?_⟩
    by_contra hne
    apply hdoubled
    -- some version is the first that is compatible
    cases hfind : (cx.prevActive dep).find? (Rivals c) with
    | none => exact absurd hrivals (List.find?_eq_none.mp hfind a ha)
    | some first => exact ⟨hlinks, ⟨first, hfind, hfirst first hfind⟩, a, ha, hrivals, hne⟩

theorem Doubled.refusal_eq_none (h : Doubled cx dep c) : refusal cx dep c = none := by
  obtain ⟨hlinks, ⟨first, hfind, hid⟩, -⟩ := h
  refine refusal_eq_none_iff.mpr ⟨hlinks, fun a ha => ?_⟩
  rw [hfind, Option.some.injEq] at ha
  rw [← ha, hid]

end Valid

/-! ### Calls of `next` -/

/-- A call of `next`, with all that it reads. -/
structure NextCall (S R : Type) where
  context : Context S R
  dep : Dependency S R
  before : RemainingCandidates S R
  conflicting : Conflicts S

namespace NextCall

/-- The candidate that is returned. -/
def returned (call : NextCall S R) : Option (Candidate S R × Bool) :=
  (call.before.next call.conflicting call.context call.dep).1

def after (call : NextCall S R) : RemainingCandidates S R :=
  (call.before.next call.conflicting call.context call.dep).2.1

/-- The packages that are recorded as reasons. -/
def noted (call : NextCall S R) : Conflicts S :=
  (call.before.next call.conflicting call.context call.dep).2.2

/-- The call examines or returns a candidate. -/
def Works (call : NextCall S R) : Prop := ¬Exhausted call.before

/-- The candidates that are taken from the list. -/
def examined (call : NextCall S R) : List (Candidate S R) :=
  call.before.remaining.take (call.before.remaining.length - call.after.remaining.length)

end NextCall

/-- All calls for one dependency that was picked. -/
structure Session (S R : Type) where
  context : Context S R
  dep : Dependency S R
  candidates : List (Candidate S R)
  calls : List (NextCall S R)

namespace Session

def add (session : Session S R) (call : NextCall S R) : Session S R :=
  { session with calls := session.calls ++ [call] }

def returned (session : Session S R) : List (Candidate S R × Bool) :=
  session.calls.filterMap NextCall.returned

/-- The last candidate was returned, and a call has said so. -/
def Ended (session : Session S R) : Prop := ∃ call ∈ session.calls, call.returned = none

/-- The candidate is refused because of an active package that is recorded: it claims the same
`links` value, or is a different version that is compatible. -/
def Recorded (call : NextCall S R) (c : Candidate S R) : Prop :=
  ∃ id ∈ call.noted, call.context.isActive id = true ∧ id ≠ c.summary.packageId ∧
    ((∃ a ∈ call.context.prevActive call.dep, a.packageId = id ∧ Rivals c a = true) ∨
      ∃ link, c.summary.links = some link ∧ call.context.links.lookup link = some id)

/-- The calls that do anything see the context in which the dependency was picked. They return the
candidates that are valid in it in order, each with whether another one follows, and all of them
if they come to the end; and for each candidate that is skipped, the reason is recorded. -/
structure ReturnsValid (session : Session S R) : Prop where
  same : ∀ call ∈ session.calls, call.Works →
    call.context = session.context ∧ call.dep = session.dep
  returned : session.returned <+:
    outcomes (session.candidates.filter fun c => MayActivate session.context session.dep c)
  ended : session.Ended → session.returned =
    outcomes (session.candidates.filter fun c => MayActivate session.context session.dep c)
  recorded : ∀ call ∈ session.calls, ∀ c ∈ call.examined,
    refusal call.context call.dep c ≠ none → Recorded call c

/-- No candidate is doubled. -/
def Undoubled (session : Session S R) : Prop :=
  ∀ c ∈ session.candidates, ¬Doubled session.context session.dep c

end Session

/-! ### One call -/

section Calls

variable {cx : Context S R} {dep : Dependency S R}

/-- The iterator does not refuse the candidate. -/
def accepts (cx : Context S R) (dep : Dependency S R) (c : Candidate S R) : Bool :=
  (refusal cx dep c).isNone

def RemainingCandidates.peekable (rc : RemainingCandidates S R) : Peekable (Candidate S R) :=
  ⟨rc.remaining, rc.hasAnother⟩

theorem nextLoop_eq (cx : Context S R) (dep : Dependency S R) (rest : List (Candidate S R))
    (another : Option (Candidate S R)) (con : Conflicts S) :
    ((RemainingCandidates.nextLoop cx dep rest another con).1,
      (RemainingCandidates.nextLoop cx dep rest another con).2.1.peekable) =
        Peekable.nextLoop (accepts cx dep) rest another := by
  induction rest generalizing another con with
  | nil => rfl
  | cons b rest ih =>
    rw [RemainingCandidates.nextLoop.eq_def, Peekable.nextLoop.eq_def]
    dsimp only
    cases hrefusal : refusal cx dep b with
    | none =>
      rw [if_pos (by simp [accepts, hrefusal])]
      cases another with
      | none => exact ih _ _
      | some r => rfl
    | some reason =>
      rw [if_neg (by simp [accepts, hrefusal])]
      exact ih _ _

/-- The candidates still to be returned. -/
def RemainingCandidates.pending (cx : Context S R) (dep : Dependency S R)
    (rc : RemainingCandidates S R) : List (Candidate S R) :=
  rc.peekable.pending (accepts cx dep)

/-- `next` is an iterator that looks ahead. -/
theorem next_eq (cx : Context S R) (dep : Dependency S R) (rc : RemainingCandidates S R)
    (con : Conflicts S) :
    (rc.next con cx dep).1 = (outcomes (rc.pending cx dep)).head? ∧
      (rc.next con cx dep).2.1.pending cx dep = (rc.pending cx dep).tail := by
  have heq := nextLoop_eq cx dep rc.remaining rc.hasAnother con
  obtain ⟨hreturned, hafter⟩ := Prod.ext_iff.mp heq
  refine ⟨hreturned.trans (Peekable.next_fst _ rc.peekable), ?_⟩
  unfold RemainingCandidates.pending
  exact (congrArg _ hafter).trans (Peekable.pending_next _ rc.peekable)

theorem nextLoop_last {rest : List (Candidate S R)} {another : Option (Candidate S R)}
    {con con' : Conflicts S} {c : Candidate S R} {rc : RemainingCandidates S R}
    (h : RemainingCandidates.nextLoop cx dep rest another con = (some (c, false), rc, con')) :
    Exhausted rc := by
  induction rest generalizing another con with
  | nil =>
    cases another with
    | none => cases h
    | some r =>
      cases h
      exact ⟨rfl, rfl⟩
  | cons b rest ih =>
    rw [RemainingCandidates.nextLoop.eq_def] at h
    dsimp only at h
    split at h
    · exact ih h
    · split at h
      · cases h
      · exact ih h

/-- What is taken from the list and refused is recorded. -/
theorem nextLoop_noted (cx : Context S R) (dep : Dependency S R) (rest : List (Candidate S R))
    (another : Option (Candidate S R)) (con : Conflicts S) :
    ∃ taken, rest = taken ++ (RemainingCandidates.nextLoop cx dep rest another con).2.1.remaining ∧
      ∀ c ∈ taken, ∀ id reason, refusal cx dep c = some (id, reason) →
        id ∈ (RemainingCandidates.nextLoop cx dep rest another con).2.2 := by
  induction rest generalizing another con with
  | nil => exact ⟨[], rfl, fun c hc => by cases hc⟩
  | cons b rest ih =>
    rw [RemainingCandidates.nextLoop.eq_def]
    dsimp only
    cases hrefusal : refusal cx dep b with
    | some refused =>
      obtain ⟨id, reason⟩ := refused
      -- what is noted now stays noted
      obtain ⟨taken, hrest, hnoted⟩ := ih another (con.orInsert id reason)
      have hkept : ∀ id' ∈ con.orInsert id reason,
          id' ∈ (RemainingCandidates.nextLoop cx dep rest another (con.orInsert id reason)).2.2 :=
        (nextLoop_accounts rfl).1
      refine ⟨b :: taken, by rw [List.cons_append, ← hrest], fun c hc id' reason' hid => ?_⟩
      rcases List.mem_cons.mp hc with rfl | hc
      · rw [hrefusal] at hid
        cases hid
        exact hkept id (Conflicts.mem_orInsert.mpr (.inl rfl))
      · exact hnoted c hc id' reason' hid
    | none =>
      cases another with
      | some r =>
        -- the stashed candidate is returned, and `b` was not refused
        refine ⟨[b], rfl, fun c hc id reason hid => ?_⟩
        rw [List.mem_singleton.mp hc, hrefusal] at hid
        cases hid
      | none =>
        obtain ⟨taken, hrest, hnoted⟩ := ih (some b) con
        refine ⟨b :: taken, by rw [List.cons_append, ← hrest], fun c hc id reason hid => ?_⟩
        rcases List.mem_cons.mp hc with rfl | hc
        · rw [hrefusal] at hid
          cases hid
        · exact hnoted c hc id reason hid

/-- Every `links` value that is taken belongs to an active package, and active packages are where
they belong. -/
structure Traceable (cx : Context S R) : Prop where
  links : LinksActive cx
  slots : ∀ slot, ∀ s ∈ cx.active slot, s.packageId.slot = slot

theorem traceable_stable : Stable (Traceable : Context S R → Prop) where
  congr hactive hlinks h := by
    refine ⟨linksActive_stable.congr hactive hlinks h.links, ?_⟩
    rw [hactive]
    exact h.slots
  added hadded h := by
    refine ⟨linksActive_stable.added hadded h.links, fun slot s hs => ?_⟩
    rw [hadded.active] at hs
    split at hs
    · rename_i hslot
      rcases List.mem_append.mp hs with hs | hs
      · exact h.slots slot s hs
      · rw [List.mem_singleton.mp hs, hslot]
    · exact h.slots slot s hs

/-- The reason for which a candidate is skipped is recorded, and is an active package. -/
theorem recorded_of_examined {call : NextCall S R} (h : Traceable call.context)
    {c : Candidate S R} (hc : c ∈ call.examined)
    (hrefused : refusal call.context call.dep c ≠ none) :
    Session.Recorded call c := by
  obtain ⟨taken, hrest, hnoted⟩ := nextLoop_noted call.context call.dep
    call.before.remaining call.before.hasAnother call.conflicting
  have hexamined : call.examined = taken := by
    have hlength : call.before.remaining.length - call.after.remaining.length = taken.length := by
      rw [hrest, List.length_append]
      exact Nat.add_sub_cancel _ _
    rw [NextCall.examined, hlength, hrest]
    exact List.take_left
  rw [hexamined] at hc
  obtain ⟨⟨id, reason⟩, hrefusal⟩ := Option.ne_none_iff_exists'.mp hrefused
  obtain ⟨hne, hreason⟩ := refusal_eq_some hrefusal
  refine ⟨id, hnoted c hc id reason hrefusal, ?_, hne, hreason⟩
  rcases hreason with ⟨a, ha, rfl, -⟩ | ⟨link, -, hlookup⟩
  · refine Context.isActive_iff.mpr ⟨a, ?_, rfl⟩
    rw [h.slots _ a ha]
    exact ha
  · exact h.links link id hlookup

/-- Calls that follow each other, all in the context `cx`: they lead from `rc` to `rc'`. -/
def Chained (cx : Context S R) (dep : Dependency S R) :
    RemainingCandidates S R → List (NextCall S R) → RemainingCandidates S R → Prop
  | rc, [], rc' => rc = rc'
  | rc, call :: calls, rc' =>
    call.context = cx ∧ call.dep = dep ∧ call.before = rc ∧ Chained cx dep call.after calls rc'

variable {rc rc' : RemainingCandidates S R} {calls : List (NextCall S R)}

theorem Chained.concat (h : Chained cx dep rc calls rc') (con : Conflicts S) :
    Chained cx dep rc (calls ++ [⟨cx, dep, rc', con⟩]) (rc'.next con cx dep).2.1 := by
  induction calls generalizing rc with
  | nil => exact ⟨rfl, rfl, h.symm, rfl⟩
  | cons call calls ih =>
    obtain ⟨hcontext, hdep, hbefore, h⟩ := h
    exact ⟨hcontext, hdep, hbefore, ih h⟩

theorem Chained.same (h : Chained cx dep rc calls rc') :
    ∀ call ∈ calls, call.context = cx ∧ call.dep = dep := by
  induction calls generalizing rc with
  | nil => exact fun call hcall => by cases hcall
  | cons call calls ih =>
    obtain ⟨hcontext, hdep, -, h⟩ := h
    intro call' hcall'
    rcases List.mem_cons.mp hcall' with rfl | hcall'
    · exact ⟨hcontext, hdep⟩
    · exact ih h call' hcall'

/-- Each call returns the next of the candidates that were to be returned. -/
theorem Chained.returned (h : Chained cx dep rc calls rc') :
    calls.filterMap NextCall.returned = (outcomes (rc.pending cx dep)).take calls.length ∧
      rc'.pending cx dep = (rc.pending cx dep).drop calls.length := by
  induction calls generalizing rc with
  | nil =>
    cases h
    exact ⟨rfl, rfl⟩
  | cons call calls ih =>
    obtain ⟨rfl, rfl, rfl, h⟩ := h
    obtain ⟨hreturned, hpending⟩ := ih h
    obtain ⟨hfirst, hafter⟩ := next_eq call.context call.dep call.before call.conflicting
    rw [NextCall.after, hafter] at hreturned hpending
    rw [outcomes_tail] at hreturned
    constructor
    · have hcall : call.returned =
          (outcomes (call.before.pending call.context call.dep)).head? := hfirst
      cases hlist : outcomes (call.before.pending call.context call.dep) with
      | nil =>
        rw [hlist] at hcall hreturned
        rw [List.filterMap_cons_none hcall, hreturned, List.take_nil]
        exact List.take_nil
      | cons first others =>
        rw [hlist] at hcall hreturned
        rw [List.filterMap_cons_some hcall, hreturned, List.length_cons, List.take_succ_cons]
        rfl
    · rw [hpending, List.length_cons, List.drop_tail]

/-- Once a call has returned nothing, nothing is to be returned. -/
theorem Chained.pending_eq_nil (h : Chained cx dep rc calls rc') {call : NextCall S R}
    (hcall : call ∈ calls) (hnone : call.returned = none) : rc'.pending cx dep = [] := by
  induction calls generalizing rc with
  | nil => cases hcall
  | cons first calls ih =>
    obtain ⟨rfl, rfl, rfl, h⟩ := h
    rcases List.mem_cons.mp hcall with rfl | hcall
    · obtain ⟨hfirst, hafter⟩ := next_eq call.context call.dep call.before call.conflicting
      have hbefore := outcomes_head?_eq_none.mp (hfirst.symm.trans hnone)
      rw [(h.returned).2, NextCall.after, hafter, hbefore, List.tail_nil, List.drop_nil]
    · exact ih h hcall

theorem pending_of_exhausted (h : Exhausted rc) : rc.pending cx dep = [] := by
  rw [RemainingCandidates.pending, Peekable.pending, RemainingCandidates.peekable, h.1, h.2]
  rfl

theorem pending_new (candidates : List (Candidate S R)) :
    (RemainingCandidates.new candidates).pending cx dep = candidates.filter (accepts cx dep) := rfl

end Calls

/-! ### Sessions -/

section Sessions

variable {P : Context S R → Prop} {session : Session S R} {rc : RemainingCandidates S R}

/-- The calls of the session were made in its context, and have led to `rc`. -/
structure Session.At (P : Context S R → Prop) (session : Session S R)
    (rc : RemainingCandidates S R) : Prop where
  holds : P session.context
  chained : Chained session.context session.dep (.new session.candidates) session.calls rc

/-- So were all but those that had nothing to do. -/
def Session.Sees (P : Context S R → Prop) (session : Session S R) : Prop :=
  P session.context ∧ ∃ calls idle rc, session.calls = calls ++ idle ∧
    Chained session.context session.dep (.new session.candidates) calls rc ∧
    (idle ≠ [] → Exhausted rc) ∧ ∀ call ∈ idle, Exhausted call.before

theorem Session.At.sees (h : session.At P rc) : session.Sees P :=
  ⟨h.holds, session.calls, [], rc, by simp, h.chained, by simp, by simp⟩

/-- A call in the context of the session. -/
theorem Session.At.add (h : session.At P rc) (con : Conflicts S) :
    (session.add ⟨session.context, session.dep, rc, con⟩).At P
      (rc.next con session.context session.dep).2.1 :=
  ⟨h.holds, h.chained.concat con⟩

/-- A call in whatever context, when no candidate is left. -/
theorem Session.At.add_idle (h : session.At P rc) (hrc : Exhausted rc) (cx : Context S R)
    (dep : Dependency S R) (con : Conflicts S) : (session.add ⟨cx, dep, rc, con⟩).Sees P := by
  refine ⟨h.holds, session.calls, [⟨cx, dep, rc, con⟩], rc, rfl, h.chained, fun _ => hrc, ?_⟩
  intro call hcall
  rw [List.mem_singleton.mp hcall]
  exact hrc

/-- What a session returns are the candidates that are not refused in its context. -/
theorem Session.Sees.returned (h : session.Sees P) :
    session.returned <+:
        outcomes (session.candidates.filter (accepts session.context session.dep)) ∧
      (session.Ended → session.returned =
        outcomes (session.candidates.filter (accepts session.context session.dep))) := by
  obtain ⟨-, calls, idle, rc, hcalls, hchained, hexhausted, hidle⟩ := h
  obtain ⟨hreturned, hpending⟩ := hchained.returned
  rw [pending_new] at hreturned hpending
  -- calls that have nothing to do return nothing
  have hnone : idle.filterMap NextCall.returned = [] := by
    rw [List.filterMap_eq_nil_iff]
    intro call hcall
    rw [NextCall.returned, next_of_exhausted (hidle call hcall)]
  have hsession : session.returned = calls.filterMap NextCall.returned := by
    rw [Session.returned, hcalls, List.filterMap_append, hnone, List.append_nil]
  rw [hsession, hreturned]
  refine ⟨List.take_prefix _ _, fun hended => ?_⟩
  obtain ⟨call, hcall, hreturnedNone⟩ := hended
  have hdone : rc.pending session.context session.dep = [] := by
    rw [hcalls] at hcall
    rcases List.mem_append.mp hcall with hcall | hcall
    · exact hchained.pending_eq_nil hcall hreturnedNone
    · exact pending_of_exhausted (hexhausted (List.ne_nil_of_mem hcall))
  rw [hdone] at hpending
  apply List.take_of_length_le
  rw [length_outcomes]
  exact List.drop_eq_nil_iff.mp hpending.symm

theorem Session.Sees.same (h : session.Sees P) {call : NextCall S R} (hcall : call ∈ session.calls)
    (hworks : call.Works) : call.context = session.context ∧ call.dep = session.dep := by
  obtain ⟨-, calls, idle, rc, hcalls, hchained, -, hidle⟩ := h
  rw [hcalls] at hcall
  rcases List.mem_append.mp hcall with hcall | hcall
  · exact hchained.same call hcall
  · exact absurd (hidle call hcall) hworks

theorem Session.Sees.recorded (h : session.Sees Traceable) {call : NextCall S R}
    (hcall : call ∈ session.calls) {c : Candidate S R} (hc : c ∈ call.examined)
    (hrefused : refusal call.context call.dep c ≠ none) : Session.Recorded call c := by
  have hworks : call.Works := by
    intro hexhausted
    rw [NextCall.examined, hexhausted.1, List.take_nil] at hc
    cases hc
  refine recorded_of_examined ?_ hc hrefused
  rw [(h.same hcall hworks).1]
  exact h.1

/-- A session returns the valid candidates if no candidate is doubled, and if it comes to the end,
then only if. -/
theorem Session.Sees.returnsValid (h : session.Sees Traceable) :
    (session.Undoubled → session.ReturnsValid) ∧
      (session.Ended → session.ReturnsValid → session.Undoubled) := by
  obtain ⟨hpre, hended⟩ := h.returned
  constructor
  · intro hundoubled
    have hfilter : session.candidates.filter (accepts session.context session.dep) =
        session.candidates.filter fun c => MayActivate session.context session.dep c := by
      apply List.filter_congr
      intro c hc
      rw [accepts, Bool.eq_iff_iff, Option.isNone_iff_eq_none, decide_eq_true_iff]
      constructor
      · exact fun hrefusal => (mayActivate_iff hrefusal).mpr (hundoubled c hc)
      · exact MayActivate.refusal_eq_none
    rw [hfilter] at hpre hended
    exact ⟨fun call hcall hworks => h.same hcall hworks, hpre, hended,
      fun call hcall c hc hrefused => h.recorded hcall hc hrefused⟩
  · intro hend hreturns c hc hdoubled
    have heq := outcomes_injective ((hended hend).symm.trans (hreturns.ended hend))
    -- the doubled candidate is returned, but not valid
    have hmem : c ∈ session.candidates.filter (accepts session.context session.dep) := by
      refine List.mem_filter.mpr ⟨hc, ?_⟩
      rw [accepts, hdoubled.refusal_eq_none]
      rfl
    rw [heq] at hmem
    have hmay : MayActivate session.context session.dep c := by
      simpa using (List.mem_filter.mp hmem).2
    exact (mayActivate_iff hdoubled.refusal_eq_none).mp hmay hdoubled

end Sessions

end Cargo.Resolver
