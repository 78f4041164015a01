import Cargo.Resolver.Bounds
import Cargo.Resolver.Failures

/-!
# Clashes of `links`

Only one package of a graph may claim a `links` value. `next` skips the candidates whose value is
taken, so that the search tries another one. `activate` checks again, and a clash that it finds
ends the search for good. The second check also sees the package that replaces a candidate, of
which `next` knows nothing.

## Main definitions

* `Machine.call` — the call of `activate` in the next step
* `LinksActive` — a `links` value is taken by an active package only
* `Clashes` — the replacement of a candidate claims a value that is taken

## Main results

* `activate_duplicateLinks_iff` — one call of `activate`
* `aborts_iff` — every call that the main loop makes
-/

set_option autoImplicit false

namespace Cargo.Resolver

open Cargo.Core Cargo.Math

variable {S R : Type} [DecidableEq S]

/-! ### Calls of `activate` -/

/-- The arguments of a call of `activate` from the main loop. -/
structure Call (S R : Type) where
  cx : Context S R
  parent : Summary S R
  dep : Dependency S R
  candidate : Candidate S R
  features : List String

/-- What the candidate is asked for. -/
def Call.method (call : Call S R) : Method :=
  .required false call.features false call.dep.defaultFeatures

/-- What the call returns. -/
def Call.result (env : Env S R) (call : Call S R) :
    Except (Failure S R) (Context S R × Activation S R) :=
  activate env call.cx (some (call.parent, call.dep)) call.candidate call.method

/-- The call of `activate` in the next step, if there is one. -/
def Machine.call : Machine S R → Option (Call S R)
  | .inner s a =>
    match a.remainingCandidates.next a.conflicting s.cx a.dep with
    | (some (c, more), _, _) =>
      if a.justHere && !a.backtracked && more then none
      else some ⟨s.cx, a.parent, a.dep, c, a.features⟩
    | (none, _, conflicting) =>
      (findCandidate a.parent a.backtracked conflicting s.backtrackStack).map
        fun (c, _, frame, _) => ⟨frame.context, frame.parent, frame.dep, c, frame.features⟩
  | _ => none

/-- The next step calls `activate`, which ends the search because of a `links` value. -/
def Aborts (env : Env S R) (m : Machine S R) : Prop :=
  ∃ call link, m.call = some call ∧ call.result env = .error (.duplicateLinks link)

/-- The replacement of the candidate is new and claims a `links` value that is taken in the
context or by the candidate itself. -/
def Clashes (cx : Context S R) (c : Candidate S R) : Prop :=
  ∃ replace link, c.replace = some replace ∧ replace.links = some link ∧
    cx.isActive replace.packageId = false ∧ replace.packageId ≠ c.summary.packageId ∧
    (cx.links.lookup link ≠ none ∨
      cx.isActive c.summary.packageId = false ∧ c.summary.links = some link)

/-- A `links` value is taken by an active package only. -/
def LinksActive (cx : Context S R) : Prop :=
  ∀ link id, cx.links.lookup link = some id → cx.isActive id = true

/-! ### One call -/

section Activate

variable {env : Env S R} {cx cx' : Context S R} {parent : Option (Summary S R × Dependency S R)}
  {c : Candidate S R} {method : Method} {dep : Dependency S R}

/-- A candidate that is not refused claims no value of another package. -/
theorem links_of_refusal (h : refusal cx dep c = none) {link : String}
    (hlink : c.summary.links = some link) :
    cx.links.lookup link = none ∨ cx.links.lookup link = some c.summary.packageId := by
  unfold refusal at h
  simp only [hlink] at h
  cases hlookup : cx.links.lookup link with
  | none => exact .inl rfl
  | some id =>
    by_cases hid : id = c.summary.packageId
    · exact .inr (hid ▸ rfl)
    · simp [hlookup, hid] at h

/-- The context after it was noted that a package replaces another one. -/
def Context.noteReplacement (cx : Context S R) (summary replace : Summary S R) : Context S R :=
  { cx with
    resolveReplacements := (summary.packageId, replace.packageId) :: cx.resolveReplacements }

/-- A property of contexts that sees only the active packages and the `links` values, and is kept
when a package is added. -/
structure Stable (P : Context S R → Prop) : Prop where
  congr : ∀ {cx cx' : Context S R}, cx'.active = cx.active → cx'.links = cx.links → P cx → P cx'
  added : ∀ {cx cx' : Context S R} {s : Summary S R}, Context.Added cx s cx' → P cx → P cx'

section Stable

variable {P : Context S R → Prop} {s : Summary S R}

theorem Stable.flagActivated (hP : Stable P) (h : P cx) {b : Bool}
    (hflag : cx.flagActivated s method = .ok (b, cx')) : P cx' := by
  rcases Context.flagActivated_ok hflag with ⟨-, -, rfl⟩ | ⟨-, hadded⟩
  · exact h
  · exact hP.added hadded h

theorem Stable.expand (hP : Stable P) (h : P cx) {p : Option (Summary S R)}
    {out : Activation S R} (hexpand : Resolver.expand env cx p s method = .ok (cx', out)) :
    P cx' := by
  rcases expand_cases hexpand with ⟨reqs, infos, hexp, -⟩ | ⟨id, reason, hlacking, -⟩
  · exact hP.congr hexp.same.active hexp.same.links h
  · exact hP.congr hlacking.same.active hlacking.same.links h

/-- Such a property is kept by activation. -/
theorem Stable.activate (hP : Stable P) (h : P cx) {out : Activation S R}
    (hactivate : Resolver.activate env cx parent c method = .ok (cx', out)) : P cx' := by
  -- the edge from the parent is not seen
  have hlink : P (cx.link parent c) := by
    cases parent with
    | none => exact h
    | some p => refine hP.congr ?_ ?_ h <;> rfl
  obtain ⟨⟨activated, mid⟩, hflag, hactivate⟩ := bind_eq_ok.mp hactivate
  have hmid := hP.flagActivated hlink hflag
  cases hreplace : c.replace with
  | none =>
    simp only [hreplace] at hactivate
    split at hactivate
    · cases hactivate
      exact hmid
    · exact hP.expand hmid hactivate
  | some replace =>
    simp only [hreplace] at hactivate
    obtain ⟨⟨replaceActivated, mid'⟩, hflag', hactivate⟩ := bind_eq_ok.mp hactivate
    have hnoted : P (mid.noteReplacement c.summary replace) := by
      refine hP.congr ?_ ?_ hmid <;> rfl
    have hmid' := hP.flagActivated hnoted hflag'
    simp only at hactivate
    split at hactivate
    · cases hactivate
      exact hmid'
    · exact hP.expand hmid' hactivate

end Stable

theorem linksActive_stable : Stable (LinksActive : Context S R → Prop) where
  congr hactive hlinks h link id hlookup := by
    rw [hlinks] at hlookup
    have hid := h link id hlookup
    rw [Context.isActive_iff] at hid ⊢
    rwa [hactive]
  added hadded h link id hlookup := by
    rw [hadded.isActive]
    rw [hadded.links] at hlookup
    split at hlookup
    · cases hlookup
      exact .inr rfl
    · exact .inl (h link id hlookup)

/-- The values that are taken after a package was flagged. -/
theorem links_of_flagActivated {s : Summary S R} {b : Bool}
    (h : cx.flagActivated s method = .ok (b, cx')) (link : String) :
    cx'.links.lookup link ≠ none ↔ cx.links.lookup link ≠ none ∨
      cx.isActive s.packageId = false ∧ s.links = some link := by
  rcases Context.flagActivated_ok h with ⟨hactive, -, rfl⟩ | ⟨-, hadded⟩
  · simp [hactive]
  · rw [hadded.links]
    split
    · rename_i hlink
      simp [hlink, hadded.inactive]
    · rename_i hlink
      simp [hlink]

/-- The candidate itself is flagged without a clash. -/
theorem exists_flagActivated (h : LinksActive cx) (hvalid : refusal cx dep c = none) :
    ∃ b mid, (cx.link parent c).flagActivated c.summary method = .ok (b, mid) := by
  have hlinks : (cx.link parent c).links = cx.links := by cases parent <;> rfl
  cases hflag : (cx.link parent c).flagActivated c.summary method with
  | ok result => exact ⟨result.1, result.2, rfl⟩
  | error e =>
    obtain ⟨link, -, hinactive, hlink, htaken⟩ := flagActivated_eq_error_iff.mp hflag
    rw [hlinks] at htaken
    rw [(link_marks cx parent c).1] at hinactive
    rcases links_of_refusal hvalid hlink with hfree | hself
    · exact absurd hfree htaken
    · rw [h link _ hself] at hinactive
      cases hinactive

theorem activate_of_none (hreplace : c.replace = none) {b : Bool} {mid : Context S R}
    (hflag : (cx.link parent c).flagActivated c.summary method = .ok (b, mid)) :
    activate env cx parent c method =
      if b then .ok (mid, .already)
      else expand env mid (parent.map Prod.fst) c.summary method := by
  unfold activate
  rw [hflag]
  simp only [hreplace]
  rfl

theorem activate_of_some {replace : Summary S R} (hreplace : c.replace = some replace) {b : Bool}
    {mid : Context S R}
    (hflag : (cx.link parent c).flagActivated c.summary method = .ok (b, mid)) :
    activate env cx parent c method =
      (mid.noteReplacement c.summary replace).flagActivated replace method >>= fun flagged =>
        if flagged.1 && b then .ok (flagged.2, .already)
        else expand env flagged.2 (parent.map Prod.fst) replace method := by
  unfold activate
  rw [hflag]
  simp only [hreplace]
  rfl

/-- Where no `links` value is at fault, the dependencies are looked for or nothing is to be done. -/
theorem ne_duplicateLinks {b : Bool} {mid : Context S R} {p : Option (Summary S R)}
    {s : Summary S R} {link : String} :
    (if b then .ok (mid, .already) else expand env mid p s method) ≠
      .error (.duplicateLinks link) := by
  split
  · nofun
  · exact fun he => expand_failsAs env mid p s method _ he

/-- A candidate that `next` returns is activated without a clash unless its replacement brings
one. -/
theorem activate_duplicateLinks_iff (h : LinksActive cx) (hvalid : refusal cx dep c = none) :
    (∃ link, activate env cx parent c method = .error (.duplicateLinks link)) ↔ Clashes cx c := by
  have hflagged : ∃ b mid, (cx.link parent c).flagActivated c.summary method = .ok (b, mid) :=
    exists_flagActivated h hvalid
  obtain ⟨b, mid, hflag⟩ := hflagged
  have hlinked : (cx.link parent c).links = cx.links := by cases parent <;> rfl
  have hactive := (flagActivated_marks hflag).1
  have hlinks := links_of_flagActivated hflag
  rw [(link_marks cx parent c).1] at hactive
  rw [hlinked, (link_marks cx parent c).1] at hlinks
  cases hreplace : c.replace with
  | none =>
    rw [activate_of_none hreplace hflag]
    constructor
    · rintro ⟨link, he⟩
      exact absurd he ne_duplicateLinks
    · rintro ⟨replace, link, hsome, -⟩
      cases hreplace.symm.trans hsome
  | some replace =>
    rw [activate_of_some hreplace hflag]
    -- the candidate itself went through, so that only what replaces it can clash
    have hnoted : ∀ id, (mid.noteReplacement c.summary replace).isActive id = mid.isActive id :=
      fun _ => rfl
    constructor
    · rintro ⟨link, he⟩
      cases hsecond : (mid.noteReplacement c.summary replace).flagActivated replace method with
      | ok result =>
        rw [hsecond] at he
        exact absurd he ne_duplicateLinks
      | error e =>
        obtain ⟨link', -, hinactive, hlink, htaken⟩ := flagActivated_eq_error_iff.mp hsecond
        rw [hnoted, Bool.eq_false_iff, Ne, hactive, not_or] at hinactive
        exact ⟨replace, link', hreplace, hlink, Bool.eq_false_iff.mpr hinactive.1, hinactive.2,
          (hlinks link').mp htaken⟩
    · rintro ⟨replace', link, hsome, hlink, hinactive, hne, htaken⟩
      cases hreplace.symm.trans hsome
      refine ⟨link, ?_⟩
      have hsecond : (mid.noteReplacement c.summary replace).flagActivated replace method =
          .error (.duplicateLinks link) := by
        refine flagActivated_eq_error_iff.mpr ⟨link, rfl, ?_, hlink, (hlinks link).mpr htaken⟩
        rw [hnoted, Bool.eq_false_iff, Ne, hactive, not_or]
        exact ⟨Bool.eq_false_iff.mp hinactive, hne⟩
      rw [hsecond]
      rfl

end Activate

/-! ### Every call -/

section Run

variable [DecidableEq R] {env : Env S R} {roots : List (Summary S R × Method)}

omit [DecidableEq R] in
theorem Stable.kept {P : Context S R → Prop} (hP : Stable P) : Kept env (fun cx _ => P cx) where
  perm _ _ _ _ h := h
  already _ _ _ _ _ _ h _ _ hactivate := hP.activate h hactivate
  frame _ _ _ _ _ _ _ h _ _ hactivate := hP.activate h hactivate

/-- The contexts of every state reached have a property that holds at the start and is kept. -/
theorem Stable.of_reaches {P : Context S R → Prop} (hP : Stable P) (hnew : P Context.new)
    {m : Machine S R} (h : Reaches env roots m) : MachineOk (fun cx _ => P cx) m := by
  refine machineOk_of_reaches hP.kept (machineOk_start hP.kept hnew ?_ ?_) h
  · intro root _ cx cx' pending hcx hactivate
    exact hP.activate hcx hactivate
  · intro root _ cx cx' frame pending hcx hactivate
    exact hP.activate hcx hactivate

/-- The contexts of every state reached have their `links` values from active packages. -/
theorem linksActive_of_reaches {m : Machine S R} (h : Reaches env roots m) :
    MachineOk (fun cx _ => LinksActive cx) m := by
  refine linksActive_stable.of_reaches ?_ h
  intro link id hlookup
  simp [Context.new] at hlookup

omit [DecidableEq R] in
/-- A candidate is activated in a context in which `next` did not refuse it. -/
theorem MachineOk.call {m : Machine S R} (h : MachineOk (fun cx _ => LinksActive cx) m)
    {call : Call S R} (hcall : m.call = some call) :
    LinksActive call.cx ∧ refusal call.cx call.dep call.candidate = none := by
  cases m with
  | outer s => cases hcall
  | done result => cases hcall
  | inner s a =>
    obtain ⟨hchoice, hstack⟩ := h
    simp only [Machine.call] at hcall
    split at hcall
    · rename_i c more rc con hnext
      split at hcall
      · cases hcall
      · cases hcall
        rcases hchoice with ⟨candidates, hcx, hrc⟩ | hexhausted
        · obtain ⟨-, hvalid, -⟩ := nextLoop_some hnext hrc
          exact ⟨hcx, hvalid⟩
        · rw [next_of_exhausted hexhausted] at hnext
          cases hnext
    · rename_i rc con hnext
      obtain ⟨⟨c, more, frame, stack⟩, hfind, heq⟩ := Option.map_eq_some_iff.mp hcall
      cases heq
      obtain ⟨skipped, frame₀, hstackEq, hnext', hframe⟩ := findCandidate_some hfind
      obtain ⟨candidates, hcx, hrc⟩ := hstack frame₀ (by rw [hstackEq]; simp)
      obtain ⟨-, hvalid, -⟩ := nextLoop_some hnext' hrc
      rw [hframe]
      exact ⟨hcx, hvalid⟩

omit [DecidableEq S] [DecidableEq R] in
theorem fail_ne_done (s : Search S R) (a : Attempt S R) (more : Bool) (cx : Context S R)
    (result : Except (Failure S R) (Context S R)) : fail s a more cx ≠ .done result := by
  simp [fail]

theorem pushFrame_ne_done (s : Search S R) (a : Attempt S R) (more : Bool) (cx : Context S R)
    (pid : PackageId S) (frame : DepsFrame S R) (result : Except (Failure S R) (Context S R)) :
    pushFrame env s a more cx pid frame ≠ .done result := by
  unfold pushFrame
  dsimp only
  split
  · simp
  · exact fail_ne_done _ _ _ _ _

/-- Trying a candidate ends the search only if `activate` fails. -/
theorem tryCandidate_eq_done_iff {s : Search S R} {a : Attempt S R} {c : Candidate S R}
    {more : Bool} {result : Except (Failure S R) (Context S R)} :
    tryCandidate env s a c more = .done result ↔
      (a.justHere && !a.backtracked && more) = false ∧
        ∃ e, activate env s.cx (some (a.parent, a.dep)) c a.method = .error e ∧
          result = .error e := by
  unfold tryCandidate
  split
  · rename_i hskip
    simp [hskip]
  · rename_i hskip
    rw [Bool.eq_false_iff.mpr hskip]
    cases activate env s.cx (some (a.parent, a.dep)) c a.method with
    | error e =>
      simp only [Machine.done.injEq, true_and, Except.error.injEq, exists_eq_left']
      exact eq_comm
    | ok outcome =>
      obtain ⟨cx, out⟩ := outcome
      cases out with
      | already => simp
      | frame frame => simp [pushFrame_ne_done]
      | conflict id reason => simp [fail_ne_done]

/-- The step ends the search because of a `links` value exactly if `activate` says so. -/
theorem step_duplicateLinks_iff {m : Machine S R} {link : String}
    (hm : ∀ result, m ≠ .done result) :
    step env m = .done (.error (.duplicateLinks link)) ↔
      ∃ call, m.call = some call ∧ call.result env = .error (.duplicateLinks link) := by
  cases m with
  | done result => exact absurd rfl (hm result)
  | outer s =>
    simp only [step, outerStep, Machine.call]
    split
    · simp
    · simp
  | inner s a =>
    simp only [step, innerStep, Machine.call]
    rcases a.remainingCandidates.next a.conflicting s.cx a.dep with ⟨_ | ⟨c, more⟩, rc, con⟩
    -- a search that is here for the error messages only skips all candidates but the last
    · dsimp only
      unfold backtrack
      dsimp only
      cases findCandidate a.parent a.backtracked con s.backtrackStack with
      | none => simp
      | some found =>
        obtain ⟨c, more, frame, stack⟩ := found
        dsimp only
        rw [Option.map_some, tryCandidate_eq_done_iff]
        simp only [Option.some.injEq, exists_eq_left']
        constructor
        · rintro ⟨-, e, he, heq⟩
          cases heq
          exact he
        · intro he
          exact ⟨by simp, _, he, rfl⟩
    · dsimp only
      rw [tryCandidate_eq_done_iff]
      split
      · rename_i hskip
        simp [hskip]
      · rename_i hskip
        simp only [Bool.eq_false_iff.mpr hskip, true_and, Option.some.injEq, exists_eq_left']
        constructor
        · rintro ⟨e, he, heq⟩
          cases heq
          exact he
        · intro he
          exact ⟨_, he, rfl⟩

/-! ### The roots -/

/-- No two roots claim the same `links` value. -/
def DistinctLinks (roots : List (Summary S R × Method)) : Prop :=
  ∀ a ∈ roots, ∀ b ∈ roots, ∀ link, a.1.links = some link → b.1.links = some link →
    a.1.packageId = b.1.packageId

/-- The values that are taken after the roots of a list were activated. -/
def TakenBy (pre : List (Summary S R × Method)) (cx : Context S R) : Prop :=
  ∀ link id, cx.links.lookup link = some id →
    cx.isActive id = true ∧ ∃ root ∈ pre, root.1.packageId = id ∧ root.1.links = some link

omit [DecidableEq R] in
theorem TakenBy.activate {pre : List (Summary S R × Method)} {cx cx' : Context S R}
    {root : Summary S R × Method} {out : Activation S R} (h : TakenBy pre cx)
    (hactivate : Resolver.activate env cx none ⟨root.1, none⟩ root.2 = .ok (cx', out)) :
    TakenBy (pre ++ [root]) cx' := by
  obtain ⟨⟨activated, mid⟩, hflag, -⟩ := bind_eq_ok.mp hactivate
  have hlinks : cx'.links = mid.links ∧ cx'.isActive = mid.isActive := by
    rw [activate_of_none rfl hflag] at hactivate
    split at hactivate
    · cases hactivate
      exact ⟨rfl, rfl⟩
    · rcases expand_cases hactivate with ⟨reqs, infos, hexp, -⟩ | ⟨id, reason, hlacking, -⟩
      · exact ⟨hexp.same.links, hexp.same.isActive⟩
      · exact ⟨hlacking.same.links, hlacking.same.isActive⟩
  intro link id hlookup
  rw [hlinks.2]
  rw [hlinks.1] at hlookup
  have hactive := (flagActivated_marks hflag).1 id
  rcases Context.flagActivated_ok hflag with ⟨-, -, rfl⟩ | ⟨-, hadded⟩
  · obtain ⟨hid, root', hroot', heq⟩ := h link id hlookup
    exact ⟨hid, root', List.mem_append_left _ hroot', heq⟩
  · rw [hadded.links] at hlookup
    split at hlookup
    · rename_i hlink
      cases hlookup
      exact ⟨hactive.mpr (.inr rfl), root, by simp, rfl, hlink⟩
    · obtain ⟨hid, root', hroot', heq⟩ := h link id hlookup
      exact ⟨hactive.mpr (.inl hid), root', List.mem_append_left _ hroot', heq⟩

omit [DecidableEq R] in
/-- Roots with different values are activated without a clash. -/
theorem start_ne_duplicateLinks (h : DistinctLinks roots) (link : String) :
    start env roots ≠ .done (.error (.duplicateLinks link)) := by
  have hfold : roots.foldlM (activateRoot env) (Context.new, []) ≠
      .error (.duplicateLinks link) := by
    apply foldlM_ne_error
      (P := fun pre (state : Context S R × RemainingDeps S R) => TakenBy pre state.1)
    · intro link id hlookup
      simp [Context.new] at hlookup
    · intro pre root post state hsplit htaken
      refine ⟨fun hstep => ?_, fun state' hstep => ?_⟩
      · -- only flagging the root can fail so
        rw [activateRoot] at hstep
        cases hactivate : activate env state.1 none ⟨root.1, none⟩ root.2 with
        | ok outcome =>
          rw [hactivate] at hstep
          obtain ⟨cx, out⟩ := outcome
          cases out <;> cases hstep
        | error e =>
          rw [hactivate] at hstep
          cases hstep
          cases hflag : (state.1.link none ⟨root.1, none⟩).flagActivated root.1 root.2 with
          | ok flagged =>
            rw [activate_of_none rfl hflag] at hactivate
            exact ne_duplicateLinks hactivate
          | error e =>
            -- the value is taken by an earlier root, which would be this one
            obtain ⟨link', -, hinactive, hlink, hlookup⟩ := flagActivated_eq_error_iff.mp hflag
            obtain ⟨id, hid⟩ := Option.ne_none_iff_exists'.mp hlookup
            obtain ⟨hactive, root', hroot', rfl, hlink'⟩ := htaken link' id hid
            have heq := h root' (by rw [hsplit]; simp [hroot']) root (by rw [hsplit]; simp)
              link' hlink' hlink
            rw [heq] at hactive
            exact absurd (hactive.symm.trans hinactive) nofun
      · obtain ⟨⟨cx', out⟩, hactivate, hstep⟩ := bind_eq_ok.mp hstep
        have htaken' := htaken.activate hactivate
        cases out with
        | already =>
          cases hstep
          exact htaken'
        | frame frame =>
          cases hstep
          exact htaken'
        | conflict id reason => cases hstep
  unfold start
  split
  · rename_i e he
    intro heq
    cases heq
    exact hfold he
  · nofun

/-! ### The whole search -/

/-- The main loop aborts over a `links` value exactly where a replacement brings a clash; a
candidate that it activates never brings one itself. So the search ends for that reason exactly
if it comes to such a replacement. -/
theorem aborts_iff (env : Env S R) (roots : List (Summary S R × Method))
    (hroots : DistinctLinks roots) :
    (∀ m, Reaches env roots m →
      (Aborts env m ↔ ∃ call, m.call = some call ∧ Clashes call.cx call.candidate) ∧
      ∀ call, m.call = some call → ∀ link, call.candidate.summary.links = some link →
        call.cx.links.lookup link = none ∨
          call.cx.links.lookup link = some call.candidate.summary.packageId) ∧
    ((∀ link, ¬Returns env roots (.error (.duplicateLinks link))) ↔
      ∀ m, Reaches env roots m → ∀ call, m.call = some call →
        ¬Clashes call.cx call.candidate) := by
  have hone : ∀ m, Reaches env roots m → ∀ call, m.call = some call →
      ((∃ link, call.result env = .error (.duplicateLinks link)) ↔
        Clashes call.cx call.candidate) := by
    intro m hm call hcall
    obtain ⟨hlinks, hvalid⟩ := (linksActive_of_reaches hm).call hcall
    exact activate_duplicateLinks_iff hlinks hvalid
  refine ⟨fun m hm => ⟨⟨?_, ?_⟩, ?_⟩, ⟨?_, ?_⟩⟩
  · rintro ⟨call, link, hcall, hresult⟩
    exact ⟨call, hcall, (hone m hm call hcall).mp ⟨link, hresult⟩⟩
  · rintro ⟨call, hcall, hclash⟩
    obtain ⟨link, hresult⟩ := (hone m hm call hcall).mpr hclash
    exact ⟨call, link, hcall, hresult⟩
  · intro call hcall link hlink
    exact links_of_refusal ((linksActive_of_reaches hm).call hcall).2 hlink
  · intro h m hm call hcall hclash
    obtain ⟨link, hresult⟩ := (hone m hm call hcall).mpr hclash
    -- the next state is the error
    have hrunning : ∀ result, m ≠ .done result := by
      rintro result rfl
      cases hcall
    obtain ⟨n, rfl⟩ := hm
    refine h link ⟨n + 1, ?_⟩
    rw [Function.iterate_succ_apply']
    exact (step_duplicateLinks_iff hrunning).mpr ⟨call, hcall, hresult⟩
  · rintro h link ⟨n, hn⟩
    induction n with
    | zero => exact start_ne_duplicateLinks hroots link hn
    | succ n ih =>
      rw [Function.iterate_succ_apply'] at hn
      -- the error came up in the last step or was there before
      by_cases hdone : ∃ result, (step env)^[n] (start env roots) = .done result
      · obtain ⟨result, hresult⟩ := hdone
        rw [hresult] at hn
        exact ih (hresult.trans hn)
      · obtain ⟨call, hcall, hresult⟩ :=
          (step_duplicateLinks_iff (not_exists.mp hdone)).mp hn
        exact h _ ⟨n, rfl⟩ call hcall ((hone _ ⟨n, rfl⟩ call hcall).mp ⟨link, hresult⟩)

end Run

/-! ### A package with a `links` value that is replaced -/

section Replaced

/-- Whether the search is over because of a `links` value. -/
def Machine.abortedOver (link : String) : Machine S R → Bool
  | .done (.error (.duplicateLinks link')) => decide (link' = link)
  | _ => false

omit [DecidableEq S] in
theorem Machine.eq_of_abortedOver {link : String} {m : Machine S R}
    (h : m.abortedOver link = true) : m = .done (.error (.duplicateLinks link)) := by
  unfold Machine.abortedOver at h
  split at h
  · rw [of_decide_eq_true h]
  · cases h

/-- The package below has no dependencies. -/
theorem optional_transitive_linked : ∀ d ∈ ([] : List (Dependency ℕ (List Version))),
    d.optional = true → d.isTransitive = true := by
  simp

/-- The package `z` of a source, which links to a library. -/
def linkedPackage (source : ℕ) : Summary ℕ (List Version) where
  packageId := ⟨"z", ⟨1, 0, 0, []⟩, source⟩
  dependencies := []
  features := ∅
  checksum := none
  links := some "z"
  namespacedFeatures := false
  names_disjoint := by decide
  optional_transitive := optional_transitive_linked

/-- A root that depends on it. -/
def linkedRoot : Summary ℕ (List Version) where
  packageId := ⟨"root", ⟨1, 0, 0, []⟩, 0⟩
  dependencies := [Dependency.parse "z" [⟨1, 0, 0, []⟩] 0]
  features := ∅
  checksum := none
  links := none
  namespacedFeatures := false
  names_disjoint := by decide
  optional_transitive := by decide

/-- A registry with the package, and a replacement for it from another source. -/
def replacedQueryer : RegistryQueryer ℕ (List Version) :=
  { RegistryQueryer.ofList [linkedPackage 0, linkedPackage 1] with
    replacements := [{
      spec := fun id => decide (id = (linkedPackage 0).packageId)
      dep := Dependency.parse "z" [⟨1, 0, 0, []⟩] 1 }] }

/-- What the search is run against. -/
noncomputable def replacedEnv : Env ℕ (List Version) where
  registry := replacedQueryer
  heap := .simple
  names _ _ := .following []
  ids _ := .following []

/-- The root with what it is activated with. -/
def linkedRoots : List (Summary ℕ (List Version) × Method) :=
  [(linkedRoot, .required true [] false true)]

/-- The search comes to the replacement and aborts, which is what the theorem says of it. -/
theorem aborts_iff_replaced :
    ¬∀ m, Reaches replacedEnv linkedRoots m → ∀ call, m.call = some call →
      ¬Clashes call.cx call.candidate := by
  have hroots : DistinctLinks linkedRoots := by
    intro a ha b hb link hlink
    rw [List.mem_singleton.mp ha] at hlink
    cases hlink
  intro h
  refine (aborts_iff replacedEnv linkedRoots hroots).2.mpr h "z" ⟨2, ?_⟩
  exact Machine.eq_of_abortedOver (by decide +kernel)

/-- A package with a `links` value that is replaced by one with the same value ends the search. -/
theorem replaced_links_abort :
    DistinctLinks linkedRoots ∧
      Returns replacedEnv linkedRoots (.error (.duplicateLinks "z")) := by
  refine ⟨fun a ha b hb link hlink => ?_, 2, Machine.eq_of_abortedOver (by decide +kernel)⟩
  rw [List.mem_singleton.mp ha] at hlink
  cases hlink

end Replaced

end Cargo.Resolver
