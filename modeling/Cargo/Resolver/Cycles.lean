import Cargo.Math.FirstPath
import Cargo.Resolver.Invariant
import Cargo.Resolver.Resolve

/-!
# When `check_cycles` finds a cycle

`check_cycles` searches depth first and enters every package once. The path of transitive
edges that it keeps is emptied at an edge that is not transitive, so a cycle is found only
if the search closes it on the very path on which it first enters a package of the cycle.

## Main definitions

* `TransitiveEdge`, `HasTransitiveCycle` — what the check is after
* `Closes` — the first path to some package goes through the target of one of its
  transitive edges, and takes transitive edges only from there on
* `Checkable` — every package of the graph has a summary

## Main results

* `visit_cases` — what one call of `visit` does
* `checkCycles_cases` — the check succeeds or reports a cycle, the latter when `Closes`
* `checkCycles_exact_iff` — when the check is right
-/

set_option autoImplicit false

namespace Cargo.Resolver

open Cargo.Core Cargo.Math Relation

variable {S R : Type} [DecidableEq S] [VersionReq R]

/-- The edge from `p` to `q`, or to what `q` replaces, is for a transitive dependency. -/
def TransitiveEdge (resolve : Resolve S R) (summaries : PackageId S → Option (Summary S R))
    (p q : PackageId S) : Prop :=
  ∃ s, summaries p = some s ∧ ∃ dep ∈ resolve.depsNotReplaced p,
    (∃ d ∈ s.dependencies, d.matchesId dep = true ∧ d.isTransitive = true) ∧
    (q = dep ∨ resolve.replacement dep = some q)

/-- Some package depends on itself through transitive dependencies. -/
def HasTransitiveCycle (resolve : Resolve S R)
    (summaries : PackageId S → Option (Summary S R)) : Prop :=
  ∃ p, TransGen (TransitiveEdge resolve summaries) p p

/-- Every package that the search can come to is in the graph and has a summary. -/
structure Checkable (resolve : Resolve S R) (summaries : PackageId S → Option (Summary S R)) :
    Prop where
  summary : ∀ id ∈ resolve.graph.nodes, ∃ s, summaries id = some s
  deps : ∀ id, ∀ dep ∈ resolve.depsNotReplaced id, dep ∈ resolve.graph.nodes
  replacement : ∀ dep id, resolve.replacement dep = some id → id ∈ resolve.graph.nodes

/-- The edges that `visit` follows from a package. -/
def nextOf (ho : HashOrder (PackageId S)) (resolve : Resolve S R)
    (summaries : PackageId S → Option (Summary S R)) (id : PackageId S) :
    List (Bool × PackageId S) :=
  match summaries id with
  | none => []
  | some summary => successors ho resolve summary id

/-- The first path to some package closes a transitive cycle. -/
def Closes (sorted ho : HashOrder (PackageId S)) (resolve : Resolve S R)
    (summaries : PackageId S → Option (Summary S R)) : Prop :=
  ∃ y stack since x,
    FirstPath (nextOf ho resolve summaries) (sorted.enum resolve.graph.nodes.keys) y y stack since ∧
    (true, x) ∈ nextOf ho resolve summaries y ∧ x ∈ insert y since

section Search

variable {sorted ho : HashOrder (PackageId S)} {resolve : Resolve S R}
  {summaries : PackageId S → Option (Summary S R)}

theorem mem_nextOf {t : Bool} {p q : PackageId S} :
    (t, q) ∈ nextOf ho resolve summaries p ↔
      ∃ s, summaries p = some s ∧ ∃ dep ∈ resolve.depsNotReplaced p,
        t = s.dependencies.any (fun d => d.matchesId dep && d.isTransitive) ∧
        (q = dep ∨ resolve.replacement dep = some q) := by
  unfold nextOf
  cases summaries p with
  | none => simp
  | some s =>
    simp only [successors, List.mem_flatMap, SetOrder.mem_enum, List.mem_cons, Prod.mk.injEq,
      Option.some.injEq, exists_eq_left']
    refine exists_congr fun dep => and_congr_right fun _ => ?_
    cases resolve.replacement dep with
    | none => simp
    | some r =>
      simp only [List.mem_singleton, Prod.mk.injEq, Option.some.injEq]
      rw [← and_or_left, eq_comm (a := r)]

theorem transitiveEdge_iff {p q : PackageId S} :
    TransitiveEdge resolve summaries p q ↔ (true, q) ∈ nextOf ho resolve summaries p := by
  rw [mem_nextOf]
  refine exists_congr fun s => and_congr_right fun _ => exists_congr fun dep =>
    and_congr_right fun _ => and_congr_left fun _ => ?_
  rw [eq_comm, List.any_eq_true]
  simp

theorem Checkable.mem_of_hasSucc (h : Checkable resolve summaries) {p q : PackageId S}
    (hpq : HasSucc (nextOf ho resolve summaries) p q) : q ∈ resolve.graph.nodes := by
  obtain ⟨t, ht⟩ := hpq
  obtain ⟨s, -, dep, hdep, -, rfl | hreplace⟩ := mem_nextOf.mp ht
  · exact h.deps p q hdep
  · exact h.replacement dep q hreplace

/-- Closing a first path is closing a cycle. -/
theorem hasTransitiveCycle_of_closes (h : Closes sorted ho resolve summaries) :
    HasTransitiveCycle resolve summaries := by
  obtain ⟨y, stack, since, x, hpath, hedge, hx⟩ := h
  have hclose : TransitiveEdge resolve summaries y x := transitiveEdge_iff.mpr hedge
  refine ⟨y, ?_⟩
  rcases Finset.mem_insert.mp hx with rfl | hx
  · exact .single hclose
  · have hback := hpath.transGen_of_mem_since hx
    exact .head hclose (TransGen.mono (fun a b hab => transitiveEdge_iff.mpr hab) _ _ hback)

/-! ### The search -/

/-- What holds between two calls of `visit`, with the packages of `stack` under way: the
packages that were left lead nowhere new, and none of them closes a cycle on its first
path. -/
structure Searched (sorted ho : HashOrder (PackageId S)) (resolve : Resolve S R)
    (summaries : PackageId S → Option (Summary S R)) (stack : List (PackageId S))
    (checked : Finset (PackageId S)) : Prop where
  under_way : ∀ p ∈ stack, p ∈ checked
  closed : ∀ p ∈ checked, p ∉ stack → ∀ q, HasSucc (nextOf ho resolve summaries) p q → q ∈ checked
  clean : ∀ p ∈ checked, p ∉ stack → ∀ stack' since,
    FirstPath (nextOf ho resolve summaries) (sorted.enum resolve.graph.nodes.keys) p p stack'
      since →
    ∀ x ∈ insert p since, (true, x) ∉ nextOf ho resolve summaries p

/-- From a checked package, only checked ones can be reached beside the stack. -/
theorem Searched.mem_of_reaches {stack : List (PackageId S)} {checked : Finset (PackageId S)}
    (h : Searched sorted ho resolve summaries stack checked) {p y : PackageId S}
    (hp : p ∈ checked) (hreach : ReachesAvoiding (nextOf ho resolve summaries) stack p y) :
    y ∈ checked :=
  hreach.mem_of_closed (P := (· ∈ checked)) hp fun a b ha hstack hab => h.closed a ha hstack b hab

/-- When the search enters a package, nothing that it checked so far is in the way. -/
theorem Searched.enter {stack : List (PackageId S)} {checked : Finset (PackageId S)}
    {id : PackageId S} (h : Searched sorted ho resolve summaries stack checked) :
    Searched sorted ho resolve summaries (id :: stack) (insert id checked) := by
  have hold : ∀ p ∈ insert id checked, p ∉ id :: stack → p ∈ checked ∧ p ∉ stack := by
    intro p hp hstack
    rw [List.mem_cons, not_or] at hstack
    exact ⟨(Finset.mem_insert.mp hp).resolve_left hstack.1, hstack.2⟩
  refine ⟨?_, ?_, ?_⟩
  · intro p hp
    rcases List.mem_cons.mp hp with rfl | hp
    · exact Finset.mem_insert_self _ _
    · exact Finset.mem_insert_of_mem (h.under_way p hp)
  · intro p hp hstack q hq
    obtain ⟨hp, hstack⟩ := hold p hp hstack
    exact Finset.mem_insert_of_mem (h.closed p hp hstack q hq)
  · intro p hp hstack
    obtain ⟨hp, hstack⟩ := hold p hp hstack
    exact h.clean p hp hstack

/-- When the search leaves a package, all its successors are checked and none of them
closes a cycle. -/
theorem Searched.leave {stack : List (PackageId S)} {checked : Finset (PackageId S)}
    {id : PackageId S} {since : Finset (PackageId S)}
    (h : Searched sorted ho resolve summaries (id :: stack) checked)
    (hnext : ∀ e ∈ nextOf ho resolve summaries id, e.2 ∈ checked ∧
      (e.1 = true → e.2 ∉ insert id since))
    (hpath : FirstPath (nextOf ho resolve summaries) (sorted.enum resolve.graph.nodes.keys)
      id id stack since) :
    Searched sorted ho resolve summaries stack checked := by
  refine ⟨fun p hp => h.under_way p (by simp [hp]), ?_, ?_⟩
  · rintro p hp hstack q ⟨t, hq⟩
    by_cases hid : p = id
    · subst hid
      exact (hnext _ hq).1
    · exact h.closed p hp (by simp [hid, hstack]) q ⟨t, hq⟩
  · intro p hp hstack stack' since' hpath' x hx hedge
    by_cases hid : p = id
    · subst hid
      obtain ⟨-, rfl⟩ := hpath.unique hpath'
      exact (hnext _ hedge).2 rfl hx
    · exact h.clean p hp (by simp [hid, hstack]) stack' since' hpath' x hx hedge

/-- The call `visit id visited checked` checks `id`, or the first path of some package
closes a cycle. -/
theorem visit_cases (hcheck : Checkable resolve summaries) {fuel : ℕ} {id : PackageId S}
    {visited checked : Finset (PackageId S)} {stack : List (PackageId S)}
    (h : Searched sorted ho resolve summaries stack checked)
    (hpath : ∀ y ∉ checked, ReachesAvoiding (nextOf ho resolve summaries) stack id y →
      FirstPath (nextOf ho resolve summaries) (sorted.enum resolve.graph.nodes.keys)
        y id stack visited)
    (hid : id ∈ resolve.graph.nodes) (hvisited : id ∉ visited)
    (hfuel : (resolve.graph.nodes.keys \ checked).card < fuel) :
    (∃ checked', visit ho resolve summaries fuel id visited checked = .ok checked' ∧
      Searched sorted ho resolve summaries stack checked' ∧ checked ⊆ checked' ∧ id ∈ checked') ∨
    ∃ e, visit ho resolve summaries fuel id visited checked = .error e ∧ (∃ x, e = .cyclic x) ∧
      Closes sorted ho resolve summaries := by
  induction fuel generalizing id visited checked stack with
  | zero => omega
  | succ fuel ih =>
    rw [visit, if_neg hvisited]
    by_cases hchecked : id ∈ checked
    · rw [if_pos hchecked]
      exact Or.inl ⟨checked, rfl, h, subset_rfl, hchecked⟩
    · rw [if_neg hchecked]
      obtain ⟨summary, hsummary⟩ := hcheck.summary id hid
      have hnext : nextOf ho resolve summaries id = successors ho resolve summary id := by
        simp [nextOf, hsummary]
      have hstack : id ∉ stack := fun hmem => hchecked (h.under_way id hmem)
      have hself := hpath id hchecked (.refl hstack)
      have hcard : (resolve.graph.nodes.keys \ insert id checked).card < fuel := by
        have hmem : id ∈ resolve.graph.nodes.keys \ checked := by
          rw [Finset.mem_sdiff, Finmap.mem_keys]
          exact ⟨hid, hchecked⟩
        rw [Finset.sdiff_insert, Finset.card_erase_of_mem hmem]
        have := Finset.card_pos.mpr ⟨id, hmem⟩
        omega
      simp only [hsummary]
      -- The loop over the successors; `id` is on top of the stack.
      have hloop := foldlM_cases
        (f := fun checked (next : Bool × PackageId S) => visit ho resolve summaries fuel next.2
          (if next.1 then insert id visited else ∅) checked)
        (l := successors ho resolve summary id) (s := insert id checked)
        (P := fun pre acc => Searched sorted ho resolve summaries (id :: stack) acc ∧
          insert id checked ⊆ acc ∧
          ∀ e ∈ pre, e.2 ∈ acc ∧ (e.1 = true → e.2 ∉ insert id visited))
        (Q := fun e => (∃ x, e = .cyclic x) ∧ Closes sorted ho resolve summaries)
        ⟨h.enter, subset_rfl, by simp⟩
        (by
          rintro pre ⟨t, c⟩ post acc hsucc ⟨hacc, hsub, hpre⟩
          have hedge : (t, c) ∈ nextOf ho resolve summaries id := by
            rw [hnext, hsucc]
            simp
          by_cases hback : c ∈ if t then insert id visited else ∅
          · -- The edge leads back to the path: this is the cycle.
            right
            cases t with
            | false => simp at hback
            | true =>
              obtain ⟨fuel, rfl⟩ : ∃ k, fuel = k + 1 := ⟨fuel - 1, by omega⟩
              refine ⟨.cyclic c, ?_, ⟨c, rfl⟩, id, stack, visited, c, hself, hedge, hback⟩
              exact if_pos hback
          · have hc := hcheck.mem_of_hasSucc ⟨t, hedge⟩
            have hcall := ih hacc ?_ hc hback ?_
            · rcases hcall with ⟨acc', hvisit, hacc', hsub', hmem⟩ | hcall
              · refine Or.inl ⟨acc', hvisit, hacc', hsub.trans hsub', ?_⟩
                intro e he
                rcases List.mem_append.mp he with he | he
                · exact ⟨hsub' (hpre e he).1, (hpre e he).2⟩
                · obtain rfl := List.mem_singleton.mp he
                  refine ⟨hmem, ?_⟩
                  rintro rfl
                  simpa using hback
              · exact Or.inr hcall
            · intro y hy hreach
              refine .step (hpath y (fun hmem => hy (hsub (Finset.mem_insert_of_mem hmem))) ?_)
                (hnext.trans hsucc) ?_ hreach
              · exact .head hstack ⟨t, hedge⟩ (hreach.mono fun a ha => by simp [ha])
              · exact fun e he hreach' => hy (hacc.mem_of_reaches (hpre e he).1 hreach')
            · exact lt_of_le_of_lt (Finset.card_le_card
                (Finset.sdiff_subset_sdiff subset_rfl hsub)) hcard)
      rcases hloop with ⟨checked', hloop, hsearched, hsub, hall⟩ | hloop
      · refine Or.inl ⟨checked', hloop, hsearched.leave (hnext ▸ hall) hself, ?_, ?_⟩
        · exact (Finset.subset_insert _ _).trans hsub
        · exact hsub (Finset.mem_insert_self _ _)
      · exact Or.inr hloop

/-- The check goes through, or it reports a cycle; it does the latter when some first path
closes one. -/
theorem checkCycles_cases (sorted ho : HashOrder (PackageId S))
    (hcheck : Checkable resolve summaries) :
    (∃ checked, checkCycles sorted ho resolve summaries = .ok checked ∧
      ¬ Closes sorted ho resolve summaries) ∨
    ∃ id, checkCycles sorted ho resolve summaries = .error (.cyclic id) ∧
      Closes sorted ho resolve summaries := by
  have hloop := foldlM_cases
    (f := fun checked pkg => if pkg ∈ checked then Except.ok checked
      else visit ho resolve summaries (resolve.graph.nodes.keys.card + 1) pkg ∅ checked)
    (l := sorted.enum resolve.graph.nodes.keys) (s := ∅)
    (P := fun pre checked => Searched sorted ho resolve summaries [] checked ∧
      ∀ r ∈ pre, r ∈ checked)
    (Q := fun e => (∃ x, e = .cyclic x) ∧ Closes sorted ho resolve summaries)
    ⟨⟨by simp, by simp, by simp⟩, by simp⟩
    (by
      intro pre pkg post checked hnodes ⟨hsearched, hpre⟩
      by_cases hpkg : pkg ∈ checked
      · refine Or.inl ⟨checked, if_pos hpkg, hsearched, ?_⟩
        simpa [or_imp, forall_and, hpkg] using hpre
      · rw [if_neg hpkg]
        have hmem : pkg ∈ resolve.graph.nodes := by
          rw [← Finmap.mem_keys, ← sorted.mem_enum, hnodes]
          simp
        -- no package before this one leads to what is not checked yet
        have hstart : ∀ y ∉ checked, ReachesAvoiding (nextOf ho resolve summaries) [] pkg y →
            FirstPath (nextOf ho resolve summaries) (sorted.enum resolve.graph.nodes.keys)
              y pkg [] ∅ := by
          intro y hy hreach
          refine .start hnodes ?_ hreach
          exact fun r hr hreach' => hy (hsearched.mem_of_reaches (hpre r hr) hreach')
        have hfuel :
            (resolve.graph.nodes.keys \ checked).card < resolve.graph.nodes.keys.card + 1 :=
          Nat.lt_succ_of_le (Finset.card_le_card Finset.sdiff_subset)
        rcases visit_cases hcheck hsearched hstart hmem (by simp) hfuel with
          ⟨checked', hvisit, hsearched', hsub, hmem'⟩ | hvisit
        · refine Or.inl ⟨checked', hvisit, hsearched', ?_⟩
          intro r hr
          rcases List.mem_append.mp hr with hr | hr
          · exact hsub (hpre r hr)
          · rw [List.mem_singleton.mp hr]
            exact hmem'
        · exact Or.inr hvisit)
  rcases hloop with ⟨checked, hok, hsearched, hall⟩ | ⟨e, herror, ⟨x, rfl⟩, hcloses⟩
  · refine Or.inl ⟨checked, hok, ?_⟩
    rintro ⟨y, stack, since, x, hpath, hedge, hx⟩
    obtain ⟨r, hr, hreach⟩ := hpath.exists_start
    have hy := hsearched.mem_of_reaches (hall r hr) hreach
    exact hsearched.clean y hy (by simp) stack since hpath x hx hedge
  · exact Or.inr ⟨x, herror, hcloses⟩

/-- The check reports a cycle exactly when some first path closes one. -/
theorem checkCycles_error_iff (hcheck : Checkable resolve summaries) :
    (∃ id, checkCycles sorted ho resolve summaries = .error (.cyclic id)) ↔
      Closes sorted ho resolve summaries := by
  rcases checkCycles_cases sorted ho hcheck with ⟨checked, hok, hnot⟩ |
    ⟨id, herror, hcloses⟩
  · rw [hok]
    simp [hnot]
  · exact ⟨fun _ => hcloses, fun _ => ⟨id, herror⟩⟩

/-- The check is right about transitive cycles exactly when there is none or some first
path closes one. -/
theorem checkCycles_exact_iff (hcheck : Checkable resolve summaries) :
    ((∃ id, checkCycles sorted ho resolve summaries = .error (.cyclic id)) ↔
        HasTransitiveCycle resolve summaries) ↔
      (HasTransitiveCycle resolve summaries → Closes sorted ho resolve summaries) := by
  rw [checkCycles_error_iff hcheck]
  exact ⟨fun h hcycle => h.mpr hcycle, fun h => ⟨hasTransitiveCycle_of_closes, h⟩⟩

end Search

/-! ### The graphs that the search builds -/

section Grounded

/-- Whatever the graph mentions is active. -/
structure Grounded (cx : Context S R) : Prop where
  add_iff : ∀ p, GraphNode.add p ∈ cx.resolveGraph ↔ cx.isActive p = true
  link : ∀ p q d, GraphNode.link p q d ∈ cx.resolveGraph →
    cx.isActive p = true ∧ cx.isActive q = true
  replacement : ∀ pair ∈ cx.resolveReplacements, cx.isActive pair.2 = true

variable {cx cx' : Context S R} {s : Summary S R} {method : Method}

omit [VersionReq R] in
/-- Flagging a package makes room for edges and replacements that lead to it. -/
theorem grounded_flagActivated {b : Bool} (h : cx.flagActivated s method = .ok (b, cx'))
    (hadd : ∀ p, GraphNode.add p ∈ cx.resolveGraph ↔ cx.isActive p = true)
    (hlink : ∀ p q d, GraphNode.link p q d ∈ cx.resolveGraph →
      cx.isActive p = true ∧ (cx.isActive q = true ∨ q = s.packageId))
    (hreplacement : ∀ pair ∈ cx.resolveReplacements,
      cx.isActive pair.2 = true ∨ pair.2 = s.packageId) :
    Grounded cx' ∧ ∀ p, cx'.isActive p = true ↔ cx.isActive p = true ∨ p = s.packageId := by
  rcases Context.flagActivated_ok h with ⟨hactive, -, rfl⟩ | ⟨-, hadded⟩
  · have hsame : ∀ p, cx'.isActive p = true ∨ p = s.packageId → cx'.isActive p = true := by
      rintro p (hp | rfl)
      · exact hp
      · exact hactive
    refine ⟨⟨hadd, ?_, fun pair hpair => hsame _ (hreplacement pair hpair)⟩,
      fun p => ⟨Or.inl, hsame p⟩⟩
    exact fun p q d hpq => ⟨(hlink p q d hpq).1, hsame q (hlink p q d hpq).2⟩
  · refine ⟨⟨?_, ?_, ?_⟩, hadded.isActive⟩
    · intro p
      rw [hadded.graph, hadded.isActive, List.mem_cons, GraphNode.add.injEq, hadd, or_comm]
    · intro p q d hpq
      rw [hadded.graph, List.mem_cons] at hpq
      have hold := hlink p q d (hpq.resolve_left (by simp))
      exact ⟨(hadded.isActive p).mpr (Or.inl hold.1), (hadded.isActive q).mpr hold.2⟩
    · intro pair hpair
      rw [hadded.replacements] at hpair
      exact (hadded.isActive _).mpr (hreplacement pair hpair)

omit [VersionReq R] in
theorem Grounded.same (h : Grounded cx) (hsame : Context.SameButFeatures cx cx') :
    Grounded cx' := by
  refine ⟨?_, ?_, ?_⟩
  · rw [hsame.graph, hsame.isActive]
    exact h.add_iff
  · rw [hsame.graph, hsame.isActive]
    exact h.link
  · rw [hsame.replacements, hsame.isActive]
    exact h.replacement

omit [VersionReq R] in
/-- Finding the dependencies of an active package changes nothing in the graph, and the
package is the parent of the dependencies found. -/
theorem grounded_expand {env : Env S R} {parent : Option (Summary S R)} {out : Activation S R}
    (h : expand env cx parent s method = .ok (cx', out)) (hcx : Grounded cx) :
    Grounded cx' ∧ cx'.isActive = cx.isActive ∧
      ∀ frame, out = .frame frame → frame.parent = s := by
  obtain ⟨⟨cx'', built⟩, hbuild, h⟩ := bind_eq_ok.mp h
  rcases Context.buildDeps_ok hbuild with ⟨id, reason, rfl, hlacking⟩ | ⟨reqs, infos, rfl, hexp⟩
  · cases h
    exact ⟨hcx.same hlacking.same, hlacking.same.isActive, by simp⟩
  · cases h
    refine ⟨hcx.same hexp.same, hexp.same.isActive, ?_⟩
    rintro frame ⟨⟩
    rfl

omit [VersionReq R] in
/-- Activating a candidate keeps the graph grounded, with or without a replacement. -/
theorem grounded_activate {env : Env S R} {parent : Option (Summary S R × Dependency S R)}
    {c : Candidate S R} {out : Activation S R}
    (h : activate env cx parent c method = .ok (cx', out)) (hcx : Grounded cx)
    (hparent : ∀ p d, parent = some (p, d) → cx.isActive p.packageId = true) :
    Grounded cx' ∧ (∀ p, cx.isActive p = true → cx'.isActive p = true) ∧
      ∀ frame, out = .frame frame → cx'.isActive frame.parent.packageId = true := by
  obtain ⟨⟨activated, mid⟩, hflag, h⟩ := bind_eq_ok.mp h
  have hlinked : ∀ p, (cx.link parent c).isActive p = cx.isActive p := by
    cases parent <;> exact fun _ => rfl
  obtain ⟨hmid, hactive⟩ := grounded_flagActivated hflag
    (by
      cases parent with
      | none => exact hcx.add_iff
      | some e =>
        intro p
        rw [hlinked, ← hcx.add_iff]
        simp [Context.link])
    (by
      intro p q d hpq
      simp only [hlinked]
      cases parent with
      | none => exact ⟨(hcx.link p q d hpq).1, Or.inl (hcx.link p q d hpq).2⟩
      | some e =>
        rcases List.mem_cons.mp hpq with hnew | hold
        · cases hnew
          exact ⟨hparent _ _ rfl, Or.inr rfl⟩
        · exact ⟨(hcx.link p q d hold).1, Or.inl (hcx.link p q d hold).2⟩)
    (by
      intro pair hpair
      rw [hlinked]
      cases parent with
      | none => exact Or.inl (hcx.replacement pair hpair)
      | some e => exact Or.inl (hcx.replacement pair hpair))
  simp only [hlinked] at hactive
  -- a replacement is activated after what it replaces, and is expanded in its place
  cases hreplace : c.replace with
  | none =>
    simp only [hreplace] at h
    split at h
    · cases h
      exact ⟨hmid, fun p hp => (hactive p).mpr (Or.inl hp), by simp⟩
    · obtain ⟨hcx', hsame, hframe⟩ := grounded_expand h hmid
      rw [hsame]
      refine ⟨hcx', fun p hp => (hactive p).mpr (Or.inl hp), ?_⟩
      intro frame hout
      rw [hframe frame hout]
      exact (hactive _).mpr (Or.inr rfl)
  | some replace =>
    simp only [hreplace] at h
    obtain ⟨⟨replaceActivated, mid'⟩, hflag', h⟩ := bind_eq_ok.mp h
    obtain ⟨hmid', hactive'⟩ := grounded_flagActivated hflag' hmid.add_iff
      (fun p q d hpq => ⟨(hmid.link p q d hpq).1, Or.inl (hmid.link p q d hpq).2⟩)
      (by
        intro pair hpair
        rcases List.mem_cons.mp hpair with rfl | hpair
        · exact Or.inr rfl
        · exact Or.inl (hmid.replacement pair hpair))
    have hold : ∀ p, cx.isActive p = true → mid'.isActive p = true := fun p hp =>
      (hactive' p).mpr (Or.inl ((hactive p).mpr (Or.inl hp)))
    simp only at h
    split at h
    · cases h
      exact ⟨hmid', hold, by simp⟩
    · obtain ⟨hcx', hsame, hframe⟩ := grounded_expand h hmid'
      rw [hsame]
      refine ⟨hcx', hold, ?_⟩
      intro frame hout
      rw [hframe frame hout]
      exact (hactive' _).mpr (Or.inr rfl)

/-- The graph is grounded, and whatever has dependencies to activate is active. -/
def GroundedState (cx : Context S R) (pending : Pending S R) : Prop :=
  Grounded cx ∧ ∀ e ∈ pending, cx.isActive e.1.packageId = true

omit [VersionReq R] in
theorem groundedState_kept (env : Env S R) : Kept env GroundedState where
  perm := fun cx l l' hperm h => ⟨h.1, fun e he => h.2 e (hperm.mem_iff.mpr he)⟩
  already := by
    intro cx cx' parent info rest c h _ _ hactivate
    obtain ⟨hcx', hmono, -⟩ := grounded_activate hactivate h.1
      (by
        rintro p d ⟨⟩
        exact h.2 (parent, info) (by simp))
    exact ⟨hcx', fun e he => hmono _ (h.2 e (by simp [he]))⟩
  frame := by
    intro cx cx' parent info rest c frame h _ _ hactivate
    obtain ⟨hcx', hmono, hframe⟩ := grounded_activate hactivate h.1
      (by
        rintro p d ⟨⟩
        exact h.2 (parent, info) (by simp))
    refine ⟨hcx', ?_⟩
    intro e he
    rcases List.mem_append.mp he with he | he
    · obtain ⟨info', -, rfl⟩ := List.mem_map.mp he
      exact hframe frame rfl
    · exact hmono _ (h.2 e (by simp [he]))

omit [VersionReq R] in
theorem groundedState_start {env : Env S R} {roots : List (Summary S R × Method)} :
    MachineOk GroundedState (start env roots) := by
  refine machineOk_start (groundedState_kept env) ?_ ?_ ?_
  · exact ⟨⟨fun p => ⟨by simp [Context.new],
      by simp [Context.isActive, Context.active, Context.new]⟩,
      by simp [Context.new], by simp [Context.new]⟩, by simp⟩
  · intro root _ cx cx' pending h hactivate
    obtain ⟨hcx', hmono, -⟩ := grounded_activate hactivate h.1 (by simp)
    exact ⟨hcx', fun e he => hmono _ (h.2 e he)⟩
  · intro root _ cx cx' frame pending h hactivate
    obtain ⟨hcx', hmono, hframe⟩ := grounded_activate hactivate h.1 (by simp)
    refine ⟨hcx', ?_⟩
    intro e he
    rcases List.mem_append.mp he with he | he
    · obtain ⟨info', -, rfl⟩ := List.mem_map.mp he
      exact hframe frame rfl
    · exact hmono _ (h.2 e he)

omit [VersionReq R] in
theorem Grounded.checkable (h : Grounded cx) : Checkable cx.toResolve cx.summaryOf := by
  have hmem : ∀ p, p ∈ cx.toResolve.graph.nodes ↔ cx.isActive p = true := by
    intro p
    rw [Context.mem_toResolve, h.add_iff, or_iff_left_of_imp]
    rintro ⟨q, d, hpq⟩
    exact (h.link p q d hpq).1
  refine ⟨?_, ?_, ?_⟩
  · intro id hid
    obtain ⟨s, hs, hsid⟩ := Context.isActive_iff.mp ((hmem id).mp hid)
    cases hfind : cx.summaryOf id with
    | none => exact absurd hsid (by simpa using List.find?_eq_none.mp hfind s hs)
    | some s' => exact ⟨s', rfl⟩
  · intro id dep hdep
    obtain ⟨d, hd⟩ := Context.exists_link_of_mem_deps hdep
    exact (hmem dep).mpr (h.link id dep d hd).2
  · intro dep id hreplace
    exact (hmem id).mpr (h.replacement _ (Context.mem_of_replacement hreplace))

omit [VersionReq R] in
/-- Every graph that the search hands to the check has the summaries that it needs. -/
theorem checkable_of_returns [DecidableEq R] {env : Env S R} {roots : List (Summary S R × Method)}
    (h : Returns env roots (.ok cx)) : Checkable cx.toResolve cx.summaryOf :=
  Grounded.checkable (machineOk_of_reaches (groundedState_kept env) groundedState_start h).1

end Grounded

/-! ### A cycle that is missed -/

section Missed

/-- A path package with the given dependencies. -/
def samplePackage (name : String) (dependencies : List (Dependency ℕ (List Version)))
    (h : ∀ d ∈ dependencies, d.optional = true → d.isTransitive = true) :
    Summary ℕ (List Version) where
  packageId := ⟨name, ⟨1, 0, 0, []⟩, 0⟩
  dependencies
  features := ∅
  checksum := none
  links := none
  namespacedFeatures := false
  names_disjoint := fun _ _ _ => Finmap.notMem_empty
  optional_transitive := h

/-- The dependency on the package of that name. -/
def sampleDep (name : String) (kind : DepKind) : Dependency ℕ (List Version) :=
  { Dependency.parse name [⟨1, 0, 0, []⟩] 0 with kind }

/-- Three packages that depend on each other in a circle; the first also has a development
dependency on the last. -/
def circleA : Summary ℕ (List Version) :=
  samplePackage "a" [sampleDep "b" .normal, sampleDep "c" .development] (by decide)

/-- The second package of the circle. -/
def circleB : Summary ℕ (List Version) := samplePackage "b" [sampleDep "c" .normal] (by decide)

/-- The third package of the circle. -/
def circleC : Summary ℕ (List Version) := samplePackage "c" [sampleDep "a" .normal] (by decide)

/-- The order of package ids. -/
noncomputable def circleSorted : HashOrder (PackageId ℕ) :=
  .following [circleA.packageId, circleB.packageId, circleC.packageId]

/-- An order of edges that meets the development dependency first. -/
noncomputable def circleEdges : HashOrder (PackageId ℕ) :=
  .following [circleC.packageId, circleB.packageId, circleA.packageId]

/-- The three packages as a registry. -/
noncomputable def circleEnv : Env ℕ (List Version) where
  registry := .ofList [circleA, circleB, circleC]
  heap := .simple
  names _ _ := .following []
  ids _ := circleSorted.toSetOrder

/-- The circle is resolved for its first package. -/
def circleRoots : List (Summary ℕ (List Version) × Method) :=
  [(circleA, .required true [] false true)]

/-- Resolving the circle gives its three edges, and the check lets it pass. -/
theorem exists_circle : ∃ cx, Returns circleEnv circleRoots (.ok cx) ∧
    (∃ checked, checkCycles circleSorted circleEdges cx.toResolve cx.summaryOf = .ok checked) ∧
    TransitiveEdge cx.toResolve cx.summaryOf circleA.packageId circleB.packageId ∧
    TransitiveEdge cx.toResolve cx.summaryOf circleB.packageId circleC.packageId ∧
    TransitiveEdge cx.toResolve cx.summaryOf circleC.packageId circleA.packageId := by
  have hrun : ((step circleEnv)^[12] (start circleEnv circleRoots)).foundWith (fun cx =>
      (checkCycles circleSorted circleEdges cx.toResolve cx.summaryOf).isOk && decide
        ((true, circleB.packageId) ∈
            nextOf circleEdges cx.toResolve cx.summaryOf circleA.packageId ∧
          (true, circleC.packageId) ∈
            nextOf circleEdges cx.toResolve cx.summaryOf circleB.packageId ∧
          (true, circleA.packageId) ∈
            nextOf circleEdges cx.toResolve cx.summaryOf circleC.packageId)) = true := by
    decide +kernel
  obtain ⟨cx, hcx, hrun⟩ := Machine.exists_of_foundWith hrun
  rw [Bool.and_eq_true, decide_eq_true_eq] at hrun
  obtain ⟨hok, hab, hbc, hca⟩ := hrun
  refine ⟨cx, ⟨12, hcx⟩, ?_, transitiveEdge_iff.mpr hab, transitiveEdge_iff.mpr hbc,
    transitiveEdge_iff.mpr hca⟩
  cases hcheck : checkCycles circleSorted circleEdges cx.toResolve cx.summaryOf with
  | ok checked => exact ⟨checked, rfl⟩
  | error e =>
    rw [hcheck] at hok
    cases hok

/-- The search returns a graph with a transitive cycle that the check lets pass. -/
theorem checkCycles_misses_circle : ∃ cx, Returns circleEnv circleRoots (.ok cx) ∧
    ¬ ((∃ id, checkCycles circleSorted circleEdges cx.toResolve cx.summaryOf =
        .error (.cyclic id)) ↔ HasTransitiveCycle cx.toResolve cx.summaryOf) := by
  obtain ⟨cx, hreturns, ⟨checked, hok⟩, hab, hbc, hca⟩ := exists_circle
  refine ⟨cx, hreturns, ?_⟩
  rw [hok]
  intro hiff
  obtain ⟨id, hid⟩ := hiff.mpr ⟨_, .head hab (.head hbc (.single hca))⟩
  cases hid

/-- Whether the check is right about the circle depends on its first paths alone. -/
theorem checkCycles_exact_iff_circle : ∃ cx, Returns circleEnv circleRoots (.ok cx) ∧
    Checkable cx.toResolve cx.summaryOf ∧
    (((∃ id, checkCycles circleSorted circleEdges cx.toResolve cx.summaryOf =
        .error (.cyclic id)) ↔ HasTransitiveCycle cx.toResolve cx.summaryOf) ↔
      (HasTransitiveCycle cx.toResolve cx.summaryOf →
        Closes circleSorted circleEdges cx.toResolve cx.summaryOf)) := by
  obtain ⟨cx, hreturns, -⟩ := exists_circle
  exact ⟨cx, hreturns, checkable_of_returns hreturns,
    checkCycles_exact_iff (checkable_of_returns hreturns)⟩

end Missed

end Cargo.Resolver
