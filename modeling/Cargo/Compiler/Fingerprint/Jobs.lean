import Cargo.Compiler.Fingerprint.History

/-!
# Runs that come to their end

A run that is not interrupted compiles all units that are dirty, each of them after its
dependencies, and writes their fingerprints.

Hashes are noted when the run begins. A unit that has a time drops its own when it is compiled,
and the others keep theirs, whatever is compiled below them.

## Main definitions

* `JobStep` — the jobs of a run, in the order of the dependencies
* `State.toBeWritten` — the fingerprints that the run writes, known from the beginning
* `Midway` — how far a run has come

## Main results

* `Midway.of_run` — what is written is what was to be written
* `exists_finished` — a run can always come to its end
-/

set_option autoImplicit false

namespace Cargo.Compiler.Fingerprint

open Relation
open Cargo.Math

section Jobs

variable {H T U P : Type} [DecidableEq U] [DecidableEq P]
variable (hash64 : Contents H T U P → H) (made : U → T × List P)

/-- The steps of a run that is not interrupted. A unit is compiled once those of its dependencies
that are dirty are done. The times and the files of the dep-infos are given; units that are not
tracked by them may have none. -/
inductive JobStep (s : State H T U P) : State H T U P → Prop
  | compile (u : U) (hdirty : s.dirty u = true) (hstage : s.stage u = .waiting)
      (hdeps : ∀ d ∈ s.graph.queueDeps u, s.dirty d.unit = true → s.stage d.unit = .written) :
      JobStep s { s with
        disk := s.disk.compile u (s.graph.config u)
        stage := Function.update s.stage u .compiled }
  | translate (u : U) (hstage : s.stage u = .compiled) :
      JobStep s { s with
        disk := s.disk.translateDepInfo u (made u).1 (made u).2
        stage := Function.update s.stage u .translated }
  | writeShort (u : U) (fp : Fingerprints H T U P)
      (hstage : s.stage u = .translated ∨ s.stage u = .compiled ∧ s.graph.useDepInfo u = false)
      (hfp : updateLocal s.disk u s.fingerprints = some fp) : JobStep s (s.writeShort hash64 u fp)
  | writeJson (u : U) (hstage : s.stage u = .hashed) : JobStep s (s.writeJson hash64 u)

variable {hash64 made} in
/-- The jobs are steps that any run may take. -/
theorem JobStep.step [DecidableEq H] [LinearOrder T] {s s' : State H T U P}
    (h : JobStep hash64 made s s') : Step hash64 s s' := by
  cases h with
  | compile u hdirty hstage hdeps => exact .compile u hdirty hstage
  | translate u hstage => exact .translate u _ _ hstage
  | writeShort u fp hstage hfp =>
    rcases hstage with hstage | ⟨hstage, -⟩
    · exact .writeShort u fp (.inr hstage) hfp
    · exact .writeShort u fp (.inl hstage) hfp
  | writeJson u hstage => exact .writeJson u hstage

/-- All that are dirty are done. -/
def State.Finished (s : State H T U P) : Prop := ∀ u, s.dirty u = true → s.stage u = .written

end Jobs

/-! ### What is written -/

section Written

variable {H T U P : Type} (hash64 : Contents H T U P → H) (made : U → T × List P)

/-- The fingerprints that a run writes if it begins so: units that are tracked by dep-infos and
compiled have a time, and drop the hash that was noted. -/
def State.toBeWritten (s : State H T U P) : Fingerprints H T U P where
  locals u :=
    if s.graph.useDepInfo u && s.dirty u then [.mtimeBased (some (made u).1) (.depInfo u)]
    else s.fingerprints.locals u
  memoizedHash u :=
    if !s.dirty u || (!s.graph.useDepInfo u && (s.fingerprints.memoizedHash u).isSome)
    then some (hashOf hash64 s.graph s.fingerprints u) else none

/-- A run that begins. -/
structure State.Begun [LinearOrder T] (s : State H T U P) : Prop where
  stage : ∀ u, s.stage u = .waiting
  locals : ∀ u, s.fingerprints.locals u = (calculate s.graph s.disk).locals u
  hashes : ∀ u, hashOf hash64 s.graph s.fingerprints u =
    hashOf hash64 s.graph (calculate s.graph s.disk) u
  dirty : ∀ u, ∀ d ∈ s.graph.queueDeps u, s.dirty d.unit = true → s.dirty u = true

variable {hash64 made} {s₁ : State H T U P}

theorem hashOf_toBeWritten_of_clean {u : U} (hu : s₁.dirty u = false) :
    hashOf hash64 s₁.graph (s₁.toBeWritten hash64 made) u =
      hashOf hash64 s₁.graph s₁.fingerprints u :=
  hashOf_of_some (by simp [State.toBeWritten, hu])

/-- Hashes are kept that were noted, but not by units that have a time. -/
theorem memoizedHash_toBeWritten_cases (u : U) :
    (s₁.toBeWritten hash64 made).memoizedHash u = none ∨
      (s₁.toBeWritten hash64 made).memoizedHash u =
          some (hashOf hash64 s₁.graph s₁.fingerprints u) ∧
        (s₁.dirty u = false ∨
          s₁.graph.useDepInfo u = false ∧ s₁.fingerprints.memoizedHash u ≠ none) := by
  rw [State.toBeWritten]
  dsimp only
  split
  · rename_i hkept
    right
    simpa [Option.isSome_iff_ne_none] using hkept
  · exact .inl rfl

/-- Nothing is dirty below a unit that is not. -/
theorem State.Begun.clean_below [LinearOrder T] (h : s₁.Begun hash64) {u x : U}
    (hx : s₁.graph.dag.Below u x) (hu : s₁.dirty u = false) : s₁.dirty x = false := by
  induction hx with
  | refl => exact hu
  | tail _ hstep ih =>
    obtain ⟨d, hd, rfl⟩ := List.mem_map.mp hstep
    rw [← Bool.not_eq_true]
    intro hdirty
    rw [h.dirty _ d (UnitGraph.mem_queueDeps hd) hdirty] at ih
    cases ih

/-- The hash is written. -/
def Stage.HasHash (stage : Stage) : Prop := stage = .hashed ∨ stage = .written

theorem Stage.HasHash.ne_waiting {stage : Stage} (h : stage.HasHash) : stage ≠ .waiting := by
  rcases h with rfl | rfl <;> simp

variable (hash64 made) in
/-- How things are with a unit, as far as its job has come. -/
structure UnitAt (s₁ s : State H T U P) (u : U) : Prop where
  dirty : s.stage u ≠ .waiting → s₁.dirty u = true
  waiting : s.stage u = .waiting → s.disk.mtime (.depInfo u) = s₁.disk.mtime (.depInfo u) ∧
    s.disk.listed u = s₁.disk.listed u ∧ s.disk.output u = s₁.disk.output u
  compiled : s.stage u ≠ .waiting → s.disk.output u ≠ none
  translated :
    s.stage u = .translated ∨ (s.stage u).HasHash ∧ s₁.graph.useDepInfo u = true →
      s.disk.mtime (.depInfo u) = some (made u).1 ∧ s.disk.listed u = (made u).2
  unhashed : ¬ (s.stage u).HasHash → s.disk.short u = s₁.disk.short u ∧
    s.fingerprints.locals u = s₁.fingerprints.locals u ∧
    (s.fingerprints.memoizedHash u = s₁.fingerprints.memoizedHash u ∨ s₁.dirty u = false ∧
      s.fingerprints.memoizedHash u = some (hashOf hash64 s₁.graph s₁.fingerprints u))
  hashed : (s.stage u).HasHash →
    s.disk.short u = some (some (hashOf hash64 s₁.graph (s₁.toBeWritten hash64 made) u)) ∧
    s.fingerprints.locals u = (s₁.toBeWritten hash64 made).locals u ∧
    s.fingerprints.memoizedHash u =
      some (hashOf hash64 s₁.graph (s₁.toBeWritten hash64 made) u)
  unwritten : s.stage u ≠ .written → s.disk.json u = s₁.disk.json u
  written : s.stage u = .written →
    s.disk.json u = some (contentsOf hash64 s₁.graph (s₁.toBeWritten hash64 made) u)

/-- A step is about another unit. -/
structure Untouched (s s' : State H T U P) (u : U) : Prop where
  stage : s'.stage u = s.stage u
  mtime : s'.disk.mtime (.depInfo u) = s.disk.mtime (.depInfo u)
  listed : s'.disk.listed u = s.disk.listed u
  output : s'.disk.output u = s.disk.output u
  short : s'.disk.short u = s.disk.short u
  json : s'.disk.json u = s.disk.json u
  locals : s'.fingerprints.locals u = s.fingerprints.locals u

/-- At most its hash is noted then. -/
theorem UnitAt.frame {s s' : State H T U P} {u : U} (h : UnitAt hash64 made s₁ s u)
    (hsame : Untouched s s' u)
    (hmemo : s'.fingerprints.memoizedHash u = s.fingerprints.memoizedHash u ∨
      s₁.dirty u = false ∧
        s'.fingerprints.memoizedHash u = some (hashOf hash64 s₁.graph s₁.fingerprints u)) :
    UnitAt hash64 made s₁ s' u where
  dirty := by
    rw [hsame.stage]
    exact h.dirty
  waiting := by
    rw [hsame.stage, hsame.mtime, hsame.listed, hsame.output]
    exact h.waiting
  compiled := by
    rw [hsame.stage, hsame.output]
    exact h.compiled
  translated := by
    rw [hsame.stage, hsame.mtime, hsame.listed]
    exact h.translated
  unhashed := by
    rw [hsame.stage, hsame.short, hsame.locals]
    intro hstage
    obtain ⟨hshort, hlocals, hmemo'⟩ := h.unhashed hstage
    refine ⟨hshort, hlocals, ?_⟩
    rcases hmemo with heq | hnoted
    · rw [heq]
      exact hmemo'
    · exact .inr hnoted
  hashed := by
    rw [hsame.stage, hsame.short, hsame.locals]
    intro hstage
    -- a unit whose hash is written is not clean, so its hash was not noted just now
    rcases hmemo with heq | ⟨hclean, -⟩
    · rw [heq]
      exact h.hashed hstage
    · rw [h.dirty hstage.ne_waiting] at hclean
      cases hclean
  unwritten := by
    rw [hsame.stage, hsame.json]
    exact h.unwritten
  written := by
    rw [hsame.stage, hsame.json]
    exact h.written

variable (hash64 made) in
/-- A run that began so is under way. -/
structure Midway (s₁ s : State H T U P) : Prop where
  graph : s.graph = s₁.graph
  dirty : s.dirty = s₁.dirty
  source : ∀ p, s.disk.mtime (.source p) = s₁.disk.mtime (.source p)
  inOrder : ∀ u, s.stage u ≠ .waiting → ∀ d ∈ s₁.graph.queueDeps u, s₁.dirty d.unit = true →
    s.stage d.unit = .written
  unit : ∀ u, UnitAt hash64 made s₁ s u

theorem State.Begun.midway [LinearOrder T] (h : s₁.Begun hash64) : Midway hash64 made s₁ s₁ where
  graph := rfl
  dirty := rfl
  source _ := rfl
  inOrder u hu := absurd (h.stage u) hu
  unit u := by
    constructor
    · exact fun hu => absurd (h.stage u) hu
    · exact fun _ => ⟨rfl, rfl, rfl⟩
    · exact fun hu => absurd (h.stage u) hu
    · simp [h.stage u, Stage.HasHash]
    · exact fun _ => ⟨rfl, rfl, .inl rfl⟩
    · simp [h.stage u, Stage.HasHash]
    · exact fun _ => rfl
    · simp [h.stage u]

namespace Midway

variable {s : State H T U P}

theorem waiting_of_clean (h : Midway hash64 made s₁ s) {u : U} (hu : s₁.dirty u = false) :
    s.stage u = .waiting := by
  by_contra hstage
  have hdirty := (h.unit u).dirty hstage
  rw [hu] at hdirty
  cases hdirty

/-- The hashes of units that are not dirty are those from before. -/
theorem hashOf_of_clean [LinearOrder T] (h : Midway hash64 made s₁ s) (hbegun : s₁.Begun hash64)
    {u : U} (hu : s₁.dirty u = false) :
    hashOf hash64 s₁.graph s.fingerprints u = hashOf hash64 s₁.graph s₁.fingerprints u := by
  -- all that is below is clean as well, and has its locals from before
  induction u using s₁.graph.dag.induction with
  | h u ih =>
    obtain ⟨-, hlocals, hsame | ⟨-, hnoted⟩⟩ :=
      (h.unit u).unhashed (by simp [h.waiting_of_clean hu, Stage.HasHash])
    · cases hmemo : s₁.fingerprints.memoizedHash u with
      | some v => rw [hashOf_of_some hmemo, hashOf_of_some (hsame.trans hmemo)]
      | none =>
        rw [hashOf_of_none hmemo, hashOf_of_none (hsame.trans hmemo)]
        congr 1
        refine contentsOf_eq_iff.mpr ⟨hlocals, fun d hd => ?_⟩
        have hstep : d.unit ∈ s₁.graph.dag.succ u := List.mem_map_of_mem hd
        exact ih d.unit hstep (hbegun.clean_below (.single hstep) hu)
    · exact hashOf_of_some hnoted

/-- The units below one that was started are done, or there is nothing to do. -/
theorem below [LinearOrder T] (h : Midway hash64 made s₁ s) (hbegun : s₁.Begun hash64) {u x : U}
    (hu : s.stage u ≠ .waiting) (hx : s₁.graph.dag.Below u x) :
    x = u ∨ s₁.dirty x = false ∨ s.stage x = .written := by
  induction hx with
  | refl => exact .inl rfl
  | @tail x y _ hstep ih =>
    obtain ⟨d, hd, rfl⟩ := List.mem_map.mp hstep
    have hdeps : s.stage x ≠ .waiting → s₁.dirty d.unit = false ∨ s.stage d.unit = .written := by
      intro hx
      cases hdirty : s₁.dirty d.unit with
      | false => exact .inl rfl
      | true => exact .inr (h.inOrder x hx d (UnitGraph.mem_queueDeps hd) hdirty)
    rcases ih with rfl | hclean | hdone
    · exact .inr (hdeps hu)
    · exact .inr (.inl (hbegun.clean_below (.single hstep) hclean))
    · exact .inr (hdeps (by simp [hdone]))

/-- The hashes of units that are done are those that are written. -/
theorem hashOf_of_done [LinearOrder T] (h : Midway hash64 made s₁ s) (hbegun : s₁.Begun hash64)
    {u : U} (hu : s₁.dirty u = false ∨ s.stage u = .written) :
    hashOf hash64 s₁.graph s.fingerprints u =
      hashOf hash64 s₁.graph (s₁.toBeWritten hash64 made) u := by
  rcases hu with hclean | hdone
  · rw [h.hashOf_of_clean hbegun hclean, hashOf_toBeWritten_of_clean hclean]
  · exact hashOf_of_some ((h.unit u).hashed (.inr hdone)).2.2

/-- A job that is about to write is not waiting, and has not written anything. -/
theorem ne_of_ready {u : U}
    (hstage : s.stage u = .translated ∨ s.stage u = .compiled ∧ s₁.graph.useDepInfo u = false) :
    s.stage u ≠ .waiting ∧ ¬ (s.stage u).HasHash := by
  rcases hstage with hstage | ⟨hstage, -⟩
  · simp [hstage, Stage.HasHash]
  · simp [hstage, Stage.HasHash]

variable [DecidableEq U]

/-- Bringing a unit up to date reads the time of its dep-info and drops its hash; or nothing
happens. -/
theorem updateLocal_cases [LinearOrder T] (h : Midway hash64 made s₁ s) (hbegun : s₁.Begun hash64)
    {u : U}
    (hstage : s.stage u = .translated ∨ s.stage u = .compiled ∧ s₁.graph.useDepInfo u = false)
    {fp : Fingerprints H T U P} (hfp : updateLocal s.disk u s.fingerprints = some fp) :
    s₁.graph.useDepInfo u = true ∧
        fp.locals u = [.mtimeBased (some (made u).1) (.depInfo u)] ∧ fp.memoizedHash u = none ∨
      s₁.graph.useDepInfo u = false ∧ fp = s.fingerprints := by
  have hlocals := ((h.unit u).unhashed (ne_of_ready hstage).2).2.1
  rw [hbegun.locals] at hlocals
  cases hpath : s₁.graph.useDepInfo u with
  | true =>
    have htranslated : s.stage u = .translated := by
      rcases hstage with hstage | ⟨-, hno⟩
      · exact hstage
      · rw [hpath] at hno
        cases hno
    rw [locals_calculate_of_path hpath] at hlocals
    obtain ⟨fp', hfp', hnew, hnone⟩ := exists_updateLocal_of_mtimeBased hlocals
      ((h.unit u).translated (.inl htranslated)).1
    rw [hfp, Option.some.injEq] at hfp'
    subst hfp'
    exact .inl ⟨rfl, hnew, hnone⟩
  | false =>
    rw [locals_calculate_of_not_path hpath] at hlocals
    rw [updateLocal_of_precalculated hlocals, Option.some.injEq] at hfp
    exact .inr ⟨rfl, hfp.symm⟩

theorem updated_locals [LinearOrder T] (h : Midway hash64 made s₁ s) (hbegun : s₁.Begun hash64)
    {u : U}
    (hstage : s.stage u = .translated ∨ s.stage u = .compiled ∧ s₁.graph.useDepInfo u = false)
    {fp : Fingerprints H T U P} (hfp : updateLocal s.disk u s.fingerprints = some fp) :
    fp.locals u = (s₁.toBeWritten hash64 made).locals u := by
  have hnot := ne_of_ready hstage
  have hdirty := (h.unit u).dirty hnot.1
  rcases h.updateLocal_cases hbegun hstage hfp with ⟨hpath, hnew, -⟩ | ⟨hpath, rfl⟩
  · simp [State.toBeWritten, hnew, hpath, hdirty]
  · simp [State.toBeWritten, hpath, ((h.unit u).unhashed hnot.2).2.1]

/-- Bringing a unit up to date changes no hash of a unit that is done. -/
theorem updated_hashOf_of_done [LinearOrder T] (h : Midway hash64 made s₁ s)
    (hbegun : s₁.Begun hash64) {u x : U} {fp : Fingerprints H T U P}
    (hfp : updateLocal s.disk u s.fingerprints = some fp)
    (hbelow : ¬ s₁.graph.dag.Below x u) (hx : s₁.dirty x = false ∨ s.stage x = .written) :
    hashOf hash64 s₁.graph fp x =
      hashOf hash64 s₁.graph (s₁.toBeWritten hash64 made) x := by
  obtain ⟨-, hother, -⟩ := updateLocal_spec hfp
  have hne : ∀ y, s₁.graph.dag.Below x y → y ≠ u := fun y hy hyu => hbelow (hyu ▸ hy)
  rw [← h.hashOf_of_done hbegun hx]
  exact hashOf_congr (fun y hy => (hother y (hne y hy)).1) fun y hy => (hother y (hne y hy)).2

theorem updated_contentsOf [LinearOrder T] (h : Midway hash64 made s₁ s) (hbegun : s₁.Begun hash64)
    {u : U}
    (hstage : s.stage u = .translated ∨ s.stage u = .compiled ∧ s₁.graph.useDepInfo u = false)
    {fp : Fingerprints H T U P} (hfp : updateLocal s.disk u s.fingerprints = some fp) :
    contentsOf hash64 s₁.graph fp u =
      contentsOf hash64 s₁.graph (s₁.toBeWritten hash64 made) u := by
  have hstarted := (ne_of_ready hstage).1
  refine contentsOf_eq_iff.mpr ⟨h.updated_locals hbegun hstage hfp, fun d hd => ?_⟩
  have hbelow : ¬ s₁.graph.dag.Below d.unit u := Dag.not_below_of_mem (List.mem_map_of_mem hd)
  apply h.updated_hashOf_of_done hbegun hfp hbelow
  cases hdirty : s₁.dirty d.unit with
  | false => exact .inl rfl
  | true => exact .inr (h.inOrder u hstarted d (UnitGraph.mem_queueDeps hd) hdirty)

/-- The hash that is computed is the one to be written. -/
theorem updated_hashOf [LinearOrder T] (h : Midway hash64 made s₁ s) (hbegun : s₁.Begun hash64)
    {u : U}
    (hstage : s.stage u = .translated ∨ s.stage u = .compiled ∧ s₁.graph.useDepInfo u = false)
    {fp : Fingerprints H T U P} (hfp : updateLocal s.disk u s.fingerprints = some fp) :
    hashOf hash64 s₁.graph fp u = hashOf hash64 s₁.graph (s₁.toBeWritten hash64 made) u := by
  have hcontents := h.updated_contentsOf hbegun hstage hfp
  have hnot := ne_of_ready hstage
  have hdirty := (h.unit u).dirty hnot.1
  obtain ⟨-, -, hmemo⟩ := (h.unit u).unhashed hnot.2
  have hnone : fp.memoizedHash u = none →
      (s₁.toBeWritten hash64 made).memoizedHash u = none →
      hashOf hash64 s₁.graph fp u = hashOf hash64 s₁.graph (s₁.toBeWritten hash64 made) u := by
    intro hfp htbw
    rw [hashOf_of_none hfp, hashOf_of_none htbw, hcontents]
  rcases h.updateLocal_cases hbegun hstage hfp with ⟨hpath, -, hdropped⟩ | ⟨hpath, rfl⟩
  · exact hnone hdropped (by simp [State.toBeWritten, hdirty, hpath])
  · rcases hmemo with hsame | ⟨hclean, -⟩
    · -- what was noted before is kept: no time, so nothing was dropped
      cases hnoted : s₁.fingerprints.memoizedHash u with
      | none =>
        exact hnone (hsame.trans hnoted) (by simp [State.toBeWritten, hdirty, hpath, hnoted])
      | some v =>
        have hkept : (s₁.toBeWritten hash64 made).memoizedHash u = some v := by
          simp [State.toBeWritten, hdirty, hpath, hnoted, hashOf_of_some hnoted]
        rw [hashOf_of_some (hsame.trans hnoted), hashOf_of_some hkept]
    · rw [hdirty] at hclean
      cases hclean

/-- The order of the dependencies is kept if a job goes on. -/
theorem inOrder_update (h : Midway hash64 made s₁ s) {u : U} {stage : Stage}
    (hdeps : ∀ d ∈ s₁.graph.queueDeps u, s₁.dirty d.unit = true → s.stage d.unit = .written)
    (hstage : s.stage u = .written → stage = .written) :
    ∀ x, Function.update s.stage u stage x ≠ .waiting → ∀ d ∈ s₁.graph.queueDeps x,
      s₁.dirty d.unit = true → Function.update s.stage u stage d.unit = .written := by
  intro x hx d hd hdirty
  have hwritten : s.stage d.unit = .written := by
    by_cases hxu : x = u
    · exact hdeps d (hxu ▸ hd) hdirty
    · rw [Function.update_of_ne hxu] at hx
      exact h.inOrder x hx d hd hdirty
  by_cases hdu : d.unit = u
  · rw [hdu, Function.update_self]
    exact hstage (hdu ▸ hwritten)
  · rw [Function.update_of_ne hdu]
    exact hwritten

theorem compile (h : Midway hash64 made s₁ s) {u : U} (hdirty : s.dirty u = true)
    (hstage : s.stage u = .waiting)
    (hdeps : ∀ d ∈ s.graph.queueDeps u, s.dirty d.unit = true → s.stage d.unit = .written) :
    Midway hash64 made s₁ { s with
      disk := s.disk.compile u (s.graph.config u)
      stage := Function.update s.stage u .compiled } := by
  rw [h.graph, h.dirty] at hdeps
  refine ⟨h.graph, h.dirty, h.source, h.inOrder_update hdeps (by simp [hstage]), fun x => ?_⟩
  by_cases hxu : x = u
  · subst hxu
    have hunhashed := (h.unit x).unhashed (by simp [hstage, Stage.HasHash])
    have hunwritten := (h.unit x).unwritten (by simp [hstage])
    constructor <;> simp only [Function.update_self, Disk.compile]
    · exact fun _ => h.dirty ▸ hdirty
    · simp
    · simp
    · simp [Stage.HasHash]
    · exact fun _ => hunhashed
    · simp [Stage.HasHash]
    · exact fun _ => hunwritten
    · simp
  · refine (h.unit x).frame ⟨?_, rfl, rfl, ?_, rfl, rfl, rfl⟩ (.inl rfl)
    · exact Function.update_of_ne hxu _ _
    · exact Function.update_of_ne hxu _ _

theorem translate [DecidableEq P] (h : Midway hash64 made s₁ s) {u : U}
    (hstage : s.stage u = .compiled) :
    Midway hash64 made s₁ { s with
      disk := s.disk.translateDepInfo u (made u).1 (made u).2
      stage := Function.update s.stage u .translated } := by
  have hstarted : s.stage u ≠ .waiting := by simp [hstage]
  refine ⟨h.graph, h.dirty, fun p => ?_, h.inOrder_update (h.inOrder u hstarted) (by simp [hstage]),
    fun x => ?_⟩
  · simpa [Disk.translateDepInfo] using h.source p
  · by_cases hxu : x = u
    · subst hxu
      have hunhashed := (h.unit x).unhashed (by simp [hstage, Stage.HasHash])
      have hunwritten := (h.unit x).unwritten (by simp [hstage])
      constructor <;> simp only [Function.update_self, Disk.translateDepInfo]
      · exact fun _ => (h.unit x).dirty hstarted
      · simp
      · simpa using (h.unit x).compiled hstarted
      · simp
      · exact fun _ => hunhashed
      · simp [Stage.HasHash]
      · exact fun _ => hunwritten
      · simp
    · refine (h.unit x).frame ⟨?_, ?_, ?_, ?_, rfl, rfl, rfl⟩ (.inl rfl)
      · exact Function.update_of_ne hxu _ _
      · exact Function.update_of_ne (by simp [hxu]) _ _
      · exact Function.update_of_ne hxu _ _
      · exact Function.update_of_ne hxu _ _

omit [DecidableEq U] in
/-- Hashes are noted below a unit that was started, where there is only what is clean or has its
hash. -/
theorem memo_of_noted [LinearOrder T] (h : Midway hash64 made s₁ s) (hbegun : s₁.Begun hash64)
    {u x : U} (hstarted : s.stage u ≠ .waiting) (hxu : x ≠ u) {fp fp' : Fingerprints H T U P}
    (hnoted : Noted hash64 s₁.graph (s₁.graph.dag.Below u) fp fp')
    (hkept : fp.memoizedHash x = s.fingerprints.memoizedHash x)
    (hhash : s₁.dirty x = false → ¬ s₁.graph.dag.Below x u →
      hashOf hash64 s₁.graph fp x = hashOf hash64 s₁.graph (s₁.toBeWritten hash64 made) x) :
    fp'.memoizedHash x = s.fingerprints.memoizedHash x ∨ s₁.dirty x = false ∧
      fp'.memoizedHash x = some (hashOf hash64 s₁.graph s₁.fingerprints x) := by
  rw [← hkept]
  rcases hnoted.memo_cases x with heq | ⟨hsome, hbelow⟩
  · exact .inl heq
  · rcases h.below hbegun hstarted hbelow with heq | hclean | hdone
    · exact absurd heq hxu
    · have hnot : ¬ s₁.graph.dag.Below x u := fun hux => by
        have hdirty := (h.unit u).dirty hstarted
        rw [hbegun.clean_below hux hclean] at hdirty
        cases hdirty
      refine .inr ⟨hclean, ?_⟩
      rw [hsome, hhash hclean hnot, hashOf_toBeWritten_of_clean hclean]
    · have hmemo := ((h.unit x).hashed (.inr hdone)).2.2
      left
      rw [hsome, hkept, hmemo, hashOf_of_some (hkept.trans hmemo)]

theorem writeShort [LinearOrder T] (h : Midway hash64 made s₁ s) (hbegun : s₁.Begun hash64) {u : U}
    (hstage : s.stage u = .translated ∨ s.stage u = .compiled ∧ s₁.graph.useDepInfo u = false)
    {fp : Fingerprints H T U P} (hfp : updateLocal s.disk u s.fingerprints = some fp) :
    Midway hash64 made s₁ (s.writeShort hash64 u fp) := by
  obtain ⟨hstarted, hunhashed⟩ := ne_of_ready hstage
  have hlocals := h.updated_locals hbegun hstage hfp
  have hhash := h.updated_hashOf hbegun hstage hfp
  have hmemo := memoizedHash_writeShort hash64 s₁.graph u fp s.disk
  obtain ⟨hdisk, hnoted⟩ := writeShort_spec hash64 s₁.graph u fp s.disk
  rw [State.writeShort, h.graph, hdisk]
  generalize (Fingerprint.writeShort hash64 s₁.graph u (fp, s.disk)).1 = fp' at hmemo hnoted
  refine ⟨rfl, h.dirty, h.source, h.inOrder_update (h.inOrder u hstarted) fun hwritten =>
    absurd (.inr hwritten) hunhashed, fun x => ?_⟩
  by_cases hxu : x = u
  · subst hxu
    constructor <;> simp only [Function.update_self]
    · exact fun _ => (h.unit x).dirty hstarted
    · simp
    · exact fun _ => (h.unit x).compiled hstarted
    · rintro (hwrong | ⟨-, hpath⟩)
      · cases hwrong
      · apply (h.unit x).translated
        rcases hstage with hstage | ⟨-, hno⟩
        · exact .inl hstage
        · rw [hpath] at hno
          cases hno
    · simp [Stage.HasHash]
    · intro _
      rw [hnoted.locals, hmemo, hhash, hlocals]
      exact ⟨rfl, rfl, rfl⟩
    · exact fun _ => (h.unit x).unwritten fun hwritten => hunhashed (.inr hwritten)
    · simp
  · obtain ⟨-, hother, -⟩ := updateLocal_spec hfp
    obtain ⟨hsame, hkept⟩ := hother x hxu
    refine (h.unit x).frame ⟨?_, rfl, rfl, rfl, ?_, rfl, ?_⟩ ?_
    · exact Function.update_of_ne hxu _ _
    · exact Function.update_of_ne hxu _ _
    · rw [← hsame, ← hnoted.locals]
    · exact h.memo_of_noted hbegun hstarted hxu hnoted hkept fun hclean hnot =>
        h.updated_hashOf_of_done hbegun hfp hnot (.inl hclean)

theorem writeJson [LinearOrder T] (h : Midway hash64 made s₁ s) (hbegun : s₁.Begun hash64) {u : U}
    (hstage : s.stage u = .hashed) : Midway hash64 made s₁ (s.writeJson hash64 u) := by
  have hstarted : s.stage u ≠ .waiting := by simp [hstage]
  obtain ⟨hshort, hlocals, hmemo⟩ := (h.unit u).hashed (.inl hstage)
  -- the dependencies are done, so that the contents are those to be written
  have hcontents : contentsOf hash64 s₁.graph s.fingerprints u =
      contentsOf hash64 s₁.graph (s₁.toBeWritten hash64 made) u := by
    refine contentsOf_eq_iff.mpr ⟨hlocals, fun d hd => h.hashOf_of_done hbegun ?_⟩
    cases hdirty : s₁.dirty d.unit with
    | false => exact .inl rfl
    | true => exact .inr (h.inOrder u hstarted d (UnitGraph.mem_queueDeps hd) hdirty)
  obtain ⟨hdisk, hnoted⟩ := writeJson_spec hash64 s₁.graph u s.fingerprints s.disk
  rw [State.writeJson, h.graph, hdisk]
  generalize (Fingerprint.writeJson hash64 s₁.graph u (s.fingerprints, s.disk)).1 = fp' at hnoted
  refine ⟨rfl, h.dirty, h.source, h.inOrder_update (h.inOrder u hstarted) fun _ => rfl,
    fun x => ?_⟩
  by_cases hxu : x = u
  · subst hxu
    constructor <;> simp only [Function.update_self]
    · exact fun _ => (h.unit x).dirty hstarted
    · simp
    · exact fun _ => (h.unit x).compiled hstarted
    · rintro (hwrong | ⟨-, hpath⟩)
      · cases hwrong
      · exact (h.unit x).translated (.inr ⟨.inl hstage, hpath⟩)
    · simp [Stage.HasHash]
    · intro _
      refine ⟨hshort, by rw [hnoted.locals, hlocals], ?_⟩
      rcases hnoted.memo_cases x with heq | ⟨hsome, -⟩
      · exact heq.trans hmemo
      · rw [hsome, hashOf_of_some hmemo]
    · simp
    · rw [hcontents]
      exact fun _ => rfl
  · refine (h.unit x).frame ⟨?_, rfl, rfl, rfl, rfl, ?_, ?_⟩ ?_
    · exact Function.update_of_ne hxu _ _
    · exact Function.update_of_ne hxu _ _
    · rw [hnoted.locals]
    · exact h.memo_of_noted hbegun hstarted hxu hnoted rfl fun hclean _ =>
        h.hashOf_of_done hbegun (.inl hclean)

theorem step [LinearOrder T] [DecidableEq P] (h : Midway hash64 made s₁ s)
    (hbegun : s₁.Begun hash64) {s' : State H T U P} (hstep : JobStep hash64 made s s') :
    Midway hash64 made s₁ s' := by
  cases hstep with
  | compile u hdirty hstage hdeps => exact h.compile hdirty hstage hdeps
  | translate u hstage => exact h.translate hstage
  | writeShort u fp hstage hfp => exact h.writeShort hbegun (h.graph ▸ hstage) hfp
  | writeJson u hstage => exact h.writeJson hbegun hstage

/-- What holds of a run as long as it is under way. -/
theorem of_run [LinearOrder T] [DecidableEq P] (hbegun : s₁.Begun hash64)
    (hrun : ReflTransGen (JobStep hash64 made) s₁ s) : Midway hash64 made s₁ s :=
  invariant_of_reachable hrun hbegun.midway fun _ _ h hstep => h.step hbegun hstep

end Midway

end Written

/-! ### The end of a run -/

section Finish

variable {H T U P : Type} [LinearOrder T] [DecidableEq U] [DecidableEq P]
variable {hash64 : Contents H T U P → H} {made : U → T × List P} {s₁ s : State H T U P}

omit [DecidableEq P] in
theorem Midway.exists_updateLocal (h : Midway hash64 made s₁ s) (hbegun : s₁.Begun hash64) {u : U}
    (hstage : s.stage u = .translated) :
    ∃ fp, updateLocal s.disk u s.fingerprints = some fp := by
  obtain ⟨-, hlocals, -⟩ := (h.unit u).unhashed (by simp [hstage, Stage.HasHash])
  rw [hbegun.locals] at hlocals
  cases hpath : s₁.graph.useDepInfo u with
  | true =>
    rw [locals_calculate_of_path hpath] at hlocals
    obtain ⟨fp, hfp, -⟩ := exists_updateLocal_of_mtimeBased hlocals
      ((h.unit u).translated (.inl hstage)).1
    exact ⟨fp, hfp⟩
  | false =>
    rw [locals_calculate_of_not_path hpath] at hlocals
    exact ⟨_, updateLocal_of_precalculated hlocals⟩

/-- A unit whose dependencies are done can be done. -/
theorem Midway.exists_job (h : Midway hash64 made s₁ s) (hbegun : s₁.Begun hash64) {u : U}
    (hdirty : s₁.dirty u = true) (hstage : s.stage u = .waiting)
    (hdeps : ∀ d ∈ s₁.graph.queueDeps u, s₁.dirty d.unit = true → s.stage d.unit = .written) :
    ∃ s', ReflTransGen (JobStep hash64 made) s s' ∧
      s'.stage = Function.update s.stage u .written := by
  rw [← h.dirty] at hdirty
  rw [← h.graph, ← h.dirty] at hdeps
  have hcompile : JobStep hash64 made s { s with
      disk := s.disk.compile u (s.graph.config u)
      stage := Function.update s.stage u .compiled } := .compile u hdirty hstage hdeps
  have htranslate : JobStep hash64 made _ { s with
      disk := (s.disk.compile u (s.graph.config u)).translateDepInfo u (made u).1 (made u).2
      stage := Function.update (Function.update s.stage u .compiled) u .translated } :=
    .translate (s := { s with
      disk := s.disk.compile u (s.graph.config u)
      stage := Function.update s.stage u .compiled }) u (by simp)
  have hmidway := (h.step hbegun hcompile).step hbegun htranslate
  obtain ⟨fp, hfp⟩ := hmidway.exists_updateLocal hbegun (u := u) (by simp)
  have hshort : JobStep hash64 made _ _ := .writeShort u fp (.inl (by simp)) hfp
  refine ⟨_, (((ReflTransGen.single hcompile).tail htranslate).tail hshort).tail
    (.writeJson u (by simp [State.writeShort])), ?_⟩
  simp [State.writeShort, State.writeJson]

variable (made) in
/-- Units can be done one after the other, those with few units below them first. -/
theorem exists_prefix (hbegun : s₁.Begun hash64) {order : List U} (horder : ∀ u, u ∈ order)
    (hsorted : order.Pairwise fun u v => s₁.graph.rank u ≤ s₁.graph.rank v) (l l' : List U)
    (hl : order = l ++ l') :
    ∃ s, ReflTransGen (JobStep hash64 made) s₁ s ∧
      (∀ u ∈ l, s₁.dirty u = true → s.stage u = .written) ∧
      ∀ u, u ∉ l → s.stage u = .waiting := by
  induction l using List.reverseRecOn generalizing l' with
  | nil => exact ⟨s₁, .refl, by simp, fun u _ => hbegun.stage u⟩
  | append_singleton l u ih =>
    rw [List.append_assoc, List.singleton_append] at hl
    obtain ⟨s, hrun, hdone, hwaiting⟩ := ih (u :: l') hl
    by_cases hu : u ∈ l ∨ s₁.dirty u = false
    · refine ⟨s, hrun, fun x hx hdirty => ?_, fun x hx => hwaiting x (by simp_all)⟩
      rcases List.mem_append.mp hx with hx | hx
      · exact hdone x hx hdirty
      · rw [List.mem_singleton] at hx
        subst hx
        rcases hu with hu | hclean
        · exact hdone x hu hdirty
        · rw [hclean] at hdirty
          cases hdirty
    · rw [not_or, Bool.not_eq_false] at hu
      have hmidway := Midway.of_run hbegun hrun
      have hdeps : ∀ d ∈ s₁.graph.queueDeps u, s₁.dirty d.unit = true →
          s.stage d.unit = .written := by
        intro d hd hdirty
        -- a dependency has a smaller rank, so it comes before
        have hlt := s₁.graph.rank_lt u d (List.mem_filter.mp hd).1
        have hmem := horder d.unit
        rw [hl, List.mem_append, List.mem_cons] at hmem
        rcases hmem with hmem | heq | hmem
        · exact hdone _ hmem hdirty
        · rw [heq] at hlt
          exact absurd hlt (lt_irrefl _)
        · rw [hl, List.pairwise_append, List.pairwise_cons] at hsorted
          exact absurd (hsorted.2.1.1 _ hmem) (Nat.not_le.mpr hlt)
      obtain ⟨s', hjob, hstage⟩ := hmidway.exists_job hbegun hu.2 (hwaiting u hu.1) hdeps
      refine ⟨s', hrun.trans hjob, fun x hx hdirty => ?_, fun x hx => ?_⟩
      · rw [hstage]
        by_cases hxu : x = u
        · rw [hxu, Function.update_self]
        · rw [Function.update_of_ne hxu]
          exact hdone x (by simpa [hxu] using hx) hdirty
      · rw [List.mem_append, List.mem_singleton, not_or] at hx
        rw [hstage, Function.update_of_ne hx.2]
        exact hwaiting x hx.1

/-- A run can always come to its end. -/
theorem exists_finished (hbegun : s₁.Begun hash64) {units : List U} (hunits : ∀ u, u ∈ units) :
    ∃ s, ReflTransGen (JobStep hash64 made) s₁ s ∧ s.Finished := by
  have hsorted : (units.mergeSort fun u v => decide (s₁.graph.rank u ≤ s₁.graph.rank v)).Pairwise
      fun u v => s₁.graph.rank u ≤ s₁.graph.rank v := by
    refine (List.pairwise_mergeSort (fun u v w huv hvw => ?_) (fun u v => ?_) units).imp
      of_decide_eq_true
    · exact decide_eq_true ((of_decide_eq_true huv).trans (of_decide_eq_true hvw))
    · simpa using Nat.le_total _ _
  obtain ⟨s, hrun, hdone, -⟩ := exists_prefix made hbegun
    (fun u => List.mem_mergeSort.mpr (hunits u)) hsorted _ [] (List.append_nil _).symm
  refine ⟨s, hrun, fun u hu => hdone u (List.mem_mergeSort.mpr (hunits u)) ?_⟩
  rwa [(Midway.of_run hbegun hrun).dirty] at hu

end Finish

end Cargo.Compiler.Fingerprint
