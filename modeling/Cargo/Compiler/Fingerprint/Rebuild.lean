import Cargo.Compiler.Fingerprint.Jobs

/-!
# The next run

If nothing changes after a run, the next run should find all units fresh.

The hash that is noted of a unit without a time is not that of its contents any more when a path
unit below has been compiled. The unit itself is fresh then, as its contents compare well; but the
units above it have recorded the old hash, and they are compiled again.

## Main definitions

* `FilesOlder` — a dep-info will count
* `Outdated` — a hash that is noted will be wrong

## Main results

* `fresh_again_iff` — when the next run finds all units fresh
* `not_fresh_again` — it may not
-/

set_option autoImplicit false

namespace Cargo.Compiler.Fingerprint

open Relation
open Cargo.Math

section Conditions

variable {H T U P : Type} (made : U → T × List P)

/-- The files that the dep-info of a unit will list are there, and older. -/
def FilesOlder [LT T] (disk : Disk H T U P) (u : U) : Prop :=
  (made u).2 ≠ [] ∧
    ∀ p ∈ (made u).2, ∃ mtime2, disk.mtime (.source p) = some mtime2 ∧ mtime2 < (made u).1

/-- The hash of a unit is noted when the run begins, and is kept. But below there is a path unit
that is compiled, and its dep-info will have another time. -/
def Outdated [LinearOrder T] (g : UnitGraph H U) (disk : Disk H T U P) (units : List U)
    (dirty : U → Bool) (u : U) : Prop :=
  g.useDepInfo u = false ∧ (∃ v ∈ units, Asked g disk v u) ∧
    ∃ x, g.dag.Below u x ∧ g.useDepInfo x = true ∧ dirty x = true ∧
      depInfoMtimeIfFresh disk x ≠ some (made x).1

end Conditions

/-! ### The next run -/

section Next

variable {H T U P : Type} [LinearOrder T] {hash64 : Contents H T U P → H} {made : U → T × List P}
variable {s₁ s : State H T U P}

namespace Midway

/-- The dep-info of a unit that was compiled counts if the files listed there are older. -/
theorem depInfoMtimeIfFresh_iff (h : Midway hash64 made s₁ s) (hfinished : s.Finished) {u : U}
    (hpath : s₁.graph.useDepInfo u = true) (hdirty : s₁.dirty u = true) {mtime : T} :
    depInfoMtimeIfFresh s.disk u = some mtime ↔
      mtime = (made u).1 ∧ FilesOlder made s₁.disk u := by
  have hdone := hfinished u (h.dirty ▸ hdirty)
  obtain ⟨hmtime, hlisted⟩ := (h.unit u).translated (.inr ⟨.inr hdone, hpath⟩)
  rw [depInfoMtimeIfFresh_eq_some, hmtime, hlisted, Option.some.injEq]
  simp only [h.source]
  constructor
  · rintro ⟨rfl, hfiles⟩
    exact ⟨rfl, hfiles⟩
  · rintro ⟨rfl, hfiles⟩
    exact ⟨rfl, hfiles⟩

/-- The next run finds what was written. -/
theorem calculate_locals (h : Midway hash64 made s₁ s) (hbegun : s₁.Begun hash64)
    (hfinished : s.Finished) {u : U}
    (hfiles : s₁.graph.useDepInfo u = true → s₁.dirty u = true → FilesOlder made s₁.disk u) :
    (calculate s₁.graph s.disk).locals u = (s₁.toBeWritten hash64 made).locals u := by
  cases hpath : s₁.graph.useDepInfo u with
  | false => simp [State.toBeWritten, calculate, hpath, hbegun.locals]
  | true =>
    cases hdirty : s₁.dirty u with
    | false =>
      obtain ⟨hmtime, hlisted, -⟩ := (h.unit u).waiting (h.waiting_of_clean hdirty)
      have hsame : depInfoMtimeIfFresh s.disk u = depInfoMtimeIfFresh s₁.disk u := by
        ext mtime
        rw [depInfoMtimeIfFresh_eq_some, depInfoMtimeIfFresh_eq_some, hmtime, hlisted]
        simp only [h.source]
      simp [State.toBeWritten, calculate, hpath, hdirty, hbegun.locals, hsame]
    | true =>
      have hnow := (h.depInfoMtimeIfFresh_iff hfinished hpath hdirty).mpr
        ⟨rfl, hfiles hpath hdirty⟩
      simp [State.toBeWritten, calculate, hpath, hdirty, hnow]

/-- If the hashes agree, or the contents, then it is fresh. -/
theorem freshTarget_iff [DecidableEq H] (h : Midway hash64 made s₁ s) (hfinished : s.Finished)
    {u : U} (hdirty : s₁.dirty u = true) :
    FreshTarget hash64 s₁.graph s.disk (calculate s₁.graph s.disk) u ↔
      hashOf hash64 s₁.graph (s₁.toBeWritten hash64 made) u =
          hashOf hash64 s₁.graph (calculate s₁.graph s.disk) u ∨
        List.Forall₂ SameLocal ((calculate s₁.graph s.disk).locals u)
            ((s₁.toBeWritten hash64 made).locals u) ∧
          ∀ d ∈ s₁.graph.deps u, hashOf hash64 s₁.graph (calculate s₁.graph s.disk) d.unit =
            hashOf hash64 s₁.graph (s₁.toBeWritten hash64 made) d.unit := by
  have hdone := hfinished u (h.dirty ▸ hdirty)
  have houtput := (h.unit u).compiled (by simp [hdone])
  obtain ⟨hshort, -⟩ := (h.unit u).hashed (.inr hdone)
  have hjson := (h.unit u).written hdone
  rw [FreshTarget, AsRecorded, hshort, hjson, and_iff_left houtput, Option.some.injEq,
    Option.some.injEq]
  refine or_congr Iff.rfl ?_
  simp only [ne_eq, reduceCtorEq, not_false_eq_true, true_and, Option.some.injEq,
    exists_eq_left', compare_ok_iff]
  simp only [contentsOf, true_and, List.forall₂_map_left_iff, List.forall₂_map_right_iff,
    List.forall₂_same]

/-- A hash is still that from before if nothing has changed below. -/
theorem hashOf_calculate_iff (h : Midway hash64 made s₁ s) (hbegun : s₁.Begun hash64)
    (hfinished : s.Finished) (hinj : Function.Injective hash64)
    (hfiles : ∀ u, s₁.dirty u = true → s₁.graph.useDepInfo u = true → FilesOlder made s₁.disk u)
    {u : U} :
    hashOf hash64 s₁.graph (calculate s₁.graph s.disk) u =
        hashOf hash64 s₁.graph s₁.fingerprints u ↔
      ∀ x, s₁.graph.dag.Below u x →
        (s₁.toBeWritten hash64 made).locals x = s₁.fingerprints.locals x := by
  rw [hbegun.hashes, hashOf_eq_iff hinj (fun _ => rfl) fun _ => rfl]
  refine forall₂_congr fun x _ => ?_
  rw [h.calculate_locals hbegun hfinished fun hpath hdirty => hfiles x hdirty hpath,
    hbegun.locals]

variable [DecidableEq H]

/-- A path unit is not fresh if its dep-info does not count. -/
theorem filesOlder_of_fresh (h : Midway hash64 made s₁ s) (hfinished : s.Finished)
    (hinj : Function.Injective hash64) {u : U} (hdirty : s₁.dirty u = true)
    (hpath : s₁.graph.useDepInfo u = true)
    (hfresh : FreshTarget hash64 s₁.graph s.disk (calculate s₁.graph s.disk) u) :
    FilesOlder made s₁.disk u := by
  by_contra hfiles
  have hnone : depInfoMtimeIfFresh s.disk u = none :=
    Option.eq_none_iff_forall_ne_some.mpr fun mtime hsome =>
      hfiles ((h.depInfoMtimeIfFresh_iff hfinished hpath hdirty).mp hsome).2
  rcases (h.freshTarget_iff hfinished hdirty).mp hfresh with hsame | ⟨hlocals, -⟩
  · have hmemo : (s₁.toBeWritten hash64 made).memoizedHash u = none := by
      simp [State.toBeWritten, hdirty, hpath]
    rw [hashOf_of_none hmemo, hashOf_of_none rfl] at hsame
    have hlocals := (contentsOf_eq_iff.mp (hinj hsame)).1
    simp [State.toBeWritten, calculate, hdirty, hpath, hnone] at hlocals
  · simp [State.toBeWritten, calculate, hdirty, hpath, hnone, SameLocal, shouldRebuild] at hlocals

/-- A unit is not fresh if the hash of one of its dependencies was kept, and something below that
has changed. -/
theorem not_fresh_of_kept (h : Midway hash64 made s₁ s) (hbegun : s₁.Begun hash64)
    (hfinished : s.Finished) (hinj : Function.Injective hash64)
    (hfiles : ∀ u, s₁.dirty u = true → s₁.graph.useDepInfo u = true → FilesOlder made s₁.disk u)
    {u : U} {d : Dep U} (hd : d ∈ s₁.graph.deps u) (hkept : s₁.graph.useDepInfo d.unit = false)
    (hnoted : s₁.fingerprints.memoizedHash d.unit ≠ none) {x : U}
    (hx : s₁.graph.dag.Below d.unit x) (hpath : s₁.graph.useDepInfo x = true)
    (hdirty : s₁.dirty x = true) (htime : depInfoMtimeIfFresh s₁.disk x ≠ some (made x).1) :
    ¬ FreshTarget hash64 s₁.graph s.disk (calculate s₁.graph s.disk) u := by
  have hchanged : (s₁.toBeWritten hash64 made).locals x ≠ s₁.fingerprints.locals x := by
    simpa [State.toBeWritten, hbegun.locals, calculate, hpath, hdirty] using Ne.symm htime
  have hux : s₁.graph.dag.Below u x := .head (List.mem_map_of_mem hd) hx
  have hu : s₁.dirty u = true := by
    by_contra hclean
    rw [hbegun.clean_below hux (Bool.not_eq_true _ ▸ hclean)] at hdirty
    cases hdirty
  -- the hash of the dependency that is recorded is not its hash any more
  have hstale : hashOf hash64 s₁.graph (s₁.toBeWritten hash64 made) d.unit ≠
      hashOf hash64 s₁.graph (calculate s₁.graph s.disk) d.unit := by
    have hmemo : (s₁.toBeWritten hash64 made).memoizedHash d.unit =
        some (hashOf hash64 s₁.graph s₁.fingerprints d.unit) := by
      simp [State.toBeWritten, hkept, Option.isSome_iff_ne_none, hnoted]
    rw [hashOf_of_some hmemo]
    intro hsame
    exact hchanged ((h.hashOf_calculate_iff hbegun hfinished hinj hfiles).mp hsame.symm x hx)
  intro hfresh
  rcases (h.freshTarget_iff hfinished hu).mp hfresh with hsame | ⟨-, hdeps⟩
  · rcases memoizedHash_toBeWritten_cases u with hmemo | ⟨hmemo, -⟩
    · rw [hashOf_of_none hmemo, hashOf_of_none rfl] at hsame
      exact hstale ((contentsOf_eq_iff.mp (hinj hsame)).2 d hd)
    · rw [hashOf_of_some hmemo] at hsame
      exact hchanged ((h.hashOf_calculate_iff hbegun hfinished hinj hfiles).mp hsame.symm x hux)
  · exact hstale (hdeps d hd).symm

omit [DecidableEq H] in
/-- Otherwise the hashes that are recorded are right. -/
theorem hashOf_eq_of_deps (h : Midway hash64 made s₁ s) (hbegun : s₁.Begun hash64)
    (hfinished : s.Finished) (hinj : Function.Injective hash64)
    (hfiles : ∀ u, s₁.dirty u = true → s₁.graph.useDepInfo u = true → FilesOlder made s₁.disk u)
    (hkept : ∀ u, ∀ d ∈ s₁.graph.deps u, s₁.graph.useDepInfo d.unit = false →
      s₁.fingerprints.memoizedHash d.unit ≠ none → ∀ x, s₁.graph.dag.Below d.unit x →
      s₁.graph.useDepInfo x = true → s₁.dirty x = true →
      depInfoMtimeIfFresh s₁.disk x = some (made x).1) (u : U) :
    ∀ d ∈ s₁.graph.deps u, hashOf hash64 s₁.graph (calculate s₁.graph s.disk) d.unit =
      hashOf hash64 s₁.graph (s₁.toBeWritten hash64 made) d.unit := by
  -- from the bottom: a hash that was not kept is made from those below, which are right
  induction u using s₁.graph.dag.induction with
  | h u ih =>
    intro d hd
    rcases memoizedHash_toBeWritten_cases d.unit with hmemo | ⟨hmemo, hwhy⟩
    · rw [hashOf_of_none hmemo, hashOf_of_none rfl]
      congr 1
      refine contentsOf_eq_iff.mpr ⟨?_, ih d.unit (List.mem_map_of_mem hd)⟩
      exact h.calculate_locals hbegun hfinished fun hpath hdirty => hfiles _ hdirty hpath
    · rw [hashOf_of_some hmemo]
      refine (h.hashOf_calculate_iff hbegun hfinished hinj hfiles).mpr fun x hx => ?_
      rcases hwhy with hclean | ⟨hkind, hnoted⟩
      · simp [State.toBeWritten, hbegun.clean_below hx hclean]
      · cases hpath : s₁.graph.useDepInfo x with
        | false => simp [State.toBeWritten, hpath]
        | true =>
          cases hdirty : s₁.dirty x with
          | false => simp [State.toBeWritten, hdirty]
          | true =>
            have htime := hkept u d hd hkind hnoted x hx hpath hdirty
            simp [State.toBeWritten, hbegun.locals, calculate, hpath, hdirty, htime]

/-- What was skipped is fresh again. -/
theorem freshTarget_of_clean (h : Midway hash64 made s₁ s) (hbegun : s₁.Begun hash64)
    (hfinished : s.Finished) (hinj : Function.Injective hash64) {u : U}
    (hu : s₁.dirty u = false)
    (hfresh : FreshTarget hash64 s₁.graph s₁.disk (calculate s₁.graph s₁.disk) u) :
    FreshTarget hash64 s₁.graph s.disk (calculate s₁.graph s.disk) u := by
  have hlocals : ∀ x, s₁.graph.dag.Below u x →
      (calculate s₁.graph s.disk).locals x = (calculate s₁.graph s₁.disk).locals x := by
    intro x hx
    have hclean := hbegun.clean_below hx hu
    rw [h.calculate_locals hbegun hfinished fun _ hdirty => by simp [hclean] at hdirty,
      ← hbegun.locals]
    simp [State.toBeWritten, hclean]
  have hhash : ∀ x, s₁.graph.dag.Below u x →
      hashOf hash64 s₁.graph (calculate s₁.graph s.disk) x =
        hashOf hash64 s₁.graph (calculate s₁.graph s₁.disk) x := by
    intro x hx
    refine (hashOf_eq_iff hinj (fun _ => rfl) fun _ => rfl).mpr fun y hy => ?_
    exact hlocals y (hx.trans hy)
  have hcontents : contentsOf hash64 s₁.graph (calculate s₁.graph s.disk) u =
      contentsOf hash64 s₁.graph (calculate s₁.graph s₁.disk) u :=
    contentsOf_eq_iff.mpr ⟨hlocals u .refl, fun d hd =>
      hhash d.unit (.single (List.mem_map_of_mem hd))⟩
  have hwaiting := h.waiting_of_clean hu
  obtain ⟨-, -, houtput⟩ := (h.unit u).waiting hwaiting
  obtain ⟨hshort, -⟩ := (h.unit u).unhashed (by simp [hwaiting, Stage.HasHash])
  have hjson := (h.unit u).unwritten (by simp [hwaiting])
  rw [FreshTarget, AsRecorded, hshort, hjson, houtput, hhash u .refl, hcontents]
  exact hfresh

end Midway

variable [DecidableEq H] [DecidableEq U]

theorem State.begun_start (hash64 : Contents H T U P → H) (s₀ : State H T U P) (g : UnitGraph H U)
    (units : List U) (others : U → Bool) : (s₀.start hash64 g units others).Begun hash64 := by
  obtain ⟨-, hnoted, -⟩ := prepare_spec hash64 g s₀.disk units
  refine ⟨fun _ => rfl, fun u => congrFun hnoted.locals u, hnoted.hashOf_eq,
    fun u d hd hdirty => ?_⟩
  by_contra hclean
  have hnone := (UnitGraph.dirty_eq_false.mp (Bool.not_eq_true _ ▸ hclean)).2 d hd
  exact Bool.false_ne_true (hnone.symm.trans hdirty)

/-- The hashes that are noted when a run begins are those below units that have been built. -/
theorem memoizedHash_start_ne_none_iff {s₀ : State H T U P} {g : UnitGraph H U} {units : List U}
    {others : U → Bool} {u : U} :
    (s₀.start hash64 g units others).fingerprints.memoizedHash u ≠ none ↔
      ∃ v ∈ units, Asked g s₀.disk v u := by
  obtain ⟨-, hnoted, hasked⟩ := prepare_spec hash64 g s₀.disk units
  constructor
  · intro hne
    rcases hnoted.memo_cases u with heq | ⟨-, hwhy⟩
    · exact absurd heq hne
    · exact hwhy
  · rintro ⟨v, hv, hshort, hbelow⟩
    have hclosed := hnoted.closed fun x hx => absurd rfl hx
    exact hclosed.below (hasked v hv hshort) hbelow

variable [DecidableEq P]

/-- After a run the next one finds all units fresh if and only if the dep-infos of the path units
that were compiled count, and no unit has recorded a hash that is wrong by now. -/
theorem fresh_again_iff (hinj : Function.Injective hash64) {s₀ s : State H T U P}
    {g : UnitGraph H U} {units : List U} {others : U → Bool} (hunits : ∀ u, u ∈ units)
    (hrun : ReflTransGen (JobStep hash64 made) (s₀.start hash64 g units others) s)
    (hfinished : s.Finished) :
    (∀ u ∈ units, (prepare hash64 g s.disk units).1 u = true) ↔
      (∀ u, (s₀.start hash64 g units others).dirty u = true → g.useDepInfo u = true →
        FilesOlder made s₀.disk u) ∧
      ∀ u, ∀ d ∈ g.deps u,
        ¬ Outdated made g s₀.disk units (s₀.start hash64 g units others).dirty d.unit := by
  have hbegun := s₀.begun_start hash64 g units others
  have hmidway := Midway.of_run hbegun hrun
  have hfresh : (∀ u ∈ units, (prepare hash64 g s.disk units).1 u = true) ↔
      ∀ u, FreshTarget hash64 g s.disk (calculate g s.disk) u := by
    constructor
    · intro h u
      exact ((prepare_spec hash64 g s.disk units).1 u (hunits u)).mp (h u (hunits u))
    · intro h u hu
      exact ((prepare_spec hash64 g s.disk units).1 u hu).mpr (h u)
  rw [hfresh]
  constructor
  · intro hall
    have hfiles := fun u hdirty hpath =>
      hmidway.filesOlder_of_fresh hfinished hinj hdirty hpath (hall u)
    -- a unit above one with an outdated hash has recorded that hash
    refine ⟨hfiles, fun u d hd hout => ?_⟩
    obtain ⟨hkind, hasked, x, hx, hpath, hdirty, htime⟩ := hout
    have hnoted : (s₀.start hash64 g units others).fingerprints.memoizedHash d.unit ≠ none :=
      memoizedHash_start_ne_none_iff.mpr hasked
    exact hmidway.not_fresh_of_kept hbegun hfinished hinj hfiles hd hkind hnoted hx hpath hdirty
      htime (hall u)
  · rintro ⟨hfiles, hout⟩ u
    cases hdirty : (s₀.start hash64 g units others).dirty u with
    | false =>
      apply hmidway.freshTarget_of_clean hbegun hfinished hinj hdirty
      have hown := (UnitGraph.dirty_eq_false.mp hdirty).1
      simp only [notFresh, Bool.or_eq_false_iff, hunits u, decide_true, Bool.true_and,
        Bool.not_eq_false'] at hown
      exact ((prepare_spec hash64 g s₀.disk units).1 u (hunits u)).mp hown.2
    | true =>
      -- the hash of the unit itself may be outdated, but its contents compare well
      refine (hmidway.freshTarget_iff hfinished hdirty).mpr (.inr ⟨?_, ?_⟩)
      · rw [hmidway.calculate_locals hbegun hfinished fun hpath hdirty => hfiles u hdirty hpath]
        exact List.forall₂_same.mpr fun l _ => sameLocal_self l
      · apply hmidway.hashOf_eq_of_deps hbegun hfinished hinj hfiles
        intro u d hd hkind hnoted x hx hpath hdirty
        by_contra htime
        exact hout u d hd ⟨hkind, memoizedHash_start_ne_none_iff.mp hnoted, x, hx, hpath, hdirty,
          htime⟩

end Next

/-! ### A path unit below one that is not -/

/-- A crate from a path, the library that it uses, and what the library is made to use from
another path. -/
inductive Chain
  | app
  | library
  | base
  deriving DecidableEq

def chainGraph : UnitGraph (FreeHash Chain) Chain where
  config _ := ⟨.leaf, "", .leaf, .leaf, .leaf, [], .edition2015⟩
  depTargets
    | .app => [⟨"library 1.0.0", "library", .library, false, false⟩]
    | .library => [⟨"base 1.0.0", "base", .base, false, false⟩]
    | .base => []
  isTest _ := false
  useDepInfo
    | .library => false
    | _ => true
  pkgFingerprint _ := "1.0.0"
  rank
    | .app => 2
    | .library => 1
    | .base => 0
  rank_lt u d hd := by
    cases u <;> simp_all

def chainUnits : List Chain := [.app, .library, .base]

/-- Nothing is there but the sources, which were written at time 1, and the hashes that an earlier
build has left, if there was one. -/
def chainState (built : Bool) : State (FreeHash Chain) ℕ Chain Chain where
  disk :=
    { mtime := fun
        | .source _ => some 1
        | .depInfo _ => none
      listed := fun _ => []
      short := fun _ => if built then some (some .leaf) else none
      json := fun _ => none
      output := fun _ => none }
  graph := chainGraph
  fingerprints := ⟨fun _ => [], fun _ => none⟩
  dirty _ := false
  stage _ := .waiting
  hashed _ := none
  completed _ := none

/-- Dep-infos are translated at time 2. -/
def chainMade (u : Chain) : ℕ × List Chain := (2, [u])

theorem mem_chainUnits (u : Chain) : u ∈ chainUnits := by
  cases u <;> simp [chainUnits]

theorem filesOlder_chain (built : Bool) (u : Chain) :
    FilesOlder chainMade (chainState built).disk u := by
  simp [FilesOlder, chainMade, chainState]

theorem deps_app : chainGraph.deps .app =
    [⟨"library 1.0.0", "library", .library, false, false⟩] := by
  simp [UnitGraph.deps, chainGraph]

theorem deps_library : chainGraph.deps .library =
    [⟨"base 1.0.0", "base", .base, false, false⟩] := by
  simp [UnitGraph.deps, chainGraph]

/-- Outputs are missing, so all units are compiled. -/
theorem dirty_chain (built : Bool) (u : Chain) :
    ((chainState built).start FreeHash.of chainGraph chainUnits fun _ => false).dirty u =
      true := by
  by_contra hclean
  rw [Bool.not_eq_true] at hclean
  obtain ⟨hown, -⟩ := UnitGraph.dirty_eq_false.mp hclean
  simp only [notFresh, mem_chainUnits, decide_true, Bool.true_and, Bool.false_or,
    Bool.not_eq_false'] at hown
  have hfresh := ((prepare_spec FreeHash.of chainGraph (chainState built).disk chainUnits).1 u
    (mem_chainUnits u)).mp hown
  exact hfresh.2 rfl

/-- The first run after an earlier build leaves the crate with the old hash of the library, so
that it is compiled again. -/
theorem not_fresh_again : ¬ ∀ s,
    ReflTransGen (JobStep FreeHash.of chainMade)
      ((chainState true).start FreeHash.of chainGraph chainUnits fun _ => false) s →
    s.Finished →
    ∀ u ∈ chainUnits, (prepare FreeHash.of chainGraph s.disk chainUnits).1 u = true := by
  intro hall
  have hbegun := (chainState true).begun_start FreeHash.of chainGraph chainUnits fun _ => false
  obtain ⟨s, hrun, hfinished⟩ : ∃ s, ReflTransGen (JobStep FreeHash.of chainMade) _ s ∧
      s.Finished := exists_finished hbegun mem_chainUnits
  have hfresh := ((prepare_spec FreeHash.of chainGraph s.disk chainUnits).1 .app
    (mem_chainUnits _)).mp (hall s hrun hfinished .app (mem_chainUnits _))
  have hbelow : chainGraph.dag.Below .library .base :=
    .single (List.mem_map.mpr ⟨_, by rw [deps_library]; exact List.mem_singleton_self _, rfl⟩)
  have hnoted : ((chainState true).start FreeHash.of chainGraph chainUnits
      fun _ => false).fingerprints.memoizedHash .library ≠ none :=
    memoizedHash_start_ne_none_iff.mpr
      ⟨.library, mem_chainUnits _, by simp [chainState], .refl⟩
  refine (Midway.of_run hbegun hrun).not_fresh_of_kept hbegun hfinished
    FreeHash.of_injective (fun u _ _ => filesOlder_chain true u)
    (u := .app) (d := ⟨"library 1.0.0", "library", .library, false, false⟩) ?_ rfl hnoted hbelow rfl
    (dirty_chain true .base) ?_ hfresh
  · rw [State.start, deps_app]
    exact List.mem_singleton_self _
  · simp [State.start, depInfoMtimeIfFresh, chainState]

/-- If nothing was ever built, then no hash is noted before it is right. -/
theorem fresh_again_chain : ∃ s,
    ReflTransGen (JobStep FreeHash.of chainMade)
      ((chainState false).start FreeHash.of chainGraph chainUnits fun _ => false) s ∧
    s.Finished ∧
    ∀ u ∈ chainUnits, (prepare FreeHash.of chainGraph s.disk chainUnits).1 u = true := by
  have hbegun := (chainState false).begun_start FreeHash.of chainGraph chainUnits fun _ => false
  obtain ⟨s, hrun, hfinished⟩ : ∃ s, ReflTransGen (JobStep FreeHash.of chainMade) _ s ∧
      s.Finished := exists_finished hbegun mem_chainUnits
  refine ⟨s, hrun, hfinished, (fresh_again_iff FreeHash.of_injective mem_chainUnits hrun
    hfinished).mpr ⟨fun u _ _ => filesOlder_chain false u, ?_⟩⟩
  rintro u d - ⟨-, ⟨v, -, hshort, -⟩, -⟩
  exact hshort (by simp [chainState])

end Cargo.Compiler.Fingerprint
