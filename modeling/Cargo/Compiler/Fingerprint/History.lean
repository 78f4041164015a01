import Cargo.Compiler.Fingerprint.Hash
import Cargo.Math.Transition

/-!
# Runs that are interrupted

Runs follow each other. In each some units are compiled, in some order and at the same time; of
each of them the output is written, then its dep-info is translated, then the hash of its
fingerprint is written, then the fingerprint itself. A run may be interrupted before any of that,
and between runs, or in the middle of one, files change and go, and so do the options of the next
run and its units.

A path unit that is skipped was not touched since: not its sources, not the way in which it is
compiled, not its dependencies.

## Main definitions

* `State`, `Step` — runs, one after the other
* `UpToDate` — when a unit may be skipped

## Main results

* `upToDate_of_skipped` — all that are skipped are up to date
-/

set_option autoImplicit false

namespace Cargo.Compiler.Fingerprint

open Relation
open Cargo.Math

/-- How far the job of a unit has come. -/
inductive Stage
  | waiting
  | compiled
  | translated
  | hashed
  | written

/-- The files, the run at hand, and what was recorded of each unit. -/
structure State (H T U P : Type) where
  disk : Disk H T U P
  graph : UnitGraph H U
  fingerprints : Fingerprints H T U P
  /-- The units that are compiled in this run. -/
  dirty : U → Bool
  stage : U → Stage
  /-- The fingerprint whose hash was written last. -/
  hashed : U → Option (Contents H T U P)
  /-- The fingerprint that was written last, by a compile that came to its end. -/
  completed : U → Option (Contents H T U P)

/-- What the last compile of a unit has recorded that came to its end, or another one since that
was interrupted between the hash and the fingerprint. -/
def State.Recorded {H T U P : Type} (s : State H T U P) (u : U) (recorded : Contents H T U P) :
    Prop :=
  s.completed u = some recorded ∨ s.hashed u = some recorded

/-- Files may have any times and list any files, and outputs and fingerprints may be gone. -/
structure Disk.Changed {H T U P : Type} (disk disk' : Disk H T U P) : Prop where
  short : ∀ u, disk'.short u = disk.short u ∨ disk'.short u = none
  json : ∀ u, disk'.json u = disk.json u ∨ disk'.json u = none

section Steps

variable {H T U P : Type} [DecidableEq H] [LinearOrder T] [DecidableEq U] [DecidableEq P]
variable (hash64 : Contents H T U P → H)

/-- The units whose own job is dirty: those that are not found fresh, and others, whose jobs are
prepared in another way, or that are compiled in any case. -/
def notFresh (g : UnitGraph H U) (disk : Disk H T U P) (units : List U) (others : U → Bool)
    (u : U) : Bool :=
  others u || (decide (u ∈ units) && !(prepare hash64 g disk units).1 u)

/-- A run begins. -/
def State.start (s : State H T U P) (g : UnitGraph H U) (units : List U) (others : U → Bool) :
    State H T U P where
  disk := s.disk
  graph := g
  fingerprints := (prepare hash64 g s.disk units).2
  dirty := g.dirty (notFresh hash64 g s.disk units others)
  stage _ := .waiting
  hashed := s.hashed
  completed := s.completed

/-- The hash of the fingerprint of a unit is written, with the times brought up to date. -/
def State.writeShort (s : State H T U P) (u : U) (fp : Fingerprints H T U P) : State H T U P :=
  let r := Fingerprint.writeShort hash64 s.graph u (fp, s.disk)
  { s with
    disk := r.2
    fingerprints := r.1
    stage := Function.update s.stage u .hashed
    hashed := Function.update s.hashed u (some (contentsOf hash64 s.graph fp u)) }

/-- The fingerprint of a unit is written, after its hash. -/
def State.writeJson (s : State H T U P) (u : U) : State H T U P :=
  let r := Fingerprint.writeJson hash64 s.graph u (s.fingerprints, s.disk)
  { s with
    disk := r.2
    fingerprints := r.1
    stage := Function.update s.stage u .written
    completed := Function.update s.completed u
      (some (contentsOf hash64 s.graph s.fingerprints u)) }

/-- The steps of runs. A run may begin at any time: the one before was interrupted then. -/
inductive Step (s : State H T U P) : State H T U P → Prop
  | change (disk : Disk H T U P) (hdisk : s.disk.Changed disk) : Step s { s with disk }
  | start (g : UnitGraph H U) (units : List U) (others : U → Bool) :
      Step s (s.start hash64 g units others)
  | compile (u : U) (hdirty : s.dirty u = true) (hstage : s.stage u = .waiting) :
      Step s { s with
        disk := s.disk.compile u (s.graph.config u)
        stage := Function.update s.stage u .compiled }
  | translate (u : U) (time : T) (files : List P) (hstage : s.stage u = .compiled) :
      Step s { s with
        disk := s.disk.translateDepInfo u time files
        stage := Function.update s.stage u .translated }
  | writeShort (u : U) (fp : Fingerprints H T U P)
      (hstage : s.stage u = .compiled ∨ s.stage u = .translated)
      (hfp : updateLocal s.disk u s.fingerprints = some fp) : Step s (s.writeShort hash64 u fp)
  | writeJson (u : U) (hstage : s.stage u = .hashed) : Step s (s.writeJson hash64 u)

/-- Nothing was ever compiled. -/
structure State.Initial (s : State H T U P) : Prop where
  short : ∀ u, s.disk.short u = none
  json : ∀ u, s.disk.json u = none
  memoizedHash : ∀ u, s.fingerprints.memoizedHash u = none
  stage : ∀ u, s.stage u = .waiting
  hashed : ∀ u, s.hashed u = none
  completed : ∀ u, s.completed u = none

end Steps

/-! ### Units that may be skipped -/

section UpToDate

variable {H T U P : Type} [DecidableEq H] [LinearOrder T]

/-- The dep-info is there, the files listed there are there and older, and it is not newer than
when the unit was last compiled; the unit is compiled in the same way; and the dependencies have
the same names and hashes, and none of them is compiled in this run. -/
structure UpToDate (disk : Disk H T U P) (g : UnitGraph H U) (hashes : U → H) (dirty : U → Bool)
    (recorded : Contents H T U P) (u : U) : Prop where
  depInfo : ∃ mtime, disk.mtime (.depInfo u) = some mtime ∧ disk.listed u ≠ [] ∧
    (∀ p ∈ disk.listed u, ∃ mtime2, disk.mtime (.source p) = some mtime2 ∧ mtime2 < mtime) ∧
    ∃ previously path, recorded.locals = [.mtimeBased (some previously) path] ∧
      mtime ≤ previously
  config : g.config u = recorded.config
  deps : List.Forall₂ (fun d recorded => d.externCrateName = recorded.2.1 ∧
    hashes d.unit = recorded.2.2) (g.deps u) recorded.deps
  untouched : ∀ d, d ∈ g.deps u ∨ d ∈ g.queueDeps u → dirty d.unit = false

end UpToDate

/-! ### What is recorded -/

section Recorded

variable {H T U P : Type} {hash64 : Contents H T U P → H}

/-- The hashes that were noted are hashes of fingerprints with the same times. -/
def MemoOk (hash64 : Contents H T U P → H) (fp : Fingerprints H T U P) : Prop :=
  ∀ u h, fp.memoizedHash u = some h → ∃ c, h = hash64 c ∧ c.locals = fp.locals u

theorem MemoOk.hashOf {fp : Fingerprints H T U P} (h : MemoOk hash64 fp) (g : UnitGraph H U)
    (u : U) : ∃ c, Fingerprint.hashOf hash64 g fp u = hash64 c ∧ c.locals = fp.locals u := by
  cases hu : fp.memoizedHash u with
  | none => exact ⟨_, hashOf_of_none hu, rfl⟩
  | some h' =>
    rw [hashOf_of_some hu]
    exact h u h' hu

theorem MemoOk.noted {fp fp' : Fingerprints H T U P} {g : UnitGraph H U} {R : U → Prop}
    (h : MemoOk hash64 fp) (hnoted : Noted hash64 g R fp fp') : MemoOk hash64 fp' := by
  intro u h' hu
  rw [hnoted.locals]
  rcases hnoted.memo_cases u with heq | ⟨hsome, -⟩
  · exact h u h' (heq ▸ hu)
  · rw [hsome] at hu
    cases hu
    exact h.hashOf g u

theorem memoOk_calculate [LinearOrder T] (hash64 : Contents H T U P → H) (g : UnitGraph H U)
    (disk : Disk H T U P) : MemoOk hash64 (calculate g disk) := by
  intro u h hu
  cases hu

variable [DecidableEq U]

theorem MemoOk.updateLocal {fp fp' : Fingerprints H T U P} {disk : Disk H T U P} {u : U}
    (h : MemoOk hash64 fp) (hupdate : updateLocal disk u fp = some fp') : MemoOk hash64 fp' := by
  obtain ⟨-, hother, ⟨-, hnone⟩ | ⟨-, rfl⟩⟩ := updateLocal_spec hupdate
  · intro x h' hx
    by_cases hxu : x = u
    · rw [hxu, hnone] at hx
      cases hx
    · obtain ⟨hlocals, hmemo⟩ := hother x hxu
      rw [hlocals]
      exact h x h' (hmemo ▸ hx)
  · exact h

/-- What is on disk of a fingerprint is what was recorded. The hash of a unit with a time is that of
what was recorded; otherwise it may have been noted before. -/
structure Inv (hash64 : Contents H T U P → H) (s : State H T U P) : Prop where
  memo : MemoOk hash64 s.fingerprints
  short : ∀ u o, s.disk.short u = some o → ∃ recorded c, s.hashed u = some recorded ∧
    o = some (hash64 c) ∧ c.locals = recorded.locals ∧
    (recorded.locals.any LocalFingerprint.isMtimeBased = true → c = recorded)
  json : ∀ u recorded, s.disk.json u = some recorded → s.completed u = some recorded
  timed : ∀ u recorded, s.Recorded u recorded → ∀ l ∈ recorded.locals, l.Timed
  /-- Between the hash and the fingerprint the times are those that were read. -/
  under_way : ∀ u, s.stage u = .hashed → ∀ l ∈ s.fingerprints.locals u, l.Timed

omit [DecidableEq U] in
theorem State.Initial.inv {s : State H T U P} (h : s.Initial) : Inv hash64 s where
  memo u h' hu := by simp [h.memoizedHash] at hu
  short u o hu := by simp [h.short] at hu
  json u recorded hu := by simp [h.json] at hu
  timed u recorded hu := by simp [State.Recorded, h.completed, h.hashed] at hu
  under_way u hu := by simp [h.stage] at hu

namespace Inv

variable {s : State H T U P}

omit [DecidableEq U] in
theorem change (h : Inv hash64 s) {disk : Disk H T U P} (hdisk : s.disk.Changed disk) :
    Inv hash64 { s with disk } where
  memo := h.memo
  short u o hu := by
    rcases hdisk.short u with heq | heq
    · exact h.short u o (heq ▸ hu)
    · simp [heq] at hu
  json u recorded hu := by
    rcases hdisk.json u with heq | heq
    · exact h.json u recorded (heq ▸ hu)
    · simp [heq] at hu
  timed := h.timed
  under_way := h.under_way

/-- A job goes on, and nothing is recorded. -/
theorem job (h : Inv hash64 s) {u : U} {disk : Disk H T U P} (hshort : disk.short = s.disk.short)
    (hjson : disk.json = s.disk.json) (stage : Stage) (hstage : stage ≠ .hashed) :
    Inv hash64 { s with disk, stage := Function.update s.stage u stage } where
  memo := h.memo
  short := by
    dsimp only
    rw [hshort]
    exact h.short
  json := by
    dsimp only
    rw [hjson]
    exact h.json
  timed := h.timed
  under_way x hx := by
    dsimp only at hx
    by_cases hxu : x = u
    · rw [hxu, Function.update_self] at hx
      exact absurd hx hstage
    · rw [Function.update_of_ne hxu] at hx
      exact h.under_way x hx

/-- The hash that is written is that of the fingerprint, if that has times. -/
theorem writeShort (h : Inv hash64 s) {u : U} {fp : Fingerprints H T U P}
    (hfp : Fingerprint.updateLocal s.disk u s.fingerprints = some fp) :
    Inv hash64 (s.writeShort hash64 u fp) := by
  obtain ⟨hlocals, hother, hmemo⟩ := updateLocal_spec hfp
  have hmemoOk := h.memo.updateLocal hfp
  have htimed : ∀ l ∈ fp.locals u, l.Timed := fun l hl =>
    forall_mem_of_forall₂ (Q := fun _ => True) (List.Forall₂.flip hlocals)
      (fun _ _ hupdate _ => LocalFingerprint.timed_of_update hupdate) (by simp) l hl
  obtain ⟨hdisk, hnoted⟩ := writeShort_spec hash64 s.graph u fp s.disk
  -- the hash is computed after the times were read, unless there are none
  have hhash : ∃ c, hashOf hash64 s.graph fp u = hash64 c ∧ c.locals = fp.locals u ∧
      ((fp.locals u).any LocalFingerprint.isMtimeBased = true →
        c = contentsOf hash64 s.graph fp u) := by
    rcases hmemo with ⟨-, hnone⟩ | ⟨hany, rfl⟩
    · exact ⟨_, hashOf_of_none hnone, rfl, fun _ => rfl⟩
    · obtain ⟨c, hc, hlocals⟩ := hmemoOk.hashOf s.graph u
      refine ⟨c, hc, hlocals, fun htrue => ?_⟩
      rw [hany] at htrue
      cases htrue
  constructor
  · exact hmemoOk.noted hnoted
  · intro x o hx
    rw [State.writeShort] at hx ⊢
    dsimp only at hx ⊢
    rw [hdisk] at hx
    dsimp only at hx
    by_cases hxu : x = u
    · subst hxu
      rw [Function.update_self, Option.some.injEq] at hx
      obtain ⟨c, hc, hcl, hsame⟩ := hhash
      exact ⟨contentsOf hash64 s.graph fp x, c, by simp, by rw [← hx, hc], hcl, hsame⟩
    · rw [Function.update_of_ne hxu] at hx ⊢
      exact h.short x o hx
  · intro x recorded hx
    rw [State.writeShort, hdisk] at hx
    exact h.json x recorded hx
  · rintro x recorded (hx | hx)
    · exact h.timed x recorded (.inl hx)
    · rw [State.writeShort] at hx
      dsimp only at hx
      by_cases hxu : x = u
      · subst hxu
        rw [Function.update_self, Option.some.injEq] at hx
        subst hx
        exact htimed
      · rw [Function.update_of_ne hxu] at hx
        exact h.timed x recorded (.inr hx)
  · intro x hx
    rw [State.writeShort] at hx ⊢
    dsimp only at hx ⊢
    rw [hnoted.locals]
    by_cases hxu : x = u
    · subst hxu
      exact htimed
    · rw [Function.update_of_ne hxu] at hx
      rw [(hother x hxu).1]
      exact h.under_way x hx

/-- The fingerprint that is written is what is recorded. -/
theorem writeJson (h : Inv hash64 s) {u : U} (hstage : s.stage u = .hashed) :
    Inv hash64 (s.writeJson hash64 u) := by
  obtain ⟨hdisk, hnoted⟩ := writeJson_spec hash64 s.graph u s.fingerprints s.disk
  constructor
  · exact h.memo.noted hnoted
  · intro x o hx
    rw [State.writeJson, hdisk] at hx
    exact h.short x o hx
  · intro x recorded hx
    rw [State.writeJson] at hx ⊢
    dsimp only at hx ⊢
    rw [hdisk] at hx
    dsimp only at hx
    by_cases hxu : x = u
    · subst hxu
      rw [Function.update_self] at hx ⊢
      exact hx
    · rw [Function.update_of_ne hxu] at hx ⊢
      exact h.json x recorded hx
  · rintro x recorded (hx | hx)
    · rw [State.writeJson] at hx
      dsimp only at hx
      by_cases hxu : x = u
      · subst hxu
        rw [Function.update_self, Option.some.injEq] at hx
        subst hx
        exact h.under_way x hstage
      · rw [Function.update_of_ne hxu] at hx
        exact h.timed x recorded (.inl hx)
    · exact h.timed x recorded (.inr hx)
  · intro x hx
    rw [State.writeJson] at hx ⊢
    dsimp only at hx ⊢
    rw [hnoted.locals]
    by_cases hxu : x = u
    · rw [hxu]
      exact h.under_way u hstage
    · rw [Function.update_of_ne hxu] at hx
      exact h.under_way x hx

variable [DecidableEq H] [LinearOrder T] [DecidableEq P]

theorem step {s' : State H T U P} (h : Inv hash64 s) (hstep : Step hash64 s s') :
    Inv hash64 s' := by
  cases hstep with
  | change disk hdisk => exact h.change hdisk
  | start g units others =>
    obtain ⟨-, hnoted, -⟩ := prepare_spec hash64 g s.disk units
    exact ⟨(memoOk_calculate hash64 g s.disk).noted hnoted, h.short, h.json, h.timed, nofun⟩
  | compile u hdirty hstage => exact h.job (by rfl) (by rfl) .compiled nofun
  | translate u time files hstage => exact h.job (by rfl) (by rfl) .translated nofun
  | writeShort u fp hstage hfp => exact h.writeShort hfp
  | writeJson u hstage => exact h.writeJson hstage

omit [DecidableEq U] [DecidableEq P] in
/-- What a fingerprint is found to agree with was recorded by a compile. -/
theorem recorded (h : Inv hash64 s) (hinj : Function.Injective hash64) {g : UnitGraph H U} {u : U}
    (hpath : g.useDepInfo u = true)
    (hfresh : AsRecorded hash64 g s.disk (calculate g s.disk) u) :
    ∃ recorded, s.Recorded u recorded ∧
      compare (contentsOf hash64 g (calculate g s.disk) u) recorded = .ok () := by
  rcases hfresh with hshort | ⟨-, old, hjson, hcompare⟩
  · obtain ⟨recorded, c, hhashed, hc, hlocals, hsame⟩ := h.short u _ hshort
    rw [hashOf_of_none rfl, Option.some.injEq] at hc
    have hceq := hinj hc
    have hmtime : recorded.locals.any LocalFingerprint.isMtimeBased = true := by
      rw [← hlocals, ← hceq]
      simp [contentsOf, calculate, hpath, LocalFingerprint.isMtimeBased]
    refine ⟨recorded, .inr hhashed, ?_⟩
    rw [hceq, hsame hmtime]
    exact compare_self recorded
  · exact ⟨old, .inl (h.json u old hjson), hcompare⟩

end Inv

end Recorded

/-! ### Units that are skipped -/

section Skipped

variable {H T U P : Type} {g : UnitGraph H U}

theorem UnitGraph.mem_queueDeps {u : U} {d : Dep U} (hd : d ∈ g.deps u) : d ∈ g.queueDeps u := by
  rw [UnitGraph.deps, List.mem_mergeSort, List.mem_filter] at hd
  obtain ⟨hmem, hkind⟩ := hd
  refine List.mem_filter.mpr ⟨hmem, ?_⟩
  rw [Bool.and_eq_true, Bool.not_eq_true', Bool.not_eq_true'] at hkind
  simp [hkind.2]

/-- A unit is skipped if its own job is fresh and all its dependencies are skipped. -/
theorem UnitGraph.dirty_eq_false {own : U → Bool} {u : U} :
    g.dirty own u = false ↔ own u = false ∧ ∀ d ∈ g.queueDeps u, g.dirty own d.unit = false := by
  rw [UnitGraph.dirty, Bool.or_eq_false_iff, List.any_eq_false]
  simp

variable [DecidableEq H] [LinearOrder T] [DecidableEq U] [DecidableEq P]
variable {hash64 : Contents H T U P → H}

/-- After any history of runs and changes, a path unit that is skipped is up to date. -/
theorem upToDate_of_skipped (hinj : Function.Injective hash64) {s₀ s : State H T U P}
    (hs₀ : s₀.Initial) (hs : ReflTransGen (Step hash64) s₀ s) (g : UnitGraph H U) (units : List U)
    (others : U → Bool) {u : U} (hu : u ∈ units) (hpath : g.useDepInfo u = true)
    (hskip : (s.start hash64 g units others).dirty u = false) :
    ∃ recorded, s.Recorded u recorded ∧
      UpToDate s.disk g (hashOf hash64 g (calculate g s.disk))
        (s.start hash64 g units others).dirty recorded u := by
  have hinv : Inv hash64 s :=
    invariant_of_reachable hs hs₀.inv fun _ _ h hstep => h.step hstep
  obtain ⟨hown, hdeps⟩ := UnitGraph.dirty_eq_false.mp hskip
  have hfresh : FreshTarget hash64 g s.disk (calculate g s.disk) u := by
    simp only [notFresh, Bool.or_eq_false_iff, hu, decide_true, Bool.true_and,
      Bool.not_eq_false'] at hown
    exact ((prepare_spec hash64 g s.disk units).1 u hu).mp hown.2
  obtain ⟨recorded, hrecorded, hcompare⟩ := hinv.recorded hinj hpath hfresh.1
  obtain ⟨hconfig, hlocals, hsame⟩ := compare_ok_iff.mp hcompare
  refine ⟨recorded, hrecorded, ?_, hconfig, ?_, ?_⟩
  · obtain ⟨mtime, previously, path, hnow, heq, hle⟩ :=
      locals_of_sameLocal hpath (hinv.timed u recorded hrecorded) hlocals
    obtain ⟨hmtime, hlisted, hall⟩ := depInfoMtimeIfFresh_eq_some.mp hnow
    exact ⟨mtime, hmtime, hlisted, hall, previously, path, heq, hle⟩
  · rw [contentsOf, List.forall₂_map_left_iff] at hsame
    exact hsame
  · rintro d (hd | hd)
    · exact hdeps d (UnitGraph.mem_queueDeps hd)
    · exact hdeps d hd

end Skipped

/-! ### A crate and the one below it -/

section Crates

/-- A job of a path unit comes as far as the hash. -/
theorem exists_hashed {H T U P : Type} [DecidableEq H] [LinearOrder T] [DecidableEq U]
    [DecidableEq P] (hash64 : Contents H T U P → H) {s : State H T U P} {u : U}
    (hdirty : s.dirty u = true) (hstage : s.stage u = .waiting) {slot : Option T}
    (hlocals : s.fingerprints.locals u = [.mtimeBased slot (.depInfo u)]) (time : T)
    (files : List P) :
    ∃ (s' : State H T U P) (fp : Fingerprints H T U P),
      ReflTransGen (Step hash64) s s' ∧ s'.stage u = .hashed ∧ s'.graph = s.graph ∧
      Noted hash64 s.graph (s.graph.dag.Below u) fp s'.fingerprints ∧
      fp.locals u = [.mtimeBased (some time) (.depInfo u)] ∧ fp.memoizedHash u = none ∧
      (∀ x, x ≠ u → fp.locals x = s.fingerprints.locals x ∧
        fp.memoizedHash x = s.fingerprints.memoizedHash x) ∧
      s'.disk = { (s.disk.compile u (s.graph.config u)).translateDepInfo u time files with
        short := Function.update s.disk.short u
          (some (some (hash64 (contentsOf hash64 s.graph fp u)))) } := by
  let compiled : State H T U P := { s with
    disk := s.disk.compile u (s.graph.config u)
    stage := Function.update s.stage u .compiled }
  let translated : State H T U P := { compiled with
    disk := compiled.disk.translateDepInfo u time files
    stage := Function.update compiled.stage u .translated }
  have hcompile : Step hash64 s compiled := .compile u hdirty hstage
  have htranslate : Step hash64 compiled translated :=
    .translate u time files (Function.update_self _ _ _)
  have hmtime : translated.disk.mtime (.depInfo u) = some time := Function.update_self _ _ _
  have hlocals' : translated.fingerprints.locals u = s.fingerprints.locals u := rfl
  obtain ⟨fp, hfp, hnew, hnone⟩ :=
    exists_updateLocal_of_mtimeBased (hlocals'.trans hlocals) hmtime
  obtain ⟨-, hother, -⟩ := updateLocal_spec hfp
  obtain ⟨hdisk, hnoted⟩ := writeShort_spec hash64 s.graph u fp translated.disk
  refine ⟨translated.writeShort hash64 u fp, fp, ?_, Function.update_self _ _ _, rfl, hnoted, hnew,
    hnone, hother, ?_⟩
  · exact ((ReflTransGen.single hcompile).tail htranslate).tail
      (.writeShort u fp (.inr (Function.update_self _ _ _)) hfp)
  · have hhash : hashOf hash64 s.graph fp u = hash64 (contentsOf hash64 s.graph fp u) :=
      hashOf_of_none hnone
    rw [← hhash]
    exact hdisk

/-- A crate from a path, and one that it uses, also from a path. -/
inductive Crate
  | app
  | base
  deriving DecidableEq

def crateGraph : UnitGraph (FreeHash Crate) Crate where
  config _ := ⟨.leaf, "", .leaf, .leaf, .leaf, [], .edition2015⟩
  depTargets
    | .app => [⟨"base 1.0.0", "base", .base, false, false⟩]
    | .base => []
  isTest _ := false
  useDepInfo _ := true
  pkgFingerprint _ := ""
  rank
    | .app => 1
    | .base => 0
  rank_lt u d hd := by
    cases u <;> simp_all

def crateUnits : List Crate := [.app, .base]

theorem mem_crateUnits (u : Crate) : u ∈ crateUnits := by
  cases u <;> simp [crateUnits]

@[simp]
theorem deps_crateGraph_app :
    crateGraph.deps .app = [⟨"base 1.0.0", "base", .base, false, false⟩] := by
  simp [UnitGraph.deps, crateGraph]

@[simp]
theorem deps_crateGraph_base : crateGraph.deps .base = [] := by
  simp [UnitGraph.deps, crateGraph]

/-- Before the first run. The sources were written at time 1. -/
def sourceWritten : State (FreeHash Crate) ℕ Crate Crate where
  disk :=
    { mtime := fun
        | .source _ => some 1
        | .depInfo _ => none
      listed := fun _ => []
      short := fun _ => none
      json := fun _ => none
      output := fun _ => none }
  graph := crateGraph
  fingerprints := ⟨fun _ => [], fun _ => none⟩
  dirty _ := false
  stage _ := .waiting
  hashed _ := none
  completed _ := none

/-- A crate is skipped if its own output is fresh, and that of the one below. -/
theorem dirty_start_crate {s : State (FreeHash Crate) ℕ Crate Crate} {u : Crate} :
    (s.start FreeHash.of crateGraph crateUnits fun _ => false).dirty u = false ↔
      FreshTarget FreeHash.of crateGraph s.disk (calculate crateGraph s.disk) u ∧
        (u = .app →
          FreshTarget FreeHash.of crateGraph s.disk (calculate crateGraph s.disk) .base) := by
  have hown : ∀ u, notFresh FreeHash.of crateGraph s.disk crateUnits (fun _ => false) u = false ↔
      FreshTarget FreeHash.of crateGraph s.disk (calculate crateGraph s.disk) u := by
    intro u
    simp [notFresh, mem_crateUnits, (prepare_spec FreeHash.of crateGraph s.disk crateUnits).1 u]
  have hbase : (s.start FreeHash.of crateGraph crateUnits fun _ => false).dirty .base = false ↔
      FreshTarget FreeHash.of crateGraph s.disk (calculate crateGraph s.disk) .base := by
    rw [State.start, UnitGraph.dirty_eq_false, hown]
    simp [UnitGraph.queueDeps, crateGraph]
  cases u with
  | base => simp [hbase]
  | app =>
    rw [← hbase, ← hown .app]
    conv_lhs => rw [State.start, UnitGraph.dirty_eq_false]
    simp [UnitGraph.queueDeps, crateGraph, State.start]

/-- The dep-info of a crate has a time, and lists its source, which is older. -/
theorem locals_calculate_crate {disk : Disk (FreeHash Crate) ℕ Crate Crate} {u : Crate} {time : ℕ}
    (hmtime : disk.mtime (.depInfo u) = some time) (hlisted : disk.listed u = [u])
    (hsource : disk.mtime (.source u) = some 1) (htime : 1 < time) :
    (calculate crateGraph disk).locals u = [.mtimeBased (some time) (.depInfo u)] := by
  rw [locals_calculate_of_path rfl, depInfoMtimeIfFresh_eq_some.mpr ⟨hmtime, by simp [hlisted], ?_⟩]
  intro p hp
  rw [hlisted, List.mem_singleton] at hp
  exact ⟨1, hp ▸ hsource, htime⟩

/-- The hash of the base is written, and the run is interrupted before its fingerprint is. -/
theorem exists_interrupted : ∃ s, ReflTransGen (Step FreeHash.of) sourceWritten s ∧
    (∀ u, s.disk.mtime (.source u) = some 1) ∧
    s.disk.mtime (.depInfo .base) = some 2 ∧ s.disk.listed .base = [.base] ∧
    s.disk.json .base = none ∧ s.disk.output .app = none ∧ s.disk.output .base ≠ none ∧
    s.disk.short .base =
      some (some (hashOf FreeHash.of crateGraph (calculate crateGraph s.disk) .base)) := by
  let s₁ := sourceWritten.start FreeHash.of crateGraph crateUnits fun _ => false
  obtain ⟨-, hnoted, -⟩ := prepare_spec FreeHash.of crateGraph sourceWritten.disk crateUnits
  have hdirty : s₁.dirty .base = true := by
    rw [← Bool.not_eq_false, dirty_start_crate]
    exact fun hfresh => hfresh.1.2 rfl
  have hlocals : s₁.fingerprints.locals .base = [.mtimeBased none (.depInfo .base)] := by
    change (prepare FreeHash.of crateGraph sourceWritten.disk crateUnits).2.locals .base = _
    rw [hnoted.locals, locals_calculate_of_path rfl]
    rfl
  obtain ⟨s, fp, hrun, -, -, -, hnew, -, -, hdisk⟩ :=
    exists_hashed FreeHash.of hdirty rfl hlocals 2 [.base]
  have hmtime : s.disk.mtime (.depInfo .base) = some 2 := by
    rw [hdisk]
    rfl
  have hlisted : s.disk.listed .base = [.base] := by
    rw [hdisk]
    rfl
  have hsource : ∀ u, s.disk.mtime (.source u) = some 1 := by
    intro u
    rw [hdisk]
    rfl
  refine ⟨s, .head (.start crateGraph crateUnits _) hrun, hsource, hmtime, hlisted, ?_, ?_, ?_, ?_⟩
  · rw [hdisk]
    rfl
  · rw [hdisk]
    rfl
  · rw [hdisk]
    simp [Disk.translateDepInfo, Disk.compile]
  · have hcontents : contentsOf FreeHash.of crateGraph fp .base =
        contentsOf FreeHash.of crateGraph (calculate crateGraph s.disk) .base := by
      refine contentsOf_eq_iff.mpr ⟨?_, by simp⟩
      rw [hnew, locals_calculate_crate hmtime hlisted (hsource _) (by decide)]
    rw [hashOf_of_none rfl, ← hcontents, hdisk]
    rfl

/-- The next run skips the base and compiles the crate above it, and the run after that skips
both. -/
theorem exists_skipped : ∃ s, ReflTransGen (Step FreeHash.of) sourceWritten s ∧
    s.disk.json .base = none ∧
    (s.start FreeHash.of crateGraph crateUnits fun _ => false).dirty .app = false := by
  obtain ⟨s₁, hrun, hsource, hmtime, hlisted, hjson, hout, houtBase, hshort⟩ := exists_interrupted
  let s₂ := s₁.start FreeHash.of crateGraph crateUnits fun _ => false
  obtain ⟨-, hnoted, -⟩ := prepare_spec FreeHash.of crateGraph s₁.disk crateUnits
  have hdirty : s₂.dirty .app = true := by
    rw [← Bool.not_eq_false, dirty_start_crate]
    exact fun hfresh => hfresh.1.2 hout
  have hlocals : s₂.fingerprints.locals .app = [.mtimeBased _ (.depInfo .app)] :=
    (congrFun hnoted.locals Crate.app).trans (locals_calculate_of_path rfl s₁.disk)
  obtain ⟨s₃, fp, hjob, hstage, hgraph, -, hnew, -, hother, hdisk⟩ :=
    exists_hashed FreeHash.of hdirty rfl hlocals 3 [.app]
  -- only the files of the crate itself have changed
  have hwrite := (writeJson_spec FreeHash.of s₃.graph .app s₃.fingerprints s₃.disk).1
  have hlast : Step FreeHash.of s₃ (s₃.writeJson FreeHash.of .app) :=
    .writeJson Crate.app hstage
  refine ⟨s₃.writeJson FreeHash.of .app,
    ((hrun.tail (.start crateGraph crateUnits _)).trans hjob).tail hlast, ?_⟩
  generalize hs : (s₃.writeJson FreeHash.of .app).disk = disk
  replace hwrite := hs.symm.trans hwrite
  rw [hdisk] at hwrite
  have hlocalsBase : (calculate crateGraph disk).locals .base =
      (calculate crateGraph s₁.disk).locals .base := by
    rw [locals_calculate_crate hmtime hlisted (hsource _) (by decide), hwrite]
    exact locals_calculate_crate hmtime hlisted (hsource _) (by decide)
  have hlocalsApp : (calculate crateGraph disk).locals .app =
      [.mtimeBased (some 3) (.depInfo .app)] := by
    rw [hwrite]
    exact locals_calculate_crate rfl rfl (hsource _) (by decide)
  have hhashBase : hashOf FreeHash.of crateGraph (calculate crateGraph disk) .base =
      hashOf FreeHash.of crateGraph (calculate crateGraph s₁.disk) .base := by
    rw [hashOf_of_none rfl, hashOf_of_none rfl,
      contentsOf_eq_iff.mpr ⟨hlocalsBase, by simp⟩]
  -- the hash of the base was noted when the run began, and is the same
  have hnotedBase : hashOf FreeHash.of crateGraph fp .base =
      hashOf FreeHash.of crateGraph (calculate crateGraph s₁.disk) .base := by
    have hbelow : ¬ crateGraph.dag.Below .base .app :=
      Dag.not_below_of_mem (List.mem_map.mpr
        ⟨_, by rw [deps_crateGraph_app]; exact List.mem_singleton_self _, rfl⟩)
    have hne : ∀ x, crateGraph.dag.Below .base x → x ≠ .app := fun x hx hxa => hbelow (hxa ▸ hx)
    rw [← hnoted.hashOf_eq]
    exact hashOf_congr (fun x hx => (hother x (hne x hx)).1) fun x hx => (hother x (hne x hx)).2
  have hcontentsApp : contentsOf FreeHash.of crateGraph fp .app =
      contentsOf FreeHash.of crateGraph (calculate crateGraph disk) .app := by
    refine contentsOf_eq_iff.mpr ⟨hnew.trans hlocalsApp.symm, ?_⟩
    simp [hnotedBase, hhashBase]
  refine ⟨?_, ?_⟩
  · rw [hwrite]
    exact hjson
  · rw [dirty_start_crate, hs]
    refine ⟨⟨.inl ?_, ?_⟩, fun _ => ⟨.inl ?_, ?_⟩⟩
    · rw [hashOf_of_none rfl, ← hcontentsApp, hwrite]
      rfl
    · rw [hwrite]
      simp [Disk.translateDepInfo, Disk.compile]
    · rw [hhashBase, ← hshort, hwrite]
      rfl
    · rw [hwrite]
      exact houtBase

/-- The crate is skipped then. It was compiled when the base was skipped, of which only the hash
was written. -/
theorem skipped_upToDate : ∃ s, ReflTransGen (Step FreeHash.of) sourceWritten s ∧
    s.disk.json .base = none ∧ ∃ recorded, s.Recorded .app recorded ∧
      UpToDate s.disk crateGraph (hashOf FreeHash.of crateGraph (calculate crateGraph s.disk))
        (s.start FreeHash.of crateGraph crateUnits fun _ => false).dirty recorded .app := by
  obtain ⟨s, hrun, hjson, hskip⟩ := exists_skipped
  exact ⟨s, hrun, hjson, upToDate_of_skipped FreeHash.of_injective
    ⟨fun _ => rfl, fun _ => rfl, fun _ => rfl, fun _ => rfl, fun _ => rfl, fun _ => rfl⟩ hrun
    crateGraph crateUnits _ (mem_crateUnits _) rfl hskip⟩

end Crates

end Cargo.Compiler.Fingerprint
