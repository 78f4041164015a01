import Cargo.Compiler.Fingerprint
import Cargo.Math.Iteration
import Mathlib.Data.List.Induction

/-!
# Hashes of fingerprints

The hash of a fingerprint is the one that was noted, or that of its contents. Whether a unit is
found fresh is told in these terms, without the notes that are taken on the way.

## Main definitions

* `SameLocal` — when what a unit is compiled from is as good as before
* `hashOf`, `contentsOf`
* `AsRecorded` — what was written of a fingerprint is as good as the fingerprint
* `FreshTarget` — the unit itself is fresh

## Main results

* `compare_ok_iff`
* `hash_spec`, `serialize_spec`, `writeFingerprint_spec`, `updateLocal_spec`
* `prepareTarget_spec`, `prepare_spec`
-/

set_option autoImplicit false

namespace Cargo.Compiler.Fingerprint

open Cargo.Math

/-! ### Comparison -/

theorem bind_ok_iff {ε : Type} {x : Except ε Unit} {k : Unit → Except ε Unit} :
    (x >>= k) = .ok () ↔ x = .ok () ∧ k () = .ok () := by
  cases x with
  | error e => simp [bind, Except.bind]
  | ok u => simp [bind, Except.bind]

theorem ensure_ok_iff {ε : Type} {c : Prop} [Decidable c] {e : ε} :
    ensure c e = .ok () ↔ c := by
  by_cases hc : c
  · simp [ensure, hc]
  · simp [ensure, hc]

section Compare

variable {H T U P : Type} [LinearOrder T]

/-- What a unit is compiled from is as good as before. -/
def SameLocal : LocalFingerprint T U P → LocalFingerprint T U P → Prop
  | .precalculated a, .precalculated b => a = b
  | .mtimeBased onDisk _, .mtimeBased previouslyBuilt _ =>
    shouldRebuild onDisk previouslyBuilt = false
  | .envBased akey avalue, .envBased bkey bvalue => akey = bkey ∧ avalue = bvalue
  | _, _ => False

theorem compareLocal_ok_iff {new old : LocalFingerprint T U P} :
    compareLocal new old = .ok () ↔ SameLocal new old := by
  cases new <;> cases old <;>
    simp only [compareLocal, SameLocal, bind_ok_iff, ensure_ok_iff, reduceCtorEq]

variable [DecidableEq H]

/-- Two fingerprints compare well if they agree on how the unit is compiled and on names and
hashes of the dependencies, and if what it is compiled from is as good. -/
theorem compare_ok_iff {new old : Contents H T U P} :
    compare new old = .ok () ↔ new.config = old.config ∧
      List.Forall₂ SameLocal new.locals old.locals ∧
      List.Forall₂ (fun d d' => d.2.1 = d'.2.1 ∧ d.2.2 = d'.2.2) new.deps old.deps := by
  have hconfig : new.config = old.config ↔ new.config.rustc = old.config.rustc ∧
      new.config.features = old.config.features ∧ new.config.target = old.config.target ∧
      new.config.path = old.config.path ∧ new.config.profile = old.config.profile ∧
      new.config.rustflags = old.config.rustflags ∧
      new.config.edition = old.config.edition := by
    cases new.config
    cases old.config
    rw [Config.mk.injEq]
    tauto
  rw [compare, hconfig, List.forall₂_iff_zip, List.forall₂_iff_zip]
  simp only [bind_ok_iff, ensure_ok_iff, forM_ok_iff, compareLocal_ok_iff, Prod.forall]
  tauto

omit [DecidableEq H] in
theorem shouldRebuild_self (slot : Option T) : shouldRebuild slot slot = false := by
  cases slot <;> simp [shouldRebuild]

omit [DecidableEq H] in
theorem sameLocal_self (l : LocalFingerprint T U P) : SameLocal l l := by
  cases l with
  | precalculated s => rfl
  | mtimeBased slot path => exact shouldRebuild_self slot
  | envBased key value => exact ⟨rfl, rfl⟩

theorem compare_self (c : Contents H T U P) : compare c c = .ok () :=
  compare_ok_iff.mpr ⟨rfl, List.forall₂_same.mpr fun l _ => sameLocal_self l,
    List.forall₂_same.mpr fun _ _ => ⟨rfl, rfl⟩⟩

end Compare

/-! ### Hashes -/

section Hash

variable {H T U P : Type} (hash64 : Contents H T U P → H) (g : UnitGraph H U)

/-- The hash of a fingerprint: the one that was noted, or that of the contents. -/
def hashOf (fp : Fingerprints H T U P) (u : U) : H :=
  g.dag.value (fun u hashes => hash64 (g.contents fp.locals u hashes)) fp.memoizedHash u

/-- The contents of a fingerprint. -/
def contentsOf (fp : Fingerprints H T U P) (u : U) : Contents H T U P where
  config := g.config u
  deps := (g.deps u).map fun d => (d.pkgId, d.externCrateName, hashOf hash64 g fp d.unit)
  locals := fp.locals u

variable {hash64 g} {fp fp' : Fingerprints H T U P}

theorem contents_map (u : U) (f : U → H) :
    g.contents fp.locals u ((g.dag.succ u).map f) =
      { config := g.config u
        deps := (g.deps u).map fun d => (d.pkgId, d.externCrateName, f d.unit)
        locals := fp.locals u } := by
  rw [UnitGraph.contents, UnitGraph.dag, List.map_map, List.zipWith_map_right]
  simp

theorem hashOf_of_some {u : U} {h : H} (hu : fp.memoizedHash u = some h) :
    hashOf hash64 g fp u = h := Dag.value_of_some hu

theorem hashOf_of_none {u : U} (hu : fp.memoizedHash u = none) :
    hashOf hash64 g fp u = hash64 (contentsOf hash64 g fp u) := by
  rw [hashOf, Dag.value_of_none hu, contents_map]
  rfl

/-- The contents are the same if the unit itself is compiled from the same, and the hashes of the
dependencies are the same. -/
theorem contentsOf_eq_iff {u : U} : contentsOf hash64 g fp u = contentsOf hash64 g fp' u ↔
    fp.locals u = fp'.locals u ∧
      ∀ d ∈ g.deps u, hashOf hash64 g fp d.unit = hashOf hash64 g fp' d.unit := by
  rw [contentsOf, contentsOf, Contents.mk.injEq, List.map_inj_left]
  simp only [Prod.mk.injEq, true_and]
  exact and_comm

/-- A hash is made from what is below. -/
theorem hashOf_congr {u : U} (hlocals : ∀ x, g.dag.Below u x → fp.locals x = fp'.locals x)
    (hmemo : ∀ x, g.dag.Below u x → fp.memoizedHash x = fp'.memoizedHash x) :
    hashOf hash64 g fp u = hashOf hash64 g fp' u := by
  apply Dag.value_congr _ hmemo
  intro x hx
  funext hashes
  rw [UnitGraph.contents, UnitGraph.contents, hlocals x hx]

/-- As long as nothing is noted, hashes tell apart what is below. -/
theorem hashOf_eq_iff (hinj : Function.Injective hash64) (hfp : ∀ x, fp.memoizedHash x = none)
    (hfp' : ∀ x, fp'.memoizedHash x = none) {u : U} :
    hashOf hash64 g fp u = hashOf hash64 g fp' u ↔
      ∀ x, g.dag.Below u x → fp.locals x = fp'.locals x := by
  constructor
  · intro h x hx
    induction hx using Relation.ReflTransGen.head_induction_on with
    | refl =>
      rw [hashOf_of_none (hfp x), hashOf_of_none (hfp' x)] at h
      exact (contentsOf_eq_iff.mp (hinj h)).1
    | head hstep _ ih =>
      rw [hashOf_of_none (hfp _), hashOf_of_none (hfp' _)] at h
      obtain ⟨d, hd, rfl⟩ := List.mem_map.mp hstep
      exact ih ((contentsOf_eq_iff.mp (hinj h)).2 d hd)
  · intro h
    exact hashOf_congr h fun x _ => (hfp x).trans (hfp' x).symm

/-- Hashes of units with `R` were noted. -/
structure Noted (hash64 : Contents H T U P → H) (g : UnitGraph H U) (R : U → Prop)
    (fp fp' : Fingerprints H T U P) : Prop where
  locals : fp'.locals = fp.locals
  notes : g.dag.Notes (fun u hashes => hash64 (g.contents fp.locals u hashes)) R
    fp.memoizedHash fp'.memoizedHash
  closed : g.dag.Closed fp.memoizedHash → g.dag.Closed fp'.memoizedHash

namespace Noted

variable {R R' : U → Prop}

theorem refl (fp : Fingerprints H T U P) : Noted hash64 g R fp fp :=
  ⟨rfl, .refl, fun h => h⟩

theorem mono (h : Noted hash64 g R fp fp') (hR : ∀ x, R x → R' x) : Noted hash64 g R' fp fp' :=
  ⟨h.locals, h.notes.mono hR, h.closed⟩

theorem trans {fp'' : Fingerprints H T U P} (h : Noted hash64 g R fp fp')
    (h' : Noted hash64 g R fp' fp'') : Noted hash64 g R fp fp'' :=
  ⟨h'.locals.trans h.locals, h.notes.trans (h.locals ▸ h'.notes), fun hc => h'.closed (h.closed hc)⟩

/-- No hash changes. -/
theorem hashOf_eq (h : Noted hash64 g R fp fp') (u : U) :
    hashOf hash64 g fp' u = hashOf hash64 g fp u := by
  rw [hashOf, h.locals]
  exact h.notes.value_eq u

theorem contentsOf_eq (h : Noted hash64 g R fp fp') (u : U) :
    contentsOf hash64 g fp' u = contentsOf hash64 g fp u := by
  rw [contentsOf, contentsOf, h.locals]
  simp only [h.hashOf_eq]

/-- What is noted is the hash. -/
theorem memo_cases (h : Noted hash64 g R fp fp') (x : U) :
    fp'.memoizedHash x = fp.memoizedHash x ∨
      fp'.memoizedHash x = some (hashOf hash64 g fp x) ∧ R x := by
  rcases h.notes x with heq | ⟨-, hsome, hx⟩
  · exact .inl heq
  · exact .inr ⟨hsome, hx⟩

end Noted

variable [DecidableEq U]

variable (hash64 g)

theorem hash_spec (u : U) (fp : Fingerprints H T U P) :
    (hash hash64 g u fp).1 = hashOf hash64 g fp u ∧
      (hash hash64 g u fp).2.memoizedHash u = some (hashOf hash64 g fp u) ∧
      Noted hash64 g (g.dag.Below u) fp (hash hash64 g u fp).2 := by
  obtain ⟨hvalue, hnoted, hcomputes⟩ := g.dag.compute_spec
    (fun u hashes => hash64 (g.contents fp.locals u hashes)) u fp.memoizedHash
  exact ⟨hvalue, hnoted, rfl, hcomputes.notes, hcomputes.closed⟩

theorem traverse_hash_spec (us : List U) (fp : Fingerprints H T U P) :
    (traverse (hash hash64 g) us fp).1 = us.map (hashOf hash64 g fp) ∧
      Noted hash64 g (fun x => ∃ u ∈ us, g.dag.Below u x) fp
        (traverse (hash hash64 g) us fp).2 := by
  induction us generalizing fp with
  | nil => exact ⟨rfl, .refl fp⟩
  | cons u us ih =>
    obtain ⟨hvalue, -, hnoted⟩ := hash_spec hash64 g u fp
    obtain ⟨hvalues, hrest⟩ := ih (hash hash64 g u fp).2
    constructor
    · change (hash hash64 g u fp).1 :: _ = _
      rw [hvalue, hvalues, List.map_cons]
      congr 1
      exact List.map_congr_left fun d _ => hnoted.hashOf_eq d
    · apply (hnoted.mono _).trans (hrest.mono _)
      · exact fun x hx => ⟨u, List.mem_cons_self, hx⟩
      · rintro x ⟨d, hd, hx⟩
        exact ⟨d, List.mem_cons_of_mem _ hd, hx⟩

theorem serialize_spec (u : U) (fp : Fingerprints H T U P) :
    (serialize hash64 g u fp).1 = contentsOf hash64 g fp u ∧
      Noted hash64 g (g.dag.Below u) fp (serialize hash64 g u fp).2 := by
  obtain ⟨hvalues, hnoted⟩ := traverse_hash_spec hash64 g ((g.deps u).map Dep.unit) fp
  constructor
  · rw [serialize]
    dsimp only
    rw [hvalues, hnoted.locals]
    exact contents_map u (hashOf hash64 g fp)
  · apply hnoted.mono
    rintro x ⟨d, hd, hx⟩
    exact .head hd hx

theorem writeShort_spec (u : U) (fp : Fingerprints H T U P) (disk : Disk H T U P) :
    (writeShort hash64 g u (fp, disk)).2 =
        { disk with short := Function.update disk.short u (some (some (hashOf hash64 g fp u))) } ∧
      Noted hash64 g (g.dag.Below u) fp (writeShort hash64 g u (fp, disk)).1 := by
  obtain ⟨hvalue, -, hnoted⟩ := hash_spec hash64 g u fp
  refine ⟨?_, hnoted⟩
  rw [writeShort]
  dsimp only
  rw [hvalue]

theorem writeJson_spec (u : U) (fp : Fingerprints H T U P) (disk : Disk H T U P) :
    (writeJson hash64 g u (fp, disk)).2 =
        { disk with json := Function.update disk.json u (some (contentsOf hash64 g fp u)) } ∧
      Noted hash64 g (g.dag.Below u) fp (writeJson hash64 g u (fp, disk)).1 := by
  obtain ⟨hcontents, hnoted⟩ := serialize_spec hash64 g u fp
  refine ⟨?_, hnoted⟩
  rw [writeJson]
  dsimp only
  rw [hcontents]

theorem writeFingerprint_spec (u : U) (fp : Fingerprints H T U P) (disk : Disk H T U P) :
    (writeFingerprint hash64 g u (fp, disk)).2 =
        { disk with
          short := Function.update disk.short u (some (some (hashOf hash64 g fp u)))
          json := Function.update disk.json u (some (contentsOf hash64 g fp u)) } ∧
      Noted hash64 g (g.dag.Below u) fp (writeFingerprint hash64 g u (fp, disk)).1 := by
  obtain ⟨hshort, hnoted⟩ := writeShort_spec hash64 g u fp disk
  obtain ⟨hjson, hnoted'⟩ := writeJson_spec hash64 g u (writeShort hash64 g u (fp, disk)).1
    (writeShort hash64 g u (fp, disk)).2
  refine ⟨?_, hnoted.trans hnoted'⟩
  rw [writeFingerprint, hjson, hnoted.contentsOf_eq, hshort]

/-- The hash that is written is noted. -/
theorem memoizedHash_writeShort (u : U) (fp : Fingerprints H T U P) (disk : Disk H T U P) :
    (writeShort hash64 g u (fp, disk)).1.memoizedHash u = some (hashOf hash64 g fp u) :=
  (hash_spec hash64 g u fp).2.1

end Hash

/-! ### Times -/

section Times

variable {H T U P : Type} {disk : Disk H T U P}

/-- Has the time of a file been read, if there is one? -/
def LocalFingerprint.Timed : LocalFingerprint T U P → Prop
  | .mtimeBased slot _ => slot ≠ none
  | _ => True

theorem LocalFingerprint.timed_of_update {l l' : LocalFingerprint T U P}
    (h : l.update disk = some l') : l'.Timed := by
  cases l with
  | mtimeBased slot path =>
    obtain ⟨mtime, -, rfl⟩ := Option.map_eq_some_iff.mp h
    simp [Timed]
  | precalculated s =>
    cases h
    trivial
  | envBased key value =>
    cases h
    trivial

/-- Without times there is nothing to bring up to date. -/
theorem LocalFingerprint.update_eq_self {l l' : LocalFingerprint T U P}
    (h : l.update disk = some l') (hl : l.isMtimeBased = false) : l' = l := by
  cases l with
  | mtimeBased slot path => cases hl
  | precalculated s =>
    cases h
    rfl
  | envBased key value =>
    cases h
    rfl

theorem LocalFingerprint.updated_eq_self {ls ls' : List (LocalFingerprint T U P)}
    (h : List.Forall₂ (fun l l' => l.update disk = some l') ls ls')
    (hls : ls.any isMtimeBased = false) : ls' = ls := by
  induction h with
  | nil => rfl
  | cons hhead _ ih =>
    rw [List.any_cons, Bool.or_eq_false_iff] at hls
    rw [update_eq_self hhead hls.1, ih hls.2]

/-- The time of a dep-info counts if the files listed there are all older. -/
theorem depInfoMtimeIfFresh_eq_some [LinearOrder T] {u : U} {mtime : T} :
    depInfoMtimeIfFresh disk u = some mtime ↔
      disk.mtime (.depInfo u) = some mtime ∧ disk.listed u ≠ [] ∧
        ∀ p ∈ disk.listed u, ∃ mtime2, disk.mtime (.source p) = some mtime2 ∧ mtime2 < mtime := by
  unfold depInfoMtimeIfFresh
  split
  · rename_i hgone
    refine iff_of_false nofun fun h => ?_
    rcases hgone with hgone | hgone
    · simp [h.1] at hgone
    · exact h.2.1 hgone
  · rename_i hthere
    rw [not_or] at hthere
    -- a file that is gone counts as newer
    have hstale : ∀ p, (disk.mtime (.source p)).elim true (fun mtime2 => decide (mtime ≤ mtime2)) =
        false ↔ ∃ mtime2, disk.mtime (.source p) = some mtime2 ∧ mtime2 < mtime := by
      intro p
      cases disk.mtime (.source p) <;> simp
    unfold mtimeIfFresh
    constructor
    · intro h
      obtain ⟨found, hfound, h⟩ := Option.bind_eq_some_iff.mp h
      split at h
      · cases h
      · rename_i hany
        cases h
        refine ⟨hfound, hthere.2, fun p hp => (hstale p).mp ?_⟩
        rw [Bool.not_eq_true, List.any_eq_false] at hany
        exact Bool.eq_false_iff.mpr (hany _ (List.mem_map_of_mem hp))
    · rintro ⟨hfound, -, hall⟩
      refine Option.bind_eq_some_iff.mpr ⟨mtime, hfound, if_neg ?_⟩
      rw [Bool.not_eq_true, List.any_eq_false]
      intro path hpath
      obtain ⟨p, hp, rfl⟩ := List.mem_map.mp hpath
      exact Bool.eq_false_iff.mp ((hstale p).mpr (hall p hp))

variable [DecidableEq U]

/-- Bringing the times of one unit up to date. -/
theorem updateLocal_spec {u : U} {fp fp' : Fingerprints H T U P}
    (h : updateLocal disk u fp = some fp') :
    List.Forall₂ (fun l l' => l.update disk = some l') (fp.locals u) (fp'.locals u) ∧
      (∀ x, x ≠ u → fp'.locals x = fp.locals x ∧ fp'.memoizedHash x = fp.memoizedHash x) ∧
      ((fp.locals u).any LocalFingerprint.isMtimeBased = true ∧ fp'.memoizedHash u = none ∨
        (fp.locals u).any LocalFingerprint.isMtimeBased = false ∧ fp' = fp) := by
  obtain ⟨locals, hlocals, rfl⟩ := Option.map_eq_some_iff.mp h
  have hforall := mapM_eq_some.mp hlocals
  refine ⟨by simpa using hforall, fun x hx => ⟨Function.update_of_ne hx _ _, ?_⟩, ?_⟩
  · dsimp only
    split
    · exact Function.update_of_ne hx _ _
    · rfl
  · cases hany : (fp.locals u).any LocalFingerprint.isMtimeBased with
    | true => exact .inl ⟨rfl, by simp⟩
    | false =>
      rw [LocalFingerprint.updated_eq_self hforall hany, Function.update_eq_self]
      exact .inr ⟨rfl, by simp⟩

/-- A time is brought up to date if the file is there, and the hash is dropped. -/
theorem exists_updateLocal_of_mtimeBased {u : U} {fp : Fingerprints H T U P} {slot : Option T}
    {path : File U P} {mtime : T} (hlocals : fp.locals u = [.mtimeBased slot path])
    (hmtime : disk.mtime path = some mtime) :
    ∃ fp', updateLocal disk u fp = some fp' ∧ fp'.locals u = [.mtimeBased (some mtime) path] ∧
      fp'.memoizedHash u = none := by
  refine ⟨⟨Function.update fp.locals u [.mtimeBased (some mtime) path],
    Function.update fp.memoizedHash u none⟩, ?_, by simp, by simp⟩
  rw [updateLocal, hlocals]
  simp [LocalFingerprint.update, LocalFingerprint.isMtimeBased, hmtime]

/-- Without a time nothing is brought up to date. -/
theorem updateLocal_of_precalculated {u : U} {fp : Fingerprints H T U P} {s : String}
    (hlocals : fp.locals u = [.precalculated s]) : updateLocal disk u fp = some fp := by
  have hself : Function.update fp.locals u [.precalculated s] = fp.locals := by
    rw [← hlocals, Function.update_eq_self]
  rw [updateLocal, hlocals]
  simp [LocalFingerprint.update, LocalFingerprint.isMtimeBased, hself]

end Times

/-! ### What a run begins with -/

section Calculate

variable {H T U P : Type} [LinearOrder T] {g : UnitGraph H U} {u : U}

theorem locals_calculate_of_path (hpath : g.useDepInfo u = true) (disk : Disk H T U P) :
    (calculate g disk).locals u = [.mtimeBased (depInfoMtimeIfFresh disk u) (.depInfo u)] := by
  simp [calculate, hpath]

theorem locals_calculate_of_not_path (hpath : g.useDepInfo u = false) (disk : Disk H T U P) :
    (calculate g disk).locals u = [.precalculated (g.pkgFingerprint u)] := by
  simp [calculate, hpath]

end Calculate

/-! ### Freshness -/

section Fresh

variable {H T U P : Type} [DecidableEq H] [LinearOrder T] [DecidableEq U]
variable (hash64 : Contents H T U P → H) (g : UnitGraph H U) (disk : Disk H T U P)

/-- What was written of the last fingerprint is as good as the fingerprint: its hash is the same,
or its contents compare well. -/
def AsRecorded (fp : Fingerprints H T U P) (u : U) : Prop :=
  disk.short u = some (some (hashOf hash64 g fp u)) ∨
    disk.short u ≠ none ∧ ∃ old, disk.json u = some old ∧
      compare (contentsOf hash64 g fp u) old = .ok ()

/-- The unit itself is fresh. -/
def FreshTarget (fp : Fingerprints H T U P) (u : U) : Prop :=
  AsRecorded hash64 g disk fp u ∧ disk.output u ≠ none

/-- The nodes whose hashes are noted if a unit is compared. -/
def Asked (u x : U) : Prop := disk.short u ≠ none ∧ g.dag.Below u x

variable {hash64 g disk} in
omit [DecidableEq U] in
theorem Noted.freshTarget_iff {R : U → Prop} {fp fp' : Fingerprints H T U P}
    (h : Noted hash64 g R fp fp') (u : U) :
    FreshTarget hash64 g disk fp' u ↔ FreshTarget hash64 g disk fp u := by
  rw [FreshTarget, FreshTarget, AsRecorded, AsRecorded, h.hashOf_eq, h.contentsOf_eq]

theorem compareOldFingerprint_spec (u : U) (fp : Fingerprints H T U P) :
    ((compareOldFingerprint hash64 g disk u fp).1 = .ok () ↔ AsRecorded hash64 g disk fp u) ∧
      Noted hash64 g (Asked g disk u) fp (compareOldFingerprint hash64 g disk u fp).2 ∧
      (disk.short u ≠ none →
        (compareOldFingerprint hash64 g disk u fp).2.memoizedHash u ≠ none) := by
  unfold compareOldFingerprint AsRecorded
  cases hshort : disk.short u with
  | none => exact ⟨by simp, .refl fp, fun h => absurd rfl h⟩
  | some short =>
    obtain ⟨hvalue, hmemo, hnoted⟩ := hash_spec hash64 g u fp
    have hask : ∀ x, g.dag.Below u x → Asked g disk u x :=
      fun x hx => ⟨by simp [hshort], hx⟩
    have hkept : (hash hash64 g u fp).2.memoizedHash u ≠ none := by simp [hmemo]
    dsimp only
    rw [hvalue]
    by_cases hsame : short = some (hashOf hash64 g fp u)
    · rw [if_pos hsame, hsame]
      exact ⟨by simp, hnoted.mono hask, fun _ => hkept⟩
    · rw [if_neg hsame]
      cases hjson : disk.json u with
      | none => exact ⟨by simp [hsame], hnoted.mono hask, fun _ => hkept⟩
      | some old =>
        -- the contents are made in a state where more hashes are noted
        obtain ⟨hcontents, hmore⟩ := serialize_spec hash64 g u (hash hash64 g u fp).2
        dsimp only
        rw [hcontents, hnoted.contentsOf_eq]
        refine ⟨by simp [hsame], (hnoted.mono hask).trans (hmore.mono hask), fun _ => ?_⟩
        exact hmore.notes.ne_none hkept

theorem prepareTarget_spec (u : U) (fp : Fingerprints H T U P) :
    ((prepareTarget hash64 g disk u fp).1 = true ↔ FreshTarget hash64 g disk fp u) ∧
      Noted hash64 g (Asked g disk u) fp (prepareTarget hash64 g disk u fp).2 ∧
      (disk.short u ≠ none →
        (prepareTarget hash64 g disk u fp).2.memoizedHash u ≠ none) := by
  obtain ⟨hok, hnoted⟩ := compareOldFingerprint_spec hash64 g disk u fp
  refine ⟨?_, hnoted⟩
  have hisOk : ∀ r : Except (Mismatch T) Unit, r.isOk = true ↔ r = .ok () := by
    intro r
    cases r <;> simp [Except.isOk, Except.toBool]
  unfold prepareTarget FreshTarget
  rw [Bool.and_eq_true, hisOk, hok, Option.isSome_iff_ne_none]

theorem prepare_append_singleton (units : List U) (v : U) :
    prepare hash64 g disk (units ++ [v]) =
      (Function.update (prepare hash64 g disk units).1 v
        (prepareTarget hash64 g disk v (prepare hash64 g disk units).2).1,
      (prepareTarget hash64 g disk v (prepare hash64 g disk units).2).2) := by
  rw [prepare, List.foldl_append]
  rfl

/-- Units are found fresh one by one, whatever was noted for the others. -/
theorem prepare_spec (units : List U) :
    (∀ u ∈ units, ((prepare hash64 g disk units).1 u = true ↔
      FreshTarget hash64 g disk (calculate g disk) u)) ∧
    Noted hash64 g (fun x => ∃ u ∈ units, Asked g disk u x) (calculate g disk)
      (prepare hash64 g disk units).2 ∧
    ∀ u ∈ units, disk.short u ≠ none →
      (prepare hash64 g disk units).2.memoizedHash u ≠ none := by
  -- from the back: the last unit sees the hashes that were noted for the others
  induction units using List.reverseRecOn with
  | nil => exact ⟨by simp, .refl _, by simp⟩
  | append_singleton units v ih =>
    obtain ⟨hfresh, hnoted, hmemo⟩ := ih
    obtain ⟨hv, hnotedv, hmemov⟩ :=
      prepareTarget_spec hash64 g disk v (prepare hash64 g disk units).2
    rw [prepare_append_singleton]
    dsimp only
    refine ⟨fun u hu => ?_, ?_, fun u hu hshort => ?_⟩
    · by_cases huv : u = v
      · subst huv
        rw [Function.update_self, hv, hnoted.freshTarget_iff]
      · rw [Function.update_of_ne huv]
        have hmem := List.mem_append.mp hu
        simp only [List.mem_singleton, huv, or_false] at hmem
        exact hfresh u hmem
    · apply (hnoted.mono _).trans (hnotedv.mono _)
      · rintro x ⟨u, hu, hx⟩
        exact ⟨u, List.mem_append_left _ hu, hx⟩
      · exact fun x hx => ⟨v, by simp, hx⟩
    · rcases List.mem_append.mp hu with hu | hu
      · exact hnotedv.notes.ne_none (hmemo u hu hshort)
      · rw [List.mem_singleton] at hu
        subst hu
        exact hmemov hshort

omit [DecidableEq H] [DecidableEq U] in
/-- A path unit that is as good as before has a dep-info that counts, and that is not newer. -/
theorem locals_of_sameLocal {g : UnitGraph H U} {disk : Disk H T U P} {u : U}
    {recorded : List (LocalFingerprint T U P)} (hpath : g.useDepInfo u = true)
    (htimed : ∀ l ∈ recorded, l.Timed)
    (h : List.Forall₂ SameLocal ((calculate g disk).locals u) recorded) :
    ∃ mtime previously path, depInfoMtimeIfFresh disk u = some mtime ∧
      recorded = [.mtimeBased (some previously) path] ∧ mtime ≤ previously := by
  rw [locals_calculate_of_path hpath, forall₂_singleton_left_iff] at h
  obtain ⟨l, hl, hrecorded⟩ := h
  have hltimed := htimed l (by simp [hrecorded])
  cases l with
  | precalculated s => exact hl.elim
  | envBased key value => exact hl.elim
  | mtimeBased slot path =>
    obtain ⟨previously, rfl⟩ := Option.ne_none_iff_exists'.mp hltimed
    cases hnow : depInfoMtimeIfFresh disk u with
    | none => simp [SameLocal, hnow, shouldRebuild] at hl
    | some mtime =>
      refine ⟨mtime, previously, path, rfl, hrecorded, ?_⟩
      simpa [SameLocal, hnow, shouldRebuild] using hl

end Fresh

/-! ### Hashes without collisions -/

/-- Hashes that tell all contents apart. -/
inductive FreeHash (U : Type)
  | leaf
  | of (c : Contents (FreeHash U) ℕ U U)

theorem FreeHash.of_injective {U : Type} : Function.Injective (FreeHash.of (U := U)) :=
  fun _ _ h => FreeHash.of.inj h

noncomputable instance (U : Type) : DecidableEq (FreeHash U) := Classical.decEq (FreeHash U)

end Cargo.Compiler.Fingerprint
