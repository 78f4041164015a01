import Cargo.Compiler.Fingerprint.History
import Cargo.Math.Transition

/-!
# Builds of a unit that are interrupted

A unit is built again and again, under one configuration or another, always with the same output
file. A build writes the output, then it translates the dep-info, then it writes the hash of the
fingerprint, then the fingerprint itself; and it may be interrupted in between.

What was recorded before then stays there together with an output that belongs to something else.
If nothing that was recorded can be taken for the new output, then no harm is done.

## Main definitions

* `Build` — a build that comes to its end, or not
* `BuildStep` — builds, and changes between them
* `Consistent` — a unit that is found fresh was compiled in the way that is asked for
* `Build.Safe` — what a build that is interrupted must not find

## Main results

* `consistent_of_safe` — in every run of safe builds
* `not_consistent_interrupted` — not in every run
-/

set_option autoImplicit false

namespace Cargo.Compiler.Fingerprint

open Relation
open Cargo.Math

/-- How far a build comes: rustc has written the output, the dep-info is translated, the hash of
the fingerprint is written, and the fingerprint. -/
inductive Progress
  | nothing
  | compiled
  | translated
  | hashed
  | written

/-- A build of a unit, in some way, with the time and the files of the dep-info if rustc writes
one. It does for units that are tracked by it. -/
structure Build (H T P : Type) {U : Type} (u : U) where
  graph : UnitGraph H U
  depInfo : Option (T × List P)
  progress : Progress
  depInfo_ne_none : graph.useDepInfo u = true → depInfo ≠ none

/-- Sources change, and other units. The output may be gone. -/
structure Disk.Changes {H T U P : Type} (u : U) (disk disk' : Disk H T U P) : Prop where
  mtime : disk'.mtime (.depInfo u) = disk.mtime (.depInfo u)
  listed : disk'.listed u = disk.listed u
  short : disk'.short u = disk.short u
  json : disk'.json u = disk.json u
  output : disk'.output u = disk.output u ∨ disk'.output u = none

/-- The unit was never built. -/
structure Disk.NeverBuilt {H T U P : Type} (u : U) (disk : Disk H T U P) : Prop where
  short : disk.short u = none
  json : disk.json u = none

/-- The output is that of a compile in the given way; for a path unit, of the compile that has
written the dep-info, and the files listed there are older than it. -/
def MadeUnder {H T U P : Type} [LinearOrder T] (g : UnitGraph H U) (disk : Disk H T U P) (u : U) :
    Prop :=
  ∃ output, disk.output u = some output ∧ output.config = g.config u ∧
    (g.useDepInfo u = true → ∃ time, output.depInfo = some time ∧
      disk.mtime (.depInfo u) = some time ∧
      ∀ p ∈ disk.listed u, ∃ mtime2, disk.mtime (.source p) = some mtime2 ∧ mtime2 < time)

section Builds

variable {H T U P : Type} [DecidableEq H] [LinearOrder T] [DecidableEq U] [DecidableEq P] {u : U}
variable (hash64 : Contents H T U P → H)

/-- In whatever way the unit is asked for, if it is found fresh then it was made so. -/
def Consistent (u : U) (disk : Disk H T U P) : Prop :=
  ∀ g : UnitGraph H U,
    (prepareTarget hash64 g disk u (calculate g disk)).1 = true → MadeUnder g disk u

namespace Build

def afterRustc (b : Build H T P u) (disk : Disk H T U P) : Disk H T U P :=
  disk.compile u (b.graph.config u)

def afterDepInfo (b : Build H T P u) (disk : Disk H T U P) : Disk H T U P :=
  match b.depInfo with
  | none => b.afterRustc disk
  | some (time, files) => (b.afterRustc disk).translateDepInfo u time files

/-- The fingerprint that is written. It was made before the build. -/
def fingerprint (b : Build H T P u) (disk : Disk H T U P) : Option (Fingerprints H T U P) :=
  updateLocal (b.afterDepInfo disk) u
    (prepareTarget hash64 b.graph disk u (calculate b.graph disk)).2

/-- The files after the build. If the times cannot be brought up to date, then the fingerprint is
not written. -/
def work (b : Build H T P u) (disk : Disk H T U P) : Disk H T U P :=
  match b.progress, b.fingerprint hash64 disk with
  | .nothing, _ => disk
  | .compiled, _ => b.afterRustc disk
  | .translated, _ => b.afterDepInfo disk
  | .hashed, none => b.afterDepInfo disk
  | .hashed, some fp => (writeShort hash64 b.graph u (fp, b.afterDepInfo disk)).2
  | .written, none => b.afterDepInfo disk
  | .written, some fp => (writeFingerprint hash64 b.graph u (fp, b.afterDepInfo disk)).2

/-- The time of the dep-info, once that is translated. -/
def time (b : Build H T P u) (disk : Disk H T U P) : Option T :=
  match b.depInfo with
  | none => disk.mtime (.depInfo u)
  | some (time, _) => some time

end Build

/-- Builds that meet a condition, and changes between them. -/
inductive BuildStep (ok : Build H T P u → Disk H T U P → Prop) (disk : Disk H T U P) :
    Disk H T U P → Prop
  | change (disk' : Disk H T U P) (hdisk : disk.Changes u disk') : BuildStep ok disk disk'
  | build (b : Build H T P u) (hb : ok b disk) : BuildStep ok disk (b.work hash64 disk)

end Builds

/-! ### What may be found -/

section Found

variable {H T U P : Type} [LinearOrder T] {u : U}

/-- Is it tracked by the dep-info? -/
def Contents.Tracked (c : Contents H T U P) : Prop :=
  ∃ slot path, .mtimeBased slot path ∈ c.locals

/-- The hash on disk is that of a fingerprint with the given time of the dep-info. -/
def HashKept (hash64 : Contents H T U P → H) (disk : Disk H T U P) (u : U) (time : Option T)
    (c : Contents H T U P) : Prop :=
  disk.short u = some (some (hash64 c)) ∧
    ∀ slot path, .mtimeBased slot path ∈ c.locals → slot = time

/-- The fingerprint on disk is as good as one with the given time of the dep-info. -/
def JsonKept (disk : Disk H T U P) (u : U) (time : Option T) (c : Contents H T U P) : Prop :=
  disk.json u = some c ∧
    ∀ slot path, .mtimeBased slot path ∈ c.locals → shouldRebuild time slot = false

/-- The fingerprint may be taken for that of the build: it is for the same configuration, and if
it is tracked by the dep-info, then the build has written that. -/
def Build.Allows (b : Build H T P u) (c : Contents H T U P) : Prop :=
  c.config = b.graph.config u ∧ (c.Tracked → b.depInfo ≠ none)

/-- A build that is interrupted before it has written its own fingerprint has to be the one that
was recorded. While the dep-info is not translated, no fingerprint that is tracked by it may be
on disk for the time it has. -/
def Build.Safe (hash64 : Contents H T U P → H) (b : Build H T P u) (disk : Disk H T U P) : Prop :=
  match b.progress with
  | .nothing => True
  | .compiled => ∀ c, HashKept hash64 disk u (disk.mtime (.depInfo u)) c ∨
      JsonKept disk u (disk.mtime (.depInfo u)) c → c.config = b.graph.config u ∧ ¬ c.Tracked
  | .translated => ∀ c, HashKept hash64 disk u (b.time disk) c ∨ JsonKept disk u (b.time disk) c →
      b.Allows c
  | .hashed => ∀ c, JsonKept disk u (b.time disk) c → b.Allows c
  | .written => True

end Found

/-! ### What one build does -/

section Work

variable {H T U P : Type} [LinearOrder T] [DecidableEq U] [DecidableEq P] {u : U}
variable {hash64 : Contents H T U P → H} {disk : Disk H T U P}

omit [LinearOrder T] in
theorem Build.afterDepInfo_spec (b : Build H T P u) (disk : Disk H T U P) :
    (b.afterDepInfo disk).mtime (.depInfo u) = b.time disk ∧
      (b.afterDepInfo disk).short = disk.short ∧ (b.afterDepInfo disk).json = disk.json ∧
      ∃ depInfo, (b.afterDepInfo disk).output u = some ⟨b.graph.config u, depInfo⟩ ∧
        (b.depInfo ≠ none → depInfo = b.time disk) := by
  unfold Build.afterDepInfo Build.time
  cases b.depInfo with
  | none => exact ⟨rfl, rfl, rfl, none, by simp [Build.afterRustc, Disk.compile], by simp⟩
  | some made =>
    obtain ⟨time, files⟩ := made
    refine ⟨by simp [Disk.translateDepInfo], rfl, rfl, some time, ?_, fun _ => rfl⟩
    simp [Disk.translateDepInfo, Build.afterRustc, Disk.compile]

variable [DecidableEq H]

omit [LinearOrder T] [DecidableEq U] [DecidableEq P] [DecidableEq H] in
theorem Build.time_ne_none {b : Build H T P u} (hpath : b.graph.useDepInfo u = true)
    (disk : Disk H T U P) : b.time disk ≠ none := by
  obtain ⟨made, hmade⟩ := Option.ne_none_iff_exists'.mp (b.depInfo_ne_none hpath)
  simp [Build.time, hmade]

/-- The fingerprint that is written is computed from the times after the build. -/
theorem Build.exists_fingerprint (hash64 : Contents H T U P → H) (b : Build H T P u)
    (disk : Disk H T U P) :
    ∃ fp, b.fingerprint hash64 disk = some fp ∧
      hashOf hash64 b.graph fp u = hash64 (contentsOf hash64 b.graph fp u) ∧
      fp.locals u = [if b.graph.useDepInfo u then .mtimeBased (b.time disk) (.depInfo u)
        else .precalculated (b.graph.pkgFingerprint u)] := by
  obtain ⟨-, hnoted, -⟩ := prepareTarget_spec hash64 b.graph disk u (calculate b.graph disk)
  have hlocals : (prepareTarget hash64 b.graph disk u (calculate b.graph disk)).2.locals u =
      (calculate b.graph disk).locals u := congrFun hnoted.locals u
  obtain ⟨hmtime, -⟩ := b.afterDepInfo_spec disk
  unfold Build.fingerprint
  generalize (prepareTarget hash64 b.graph disk u (calculate b.graph disk)).2 = start
    at hnoted hlocals
  cases hpath : b.graph.useDepInfo u with
  | true =>
    obtain ⟨time, htime⟩ := Option.ne_none_iff_exists'.mp (Build.time_ne_none hpath disk)
    rw [htime] at hmtime ⊢
    have hone : start.locals u = [.mtimeBased (depInfoMtimeIfFresh disk u) (.depInfo u)] :=
      hlocals.trans (locals_calculate_of_path hpath disk)
    obtain ⟨fp, hfp, hnew, hnone⟩ := exists_updateLocal_of_mtimeBased hone hmtime
    exact ⟨fp, hfp, hashOf_of_none hnone, hnew⟩
  | false =>
    have hone : start.locals u = [.precalculated (b.graph.pkgFingerprint u)] :=
      hlocals.trans (locals_calculate_of_not_path hpath disk)
    refine ⟨start, updateLocal_of_precalculated hone, ?_, hone⟩
    -- the hash was noted before the build, and nothing has changed since
    rw [hnoted.hashOf_eq, hnoted.contentsOf_eq, hashOf_of_none rfl]

/-- What a build leaves behind. -/
theorem Build.exists_work (hash64 : Contents H T U P → H) (b : Build H T P u)
    (disk : Disk H T U P) :
    ∃ c : Contents H T U P, c.config = b.graph.config u ∧
      c.deps.map (fun d => (d.1, d.2.1)) =
        (b.graph.deps u).map (fun d => (d.pkgId, d.externCrateName)) ∧
      c.locals = [if b.graph.useDepInfo u then .mtimeBased (b.time disk) (.depInfo u)
        else .precalculated (b.graph.pkgFingerprint u)] ∧
      b.work hash64 disk =
        match b.progress with
        | .nothing => disk
        | .compiled => b.afterRustc disk
        | .translated => b.afterDepInfo disk
        | .hashed => { b.afterDepInfo disk with
            short := Function.update disk.short u (some (some (hash64 c))) }
        | .written => { b.afterDepInfo disk with
            short := Function.update disk.short u (some (some (hash64 c)))
            json := Function.update disk.json u (some c) } := by
  obtain ⟨fp, hfp, hhash, hlocals⟩ := b.exists_fingerprint hash64 disk
  obtain ⟨-, hshort, hjson, -⟩ := b.afterDepInfo_spec disk
  refine ⟨contentsOf hash64 b.graph fp u, rfl, ?_, hlocals, ?_⟩
  · rw [contentsOf, List.map_map]
    rfl
  · unfold Build.work
    rw [hfp, ← hshort, ← hjson, ← hhash]
    cases b.progress with
    | nothing => rfl
    | compiled => rfl
    | translated => rfl
    | hashed => exact (writeShort_spec hash64 b.graph u fp (b.afterDepInfo disk)).1
    | written => exact (writeFingerprint_spec hash64 b.graph u fp (b.afterDepInfo disk)).1

end Work

/-! ### What is on disk -/

section Kept

variable {H T U P : Type} [LinearOrder T] {u : U}
variable {hash64 : Contents H T U P → H} {disk : Disk H T U P}

/-- What is on disk of fingerprints was written with times, and what may be found of it belongs to
the output. -/
structure Kept (hash64 : Contents H T U P → H) (u : U) (disk : Disk H T U P) : Prop where
  short : ∀ o, disk.short u = some o → ∃ c, o = some (hash64 c) ∧ ∀ l ∈ c.locals, l.Timed
  json : ∀ c, disk.json u = some c → ∀ l ∈ c.locals, l.Timed
  made : ∀ c, HashKept hash64 disk u (disk.mtime (.depInfo u)) c ∨
      JsonKept disk u (disk.mtime (.depInfo u)) c →
    ∀ output, disk.output u = some output →
      output.config = c.config ∧ (c.Tracked → output.depInfo = disk.mtime (.depInfo u))

theorem Disk.NeverBuilt.kept (h : disk.NeverBuilt u) : Kept hash64 u disk where
  short o ho := by simp [h.short] at ho
  json c hc := by simp [h.json] at hc
  made c hc := by
    rcases hc with ⟨hshort, -⟩ | ⟨hjson, -⟩
    · simp [h.short] at hshort
    · simp [h.json] at hjson

theorem Kept.change (h : Kept hash64 u disk) {disk' : Disk H T U P} (hdisk : disk.Changes u disk') :
    Kept hash64 u disk' where
  short o ho := h.short o (hdisk.short ▸ ho)
  json c hc := h.json c (hdisk.json ▸ hc)
  made c hc output houtput := by
    rw [HashKept, JsonKept, hdisk.short, hdisk.json] at hc
    rw [hdisk.mtime] at hc ⊢
    rcases hdisk.output with heq | heq
    · exact h.made c hc output (heq ▸ houtput)
    · rw [heq] at houtput
      cases houtput

variable [DecidableEq U] [DecidableEq P]

/-- If all that may be found may be taken for that of the build, it belongs to the output. -/
theorem Build.kept (b : Build H T P u) (disk : Disk H T U P) {disk' : Disk H T U P}
    (hmtime : disk'.mtime = (b.afterDepInfo disk).mtime)
    (houtput : disk'.output = (b.afterDepInfo disk).output)
    (hshort : ∀ o, disk'.short u = some o → ∃ c, o = some (hash64 c) ∧ ∀ l ∈ c.locals, l.Timed)
    (hjson : ∀ c, disk'.json u = some c → ∀ l ∈ c.locals, l.Timed)
    (hallows : ∀ c, HashKept hash64 disk' u (b.time disk) c ∨ JsonKept disk' u (b.time disk) c →
      b.Allows c) : Kept hash64 u disk' where
  short := hshort
  json := hjson
  made c hc output hout := by
    obtain ⟨htime, -, -, depInfo, hmade, hdepInfo⟩ := b.afterDepInfo_spec disk
    rw [hmtime, htime] at hc ⊢
    rw [houtput, hmade, Option.some.injEq] at hout
    obtain ⟨hconfig, htracked⟩ := hallows c hc
    subst hout
    exact ⟨hconfig.symm, fun h => hdepInfo (htracked h)⟩

omit [LinearOrder T] [DecidableEq U] [DecidableEq P] in
/-- The fingerprint of a build may be found from then on. -/
theorem Build.allows_own (b : Build H T P u) {own : Contents H T U P}
    (hconfig : own.config = b.graph.config u)
    (hlocals : own.locals = [if b.graph.useDepInfo u then .mtimeBased (b.time disk) (.depInfo u)
      else .precalculated (b.graph.pkgFingerprint u)]) :
    b.Allows own ∧ ∀ l ∈ own.locals, l.Timed := by
  have hslot : ∀ slot path, .mtimeBased slot path ∈ own.locals →
      b.depInfo ≠ none ∧ slot ≠ none := by
    intro slot path hmem
    rw [hlocals, List.mem_singleton] at hmem
    split at hmem
    · rename_i hpath
      cases hmem
      exact ⟨b.depInfo_ne_none hpath, Build.time_ne_none hpath disk⟩
    · cases hmem
  refine ⟨⟨hconfig, fun ⟨slot, path, hmem⟩ => (hslot slot path hmem).1⟩, fun l hl => ?_⟩
  cases l with
  | mtimeBased slot path => exact (hslot slot path hl).2
  | precalculated s => trivial
  | envBased key value => trivial

variable [DecidableEq H]

/-- A safe build keeps what is on disk in order. -/
theorem Kept.build (h : Kept hash64 u disk) (hinj : Function.Injective hash64)
    {b : Build H T P u} (hsafe : b.Safe hash64 disk) : Kept hash64 u (b.work hash64 disk) := by
  obtain ⟨own, hconfig, -, hlocals, hwork⟩ := b.exists_work hash64 disk
  obtain ⟨-, hshort, hjson, -⟩ := b.afterDepInfo_spec disk
  obtain ⟨hown, htimed⟩ := b.allows_own hconfig hlocals
  unfold Build.Safe at hsafe
  rw [hwork]
  cases hprogress : b.progress with
  | nothing => exact h
  -- only the output is new; what may be found to agree with it is from an earlier build
  | compiled =>
    rw [hprogress] at hsafe
    refine ⟨h.short, h.json, fun c hc output hout => ?_⟩
    obtain ⟨hconfig, htracked⟩ := hsafe c hc
    simp only [Build.afterRustc, Disk.compile, Function.update_self, Option.some.injEq] at hout
    subst hout
    exact ⟨hconfig.symm, fun h => absurd h htracked⟩
  | translated =>
    rw [hprogress] at hsafe
    apply b.kept disk
    · rfl
    · rfl
    · rw [hshort]
      exact h.short
    · rw [hjson]
      exact h.json
    · intro c hc
      rw [HashKept, JsonKept, hshort, hjson] at hc
      exact hsafe c hc
  -- the json is still that of an earlier build
  | hashed =>
    rw [hprogress] at hsafe
    apply b.kept disk
    · rfl
    · rfl
    · intro o ho
      dsimp only at ho
      rw [Function.update_self, Option.some.injEq] at ho
      exact ⟨own, ho.symm, htimed⟩
    · rw [hjson]
      exact h.json
    · rintro c (⟨hc, -⟩ | hc)
      · -- the hash is that of the build
        simp only [Function.update_self, Option.some.injEq] at hc
        rw [← hinj hc]
        exact hown
      · rw [JsonKept] at hc
        dsimp only at hc
        rw [hjson] at hc
        exact hsafe c hc
  | written =>
    apply b.kept disk
    · rfl
    · rfl
    · intro o ho
      dsimp only at ho
      rw [Function.update_self, Option.some.injEq] at ho
      exact ⟨own, ho.symm, htimed⟩
    · intro c hc
      dsimp only at hc
      rw [Function.update_self, Option.some.injEq] at hc
      rw [← hc]
      exact htimed
    · rintro c (⟨hc, -⟩ | ⟨hc, -⟩)
      · simp only [Function.update_self, Option.some.injEq] at hc
        rw [← hinj hc]
        exact hown
      · simp only [Function.update_self, Option.some.injEq] at hc
        rw [← hc]
        exact hown

omit [DecidableEq U] [DecidableEq P] in
/-- What a fingerprint is found to agree with is on disk for the time of the dep-info. -/
theorem Kept.exists_kept (h : Kept hash64 u disk) (hinj : Function.Injective hash64)
    {g : UnitGraph H U} (hrecorded : AsRecorded hash64 g disk (calculate g disk) u) :
    ∃ c, (HashKept hash64 disk u (disk.mtime (.depInfo u)) c ∨
        JsonKept disk u (disk.mtime (.depInfo u)) c) ∧ c.config = g.config u ∧
      (g.useDepInfo u = true → c.Tracked ∧ ∃ mtime, depInfoMtimeIfFresh disk u = some mtime) := by
  have htimed : ∃ c, (disk.short u = some (some (hash64 c)) ∧
        c = contentsOf hash64 g (calculate g disk) u ∨ disk.json u = some c) ∧
      (∀ l ∈ c.locals, l.Timed) ∧
      compare (contentsOf hash64 g (calculate g disk) u) c = .ok () := by
    rcases hrecorded with hshort | ⟨-, old, hjson, hcompare⟩
    · obtain ⟨c, hc, htimed⟩ := h.short _ hshort
      rw [hashOf_of_none rfl, Option.some.injEq] at hc
      obtain rfl := hinj hc
      rw [hashOf_of_none rfl] at hshort
      exact ⟨_, .inl ⟨hshort, rfl⟩, htimed, compare_self _⟩
    · exact ⟨old, .inr hjson, h.json old hjson, hcompare⟩
  obtain ⟨c, hc, htimed, hcompare⟩ := htimed
  obtain ⟨hconfig, hlocals, -⟩ := compare_ok_iff.mp hcompare
  cases hg : g.useDepInfo u with
  | true =>
    obtain ⟨mtime, previously, path, hnow, hrecorded, hle⟩ :=
      locals_of_sameLocal hg htimed hlocals
    have hmtime := (depInfoMtimeIfFresh_eq_some.mp hnow).1
    refine ⟨c, ?_, hconfig.symm, fun _ => ⟨⟨some previously, path, by simp [hrecorded]⟩, mtime,
      hnow⟩⟩
    rw [HashKept, JsonKept, hrecorded, hmtime]
    rcases hc with ⟨hshort, rfl⟩ | hjson
    · -- the times are the same, not only as good
      left
      refine ⟨hshort, fun slot path' hmem => ?_⟩
      rw [← hrecorded, contentsOf, locals_calculate_of_path hg, hnow, List.mem_singleton] at hmem
      cases hmem
      rfl
    · right
      refine ⟨hjson, fun slot path' hmem => ?_⟩
      cases List.mem_singleton.mp hmem
      simpa [shouldRebuild] using hle
  | false =>
    have hnone : ∀ slot path, .mtimeBased slot path ∉ c.locals := by
      intro slot path hmem
      rw [contentsOf, locals_calculate_of_not_path hg, forall₂_singleton_left_iff] at hlocals
      obtain ⟨l, hl, hrecorded⟩ := hlocals
      rw [hrecorded, List.mem_singleton] at hmem
      subst hmem
      exact hl.elim
    refine ⟨c, ?_, hconfig.symm, fun hpath => absurd hpath Bool.false_ne_true⟩
    rcases hc with ⟨hshort, -⟩ | hjson
    · exact .inl ⟨hshort, fun slot path hmem => absurd hmem (hnone slot path)⟩
    · exact .inr ⟨hjson, fun slot path hmem => absurd hmem (hnone slot path)⟩

omit [DecidableEq P] in
/-- A unit that is found fresh was made in the way that is asked for. -/
theorem Kept.consistent (h : Kept hash64 u disk) (hinj : Function.Injective hash64) :
    Consistent hash64 u disk := by
  intro g hfresh
  obtain ⟨hrecorded, houtput⟩ :=
    (prepareTarget_spec hash64 g disk u (calculate g disk)).1.mp hfresh
  obtain ⟨output, houtput⟩ := Option.ne_none_iff_exists'.mp houtput
  obtain ⟨c, hc, hconfig, hpath⟩ := h.exists_kept hinj hrecorded
  obtain ⟨hsame, htracked⟩ := h.made c hc output houtput
  refine ⟨output, houtput, hsame.trans hconfig, fun hg => ?_⟩
  obtain ⟨hc, mtime, hnow⟩ := hpath hg
  obtain ⟨hmtime, -, hall⟩ := depInfoMtimeIfFresh_eq_some.mp hnow
  exact ⟨mtime, (htracked hc).trans hmtime, hmtime, hall⟩

/-- In every run of safe builds the unit is consistent. -/
theorem consistent_of_safe (hinj : Function.Injective hash64) {disk₀ : Disk H T U P}
    (hdisk₀ : disk₀.NeverBuilt u)
    (hrun : ReflTransGen (BuildStep hash64 (Build.Safe hash64 (u := u))) disk₀ disk) :
    Consistent hash64 u disk := by
  apply Kept.consistent _ hinj
  apply invariant_of_reachable hrun hdisk₀.kept
  rintro disk disk' hkept (⟨_, hchange⟩ | ⟨b, hsafe⟩)
  · exact hkept.change hchange
  · exact hkept.build hinj hsafe

end Kept

/-! ### A crate that is built for two editions -/

/-- A unit without dependencies, from a path or not. -/
def editionUnit (path : Bool) (edition : Edition) : UnitGraph (FreeHash Unit) Unit where
  config _ := ⟨.leaf, "", .leaf, .leaf, .leaf, [], edition⟩
  depTargets _ := []
  isTest _ := false
  useDepInfo _ := path
  pkgFingerprint _ := "1.0.0"
  rank _ := 0
  rank_lt _ d hd := by cases hd

@[simp]
theorem deps_editionUnit (path : Bool) (edition : Edition) :
    (editionUnit path edition).deps () = [] := by
  simp [UnitGraph.deps, editionUnit]

/-- Its source was written at time 1. -/
def unbuilt : Disk (FreeHash Unit) ℕ Unit Unit where
  mtime file := if file = .source () then some 1 else none
  listed _ := []
  short _ := none
  json _ := none
  output _ := none

/-- A build, which may be interrupted. Its dep-info is translated at the given time. -/
def editionBuild (path : Bool) (edition : Edition) (time : ℕ) (progress : Progress) :
    Build (FreeHash Unit) ℕ Unit () where
  graph := editionUnit path edition
  depInfo := some (time, [()])
  progress := progress
  depInfo_ne_none _ := by simp

theorem hashOf_editionUnit (path : Bool) (edition : Edition)
    (disk : Disk (FreeHash Unit) ℕ Unit Unit) :
    hashOf FreeHash.of (editionUnit path edition) (calculate (editionUnit path edition) disk) () =
      .of ⟨(editionUnit path edition).config (), [],
        [if path then .mtimeBased (depInfoMtimeIfFresh disk ()) (.depInfo ())
          else .precalculated "1.0.0"]⟩ := by
  rw [hashOf_of_none rfl, contentsOf, deps_editionUnit]
  cases path <;> simp [editionUnit, calculate]

/-- What a build that comes to its end leaves behind. -/
theorem exists_work_editionBuild (path : Bool) (edition : Edition) (time : ℕ)
    (disk : Disk (FreeHash Unit) ℕ Unit Unit) :
    ∃ locals : List (LocalFingerprint ℕ Unit Unit),
      locals = [if path then .mtimeBased (some time) (.depInfo ()) else .precalculated "1.0.0"] ∧
      (editionBuild path edition time .written).work FreeHash.of disk =
        { (disk.compile () ((editionUnit path edition).config ())).translateDepInfo () time [()]
          with
          short := Function.update disk.short ()
            (some (some (.of ⟨(editionUnit path edition).config (), [], locals⟩)))
          json := Function.update disk.json ()
            (some ⟨(editionUnit path edition).config (), [], locals⟩) } := by
  obtain ⟨c, hconfig, hdeps, hlocals, hwork⟩ :=
    (editionBuild path edition time .written).exists_work FreeHash.of disk
  obtain ⟨config, deps, locals⟩ := c
  obtain rfl : deps = [] := by simpa [editionBuild] using hdeps
  cases hconfig
  exact ⟨locals, hlocals, hwork⟩

/-- After a build that came to its end the unit is fresh, as long as there is some output. -/
theorem fresh_editionBuild (path : Bool) (edition : Edition) {time : ℕ} (htime : 1 < time)
    (disk₀ : Disk (FreeHash Unit) ℕ Unit Unit) {disk : Disk (FreeHash Unit) ℕ Unit Unit}
    (hsource : disk₀.mtime (.source ()) = some 1)
    (hmtime : disk.mtime =
      ((editionBuild path edition time .written).work FreeHash.of disk₀).mtime)
    (hlisted : disk.listed =
      ((editionBuild path edition time .written).work FreeHash.of disk₀).listed)
    (hshort : disk.short =
      ((editionBuild path edition time .written).work FreeHash.of disk₀).short)
    (houtput : disk.output () ≠ none) :
    (prepareTarget FreeHash.of (editionUnit path edition) disk ()
      (calculate (editionUnit path edition) disk)).1 = true := by
  obtain ⟨locals, rfl, hwork⟩ := exists_work_editionBuild path edition time disk₀
  have hnow : depInfoMtimeIfFresh disk () = some time := by
    rw [hwork] at hmtime hlisted
    refine depInfoMtimeIfFresh_eq_some.mpr ⟨?_, ?_, fun p _ => ⟨1, ?_, htime⟩⟩
    · simp [hmtime, Disk.translateDepInfo]
    · simp [hlisted, Disk.translateDepInfo]
    · simpa [hmtime, Disk.translateDepInfo, Disk.compile] using hsource
  rw [(prepareTarget_spec FreeHash.of (editionUnit path edition) disk () _).1]
  refine ⟨.inl ?_, houtput⟩
  rw [hashOf_editionUnit, hshort, hwork, hnow]
  simp

/-- The output of an interrupted build is taken for that of the one before. -/
theorem not_consistent_interrupted : ¬ ∀ disk,
    ReflTransGen (BuildStep FreeHash.of (u := ()) fun _ _ => True) unbuilt disk →
      Consistent FreeHash.of () disk := by
  intro hall
  have hwhole : ReflTransGen (BuildStep FreeHash.of (u := ()) fun _ _ => True) unbuilt
      ((editionBuild false .edition2015 2 .written).work FreeHash.of unbuilt) :=
    .single (.build _ trivial)
  have hboth := hwhole.tail (.build (editionBuild false .edition2018 3 .compiled) trivial)
  obtain ⟨output, houtput, hconfig, -⟩ := hall _ hboth (editionUnit false .edition2015)
    (fresh_editionBuild false .edition2015 (by decide) unbuilt rfl rfl rfl rfl (by
      simp [Build.work, editionBuild, Build.afterRustc, Disk.compile]))
  have hmade : some output = some ⟨(editionUnit false .edition2018).config (), none⟩ := by
    rw [← houtput]
    simp [Build.work, editionBuild, Build.afterRustc, Disk.compile]
  cases hmade
  cases hconfig

/-- A path unit that was built for one edition. -/
noncomputable def builtOnce : Disk (FreeHash Unit) ℕ Unit Unit :=
  (editionBuild true .edition2015 2 .written).work FreeHash.of unbuilt

/-- Its build for another edition is interrupted when the dep-info is translated. -/
noncomputable def builtInPart : Disk (FreeHash Unit) ℕ Unit Unit :=
  (editionBuild true .edition2018 3 .translated).work FreeHash.of builtOnce

/-- Nothing that is on disk is good for the time of the dep-info. -/
theorem safe_builtInPart :
    (editionBuild true .edition2018 3 .translated).Safe FreeHash.of builtOnce := by
  obtain ⟨locals, rfl, hwork⟩ := exists_work_editionBuild true .edition2015 2 unbuilt
  rintro c (⟨hshort, hslot⟩ | ⟨hjson, hslot⟩)
  · rw [builtOnce, hwork] at hshort
    simp only [Function.update_self, Option.some.injEq, FreeHash.of.injEq] at hshort
    have htime := hslot (some 2) (.depInfo ()) (by simp [← hshort])
    simp [editionBuild, Build.time] at htime
  · rw [builtOnce, hwork] at hjson
    simp only [Function.update_self, Option.some.injEq] at hjson
    have htime := hslot (some 2) (.depInfo ()) (by simp [← hjson])
    simp [editionBuild, Build.time, shouldRebuild] at htime

/-- Then it is built for the other edition to the end. -/
theorem madeUnder_interrupted :
    (editionBuild true .edition2018 3 .translated).Safe FreeHash.of builtOnce ∧
      MadeUnder (editionUnit true .edition2018)
        ((editionBuild true .edition2018 4 .written).work FreeHash.of builtInPart) () := by
  have hrun : ReflTransGen (BuildStep FreeHash.of (Build.Safe FreeHash.of (u := ()))) unbuilt
      ((editionBuild true .edition2018 4 .written).work FreeHash.of builtInPart) :=
    ((ReflTransGen.single (.build (editionBuild true .edition2015 2 .written) trivial)).tail
      (.build (editionBuild true .edition2018 3 .translated) safe_builtInPart)).tail
      (.build (editionBuild true .edition2018 4 .written) trivial)
  have hsource : builtInPart.mtime (.source ()) = some 1 := by
    obtain ⟨locals, -, hwork⟩ := exists_work_editionBuild true .edition2015 2 unbuilt
    rw [builtInPart, builtOnce, hwork]
    simp [Build.work, editionBuild, Build.afterDepInfo, Build.afterRustc, Disk.translateDepInfo,
      Disk.compile, unbuilt]
  refine ⟨safe_builtInPart, consistent_of_safe FreeHash.of_injective ⟨rfl, rfl⟩ hrun _ ?_⟩
  refine fresh_editionBuild true .edition2018 (by decide) builtInPart hsource rfl rfl rfl ?_
  obtain ⟨locals, -, hwork⟩ := exists_work_editionBuild true .edition2018 4 builtInPart
  rw [hwork]
  simp [Disk.translateDepInfo, Disk.compile]

end Cargo.Compiler.Fingerprint
