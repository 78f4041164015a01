import Cargo.Resolver.Selection

/-!
# Why a candidate is refused

Every context of the search is accounted for: its active packages are known, every `links`
value that is taken belongs to one of them, and every dependency that waits is one of an
active package. So a package that refuses a candidate is a package that excludes it, in
whatever selection the two meet.

## Main definitions

* `Accounted` — every active package, `links` value and waiting dependency has its reason
* `RemainingCandidates.Has` — the candidates that were not tried

## Main results

* `accounted_of_reaches` — the contexts of the search are accounted for
* `blamed_of_refusal` — who refuses a candidate is to blame in every selection
* `nextLoop_accounts` — no candidate is lost by `next`
-/

set_option autoImplicit false

namespace Cargo.Resolver

open Cargo.Core Cargo.Math

variable {S R : Type} [DecidableEq S]

/-! ### Contexts -/

/-- Every active package is known, every `links` value that is taken belongs to an active
package, and every dependency that waits is one of an active package. -/
structure Accounted (env : Env S R) (roots : List (Summary S R × Method)) (cx : Context S R)
    (pending : Pending S R) : Prop where
  known : ∀ slot, ∀ s ∈ cx.active slot, Known env roots s
  slot : ∀ slot, ∀ s ∈ cx.active slot, s.packageId.slot = slot
  links : ∀ link id, cx.links.lookup link = some id →
    ∃ s ∈ cx.active id.slot, s.packageId = id ∧ s.links = some link
  pending : ∀ e ∈ pending, e.1 ∈ cx.active e.1.packageId.slot ∧ e.2.dep ∈ e.1.dependencies ∧
    Wanted roots e.1 e.2.dep ∧ env.registry.query e.2.dep = .ok e.2.candidates

section Accounted

variable [VersionReq R] {env : Env S R} {roots : List (Summary S R × Method)}
  {cx cx' mid : Context S R} {pending pending' : Pending S R} {s : Summary S R} {method : Method}

omit [VersionReq R] in
/-- The invariant does not see the graph or the features. -/
theorem Accounted.congr (h : Accounted env roots cx pending) (hactive : cx'.active = cx.active)
    (hlinks : cx'.links = cx.links) : Accounted env roots cx' pending := by
  refine ⟨?_, ?_, ?_, ?_⟩
  · rw [hactive]
    exact h.known
  · rw [hactive]
    exact h.slot
  · rw [hactive, hlinks]
    exact h.links
  · rw [hactive]
    exact h.pending

omit [VersionReq R] in
/-- Putting a known package among the active ones. -/
theorem Accounted.added (h : Accounted env roots cx pending) (hs : Known env roots s)
    (hadded : Context.Added cx s cx') : Accounted env roots cx' pending := by
  have hmem : ∀ slot t, t ∈ cx'.active slot ↔
      t ∈ cx.active slot ∨ slot = s.packageId.slot ∧ t = s := by
    intro slot t
    rw [hadded.active]
    split
    · rename_i hslot
      simp [hslot]
    · rename_i hslot
      simp [hslot]
  refine ⟨?_, ?_, ?_, ?_⟩
  · intro slot t ht
    rcases (hmem slot t).mp ht with ht | ⟨-, rfl⟩
    · exact h.known slot t ht
    · exact hs
  · intro slot t ht
    rcases (hmem slot t).mp ht with ht | ⟨hslot, rfl⟩
    · exact h.slot slot t ht
    · exact hslot.symm
  · intro link id hlookup
    rw [hadded.links] at hlookup
    split at hlookup
    · rename_i hlink
      cases hlookup
      exact ⟨s, (hmem _ _).mpr (Or.inr ⟨rfl, rfl⟩), rfl, hlink⟩
    · obtain ⟨t, ht, hid, hlink⟩ := h.links link id hlookup
      exact ⟨t, (hmem _ _).mpr (Or.inl ht), hid, hlink⟩
  · intro e he
    obtain ⟨hactive, hrest⟩ := h.pending e he
    exact ⟨(hmem _ _).mpr (Or.inl hactive), hrest⟩

/-- Flagging a known package. -/
theorem Accounted.flagged (hreg : Registered env (Known env roots))
    (h : Accounted env roots cx pending) (hs : Known env roots s)
    (hflag : Flagged cx s method mid) :
    Accounted env roots mid pending ∧ s ∈ mid.active s.packageId.slot := by
  rcases hflag with ⟨hactive, -, rfl⟩ | hadded
  · obtain ⟨t, ht, hid⟩ := Context.isActive_iff.mp hactive
    exact ⟨h, hreg.coherent t s (h.known _ t ht) hs hid ▸ ht⟩
  · refine ⟨h.added hs hadded, ?_⟩
    rw [hadded.active, if_pos rfl]
    simp

/-- Expanding a known package: its dependencies wait to be activated. -/
theorem Accounted.expanded (hreg : Registered env (Known env roots))
    (h : Accounted env roots cx pending) (hs : Known env roots s)
    (hflag : Flagged cx s method mid) {reqs : Requirements} {infos : List (DepInfo S R)}
    (hexp : Context.Expanded env.registry s method reqs mid cx' infos)
    (hdev : ∀ d, method.devDeps = true → Wanted roots s d)
    (hpending : ∀ e ∈ pending', e ∈ pending) :
    Accounted env roots cx' (infos.map (fun info => (s, info)) ++ pending') := by
  obtain ⟨hmid, hmem⟩ := h.flagged hreg hs hflag
  have hcx' := hmid.congr hexp.same.active hexp.same.links
  refine ⟨hcx'.known, hcx'.slot, hcx'.links, ?_⟩
  intro e he
  rcases List.mem_append.mp he with he | he
  · obtain ⟨info, hinfo, rfl⟩ := List.mem_map.mp he
    obtain ⟨d, hd, hwanted, -, rfl, -, hquery⟩ := (hexp.mem_infos info).mp hinfo
    rw [hexp.same.active]
    refine ⟨hmem, hd, ?_, hquery⟩
    rcases hwanted with htrans | hdevDeps
    · exact Or.inl htrans
    · exact hdev _ hdevDeps
  · exact hcx'.pending e (hpending e he)

omit [VersionReq R] in
theorem Accounted.link (h : Accounted env roots cx pending)
    (parent : Option (Summary S R × Dependency S R)) (c : Candidate S R) :
    Accounted env roots (cx.link parent c) pending :=
  h.congr link_active link_links

/-- The invariant is kept by the search. -/
theorem Accounted.kept (hreg : Registered env (Known env roots)) :
    Kept env (Accounted env roots) where
  perm := by
    intro cx l l' hperm h
    exact ⟨h.known, h.slot, h.links, fun e he => h.pending e (hperm.mem_iff.mpr he)⟩
  already := by
    intro cx cx' parent info rest c h hc _ hactivate
    obtain ⟨-, -, -, hquery⟩ := h.pending (parent, info) (by simp)
    obtain ⟨-, -, hreplace⟩ := hreg.candidate hquery hc
    have hlinked := h.link (some (parent, info.dep)) c
    rcases activate_ok hactivate hreplace with ⟨-, -, -, rfl⟩ | ⟨_, _, _, _, _, hout⟩ |
      ⟨_, _, _, _, _, hout⟩
    · exact ⟨hlinked.known, hlinked.slot, hlinked.links,
        fun e he => hlinked.pending e (by simp [he])⟩
    · cases hout
    · cases hout
  frame := by
    intro cx cx' parent info rest c frame h hc _ hactivate
    obtain ⟨-, -, -, hquery⟩ := h.pending (parent, info) (by simp)
    obtain ⟨hs, -, hreplace⟩ := hreg.candidate hquery hc
    rcases activate_ok hactivate hreplace with ⟨hout, -⟩ | ⟨mid, reqs, infos, hflag, hexp, hout⟩ |
      ⟨_, _, _, _, _, hout⟩
    · cases hout
    · cases hout
      exact (h.link _ c).expanded hreg hs hflag hexp (by simp [Method.devDeps])
        (fun e he => by simp [he])
    · cases hout

omit [VersionReq R] in
/-- Activating a root that needs nothing more. -/
theorem Accounted.root_already (h : Accounted env roots cx pending)
    {root : Summary S R × Method}
    (hactivate : activate env cx none ⟨root.1, none⟩ root.2 = .ok (cx', .already)) :
    Accounted env roots cx' pending := by
  rcases activate_ok hactivate rfl with ⟨-, -, -, rfl⟩ | ⟨_, _, _, _, _, hout⟩ |
    ⟨_, _, _, _, _, hout⟩
  · exact h.link none ⟨root.1, none⟩
  · cases hout
  · cases hout

/-- Activating a root with dependencies. -/
theorem Accounted.root_frame (hreg : Registered env (Known env roots))
    (h : Accounted env roots cx pending) {root : Summary S R × Method} (hroot : root ∈ roots)
    {frame : DepsFrame S R}
    (hactivate : activate env cx none ⟨root.1, none⟩ root.2 = .ok (cx', .frame frame)) :
    Accounted env roots cx' (frame.flatten ++ pending) := by
  rcases activate_ok hactivate rfl with ⟨hout, -⟩ | ⟨mid, reqs, infos, hflag, hexp, hout⟩ |
    ⟨_, _, _, _, _, hout⟩
  · cases hout
  · cases hout
    exact (h.link none ⟨root.1, none⟩).expanded hreg (Or.inl ⟨root, hroot, rfl⟩) hflag hexp
      (fun d hdev => Or.inr ⟨root, hroot, rfl, hdev⟩) (fun e he => he)
  · cases hout

omit [VersionReq R] in
theorem accounted_new : Accounted env roots Context.new [] := by
  refine ⟨?_, ?_, ?_, ?_⟩ <;> simp [Context.new, Context.active]

/-- In every state of the search, every context is accounted for. -/
theorem accounted_of_reaches [DecidableEq R] (hreg : Registered env (Known env roots))
    {m : Machine S R} (h : Reaches env roots m) : MachineOk (Accounted env roots) m :=
  machineOk_of_reaches (Accounted.kept hreg)
    (machineOk_start (Accounted.kept hreg) accounted_new
      (fun _ _ _ _ _ hcx hactivate => hcx.root_already hactivate)
      (fun _ hroot _ _ _ _ hcx hactivate => hcx.root_frame hreg hroot hactivate)) h

end Accounted

/-! ### Candidates that are given up -/

/-- `c` was not tried yet. -/
def RemainingCandidates.Has (rc : RemainingCandidates S R) (c : Candidate S R) : Prop :=
  c ∈ rc.remaining ∨ rc.hasAnother = some c

omit [DecidableEq S] in
theorem Exhausted.not_has {rc : RemainingCandidates S R} (h : Exhausted rc) (c : Candidate S R) :
    ¬ rc.Has c := by
  simp [RemainingCandidates.Has, h.1, h.2]

/-- The package `id` that is named by a refusal excludes the candidate. -/
theorem refusal_eq_some {cx : Context S R} {dep : Dependency S R} {c : Candidate S R}
    {id : PackageId S} {reason : ConflictReason} (h : refusal cx dep c = some (id, reason)) :
    id ≠ c.summary.packageId ∧
      ((∃ a ∈ cx.prevActive dep, a.packageId = id ∧
          compatible a.packageId.version c.summary.packageId.version = true) ∨
        ∃ link, c.summary.links = some link ∧ cx.links.lookup link = some id) := by
  unfold refusal at h
  extract_lets bySemver at h
  have hsemver : bySemver = some (id, reason) → id ≠ c.summary.packageId ∧
      ∃ a ∈ cx.prevActive dep, a.packageId = id ∧
        compatible a.packageId.version c.summary.packageId.version = true := by
    intro h
    simp only [bySemver] at h
    split at h
    · rename_i a hfind
      split at h
      · rename_i hne
        cases h
        exact ⟨hne, a, List.mem_of_find?_eq_some hfind, rfl, by simpa using List.find?_some hfind⟩
      · cases h
    · cases h
  split at h
  · exact (hsemver h).imp_right Or.inl
  · rename_i link hlinks
    split at h
    · rename_i a hlookup
      split at h
      · rename_i hne
        cases h
        exact ⟨hne, Or.inr ⟨link, hlinks, hlookup⟩⟩
      · exact (hsemver h).imp_right Or.inl
    · exact (hsemver h).imp_right Or.inl

/-- A candidate that is refused in a context of the search is to blame in every selection. -/
theorem blamed_of_refusal [VersionReq R] {env : Env S R} {roots : List (Summary S R × Method)}
    (hreg : Registered env (Known env roots)) {cx : Context S R} {pending : Pending S R}
    (hcx : Accounted env roots cx pending) {dep : Dependency S R} {c : Candidate S R}
    {id : PackageId S} {reason : ConflictReason} (hfulfils : Fulfils dep c.summary.packageId)
    (h : refusal cx dep c = some (id, reason)) {con : Conflicts S} (hid : id ∈ con) :
    Blamed env roots dep con c.summary := by
  intro σ hσ hcon hc _
  obtain ⟨hne, ⟨a, ha, rfl, hcompat⟩ | ⟨link, hlink, hlookup⟩⟩ := refusal_eq_some h
  · have hmem : a ∈ σ.packages := hσ.mem_of_id hreg (hcx.known _ a ha) (hcon _ hid)
    have hslot : a.packageId.slot = c.summary.packageId.slot := by
      rw [hcx.slot _ a ha, hfulfils.slot_eq]
    exact hne (hσ.semver a hmem _ hc hslot hcompat)
  · obtain ⟨a, ha, rfl, halink⟩ := hcx.links link id hlookup
    have hmem : a ∈ σ.packages := hσ.mem_of_id hreg (hcx.known _ a ha) (hcon _ hid)
    exact hne (hσ.links a hmem _ hc link halink hlink)

theorem Conflicts.mem_orInsert {con : Conflicts S} {id id' : PackageId S}
    {reason : ConflictReason} :
    id' ∈ con.orInsert id reason ↔ id' = id ∨ id' ∈ con := by
  unfold Conflicts.orInsert
  split
  · rename_i hmem
    constructor
    · exact Or.inr
    · rintro (rfl | h)
      · exact hmem
      · exact h
  · rw [Finmap.mem_insert]

/-- The loop of `next` loses no candidate: it is returned, kept for later, or refused by a
package that is noted. -/
theorem nextLoop_accounts {cx : Context S R} {dep : Dependency S R} {rest : List (Candidate S R)}
    {another : Option (Candidate S R)} {con con' : Conflicts S}
    {out : Option (Candidate S R × Bool)} {rc : RemainingCandidates S R}
    (h : RemainingCandidates.nextLoop cx dep rest another con = (out, rc, con')) :
    (∀ id ∈ con, id ∈ con') ∧ ∀ c, c ∈ rest ∨ another = some c →
      (∃ more, out = some (c, more)) ∨ rc.Has c ∨
        ∃ id reason, refusal cx dep c = some (id, reason) ∧ id ∈ con' := by
  induction rest generalizing another con with
  | nil =>
    cases h
    refine ⟨fun _ hid => hid, ?_⟩
    rintro c (hc | rfl)
    · cases hc
    · exact Or.inl ⟨false, rfl⟩
  | cons b rest ih =>
    rw [RemainingCandidates.nextLoop.eq_def] at h
    simp only at h
    split at h
    · rename_i id reason hrefusal
      obtain ⟨hmono, hall⟩ := ih h
      refine ⟨fun id' hid' => hmono id' (Conflicts.mem_orInsert.mpr (Or.inr hid')), ?_⟩
      rintro c (hc | hc)
      · rcases List.mem_cons.mp hc with rfl | hc
        · exact Or.inr (Or.inr ⟨id, reason, hrefusal,
            hmono id (Conflicts.mem_orInsert.mpr (Or.inl rfl))⟩)
        · exact hall c (Or.inl hc)
      · exact hall c (Or.inr hc)
    · split at h
      -- a valid candidate was found before: `b` is kept for later
      · rename_i r
        cases h
        refine ⟨fun _ hid => hid, ?_⟩
        rintro c (hc | hc)
        · rcases List.mem_cons.mp hc with rfl | hc
          · exact Or.inr (Or.inl (Or.inr rfl))
          · exact Or.inr (Or.inl (Or.inl hc))
        · cases hc
          exact Or.inl ⟨true, rfl⟩
      · obtain ⟨hmono, hall⟩ := ih h
        refine ⟨hmono, ?_⟩
        rintro c (hc | hc)
        · rcases List.mem_cons.mp hc with rfl | hc
          · exact hall c (Or.inr rfl)
          · exact hall c (Or.inl hc)
        · cases hc

theorem Conflicts.mem_extend_left {con other : Conflicts S} {pid id : PackageId S}
    (h : id ∈ con) : id ∈ con.extend other pid :=
  Finmap.mem_union.mpr (Or.inr h)

theorem Conflicts.mem_extend_right {con other : Conflicts S} {pid id : PackageId S}
    (h : id ∈ other) : id = pid ∨ id ∈ con.extend other pid := by
  by_cases hid : id = pid
  · exact Or.inl hid
  · exact Or.inr (Finmap.mem_union.mpr (Or.inl (Finmap.mem_erase.mpr ⟨hid, h⟩)))

end Cargo.Resolver
