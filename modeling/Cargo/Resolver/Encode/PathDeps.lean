import Cargo.Resolver.Encode.RoundTrip

/-!
# The path packages of a workspace

The sources of path packages are not written to lock files. They are found again from the members
of the workspace, the patches and the replacements, through path dependencies. A name stands for one
source only, so that all path packages are found if no two of them share a name.

## Main definitions

* `PathWorkspace.Reach` — the path packages of a workspace
* `PathWorkspace.Consistent` — what is loaded from a source is the package with that source

## Main results

* `buildPathDeps_complete` — the path packages are found by their names, and nothing else is
-/

set_option autoImplicit false

namespace Cargo.Resolver.Encode

open Cargo.Core Cargo.Math

variable {S : Type} {env : LockEnv S} {ws : PathWorkspace S}

/-- A path package that is loaded from a source. -/
def PathWorkspace.Loads (env : LockEnv S) (ws : PathWorkspace S) (id : S) (pkg : PathPackage S) :
    Prop :=
  env.isPath id = true ∧ ws.load id = some pkg

/-- The path packages of a workspace: members, patches, replacements, and their path
dependencies. -/
inductive PathWorkspace.Reach (env : LockEnv S) (ws : PathWorkspace S) : PathPackage S → Prop
  | member {pkg : PathPackage S} : pkg ∈ ws.members → env.isPath pkg.sourceId = true →
      Reach env ws pkg
  | root {id : S} {pkg : PathPackage S} : id ∈ ws.patches ++ ws.replaces → ws.Loads env id pkg →
      Reach env ws pkg
  | dep {pkg dep : PathPackage S} {id : S} : Reach env ws pkg → id ∈ pkg.dependencies →
      ws.Loads env id dep → Reach env ws dep

/-- What is loaded from a source is the package with that source. -/
structure PathWorkspace.Consistent (env : LockEnv S) (ws : PathWorkspace S) : Prop where
  loads : ∀ id pkg, ws.Loads env id pkg → pkg.sourceId = id
  members : ∀ pkg ∈ ws.members, env.isPath pkg.sourceId = true → ws.load pkg.sourceId = some pkg

theorem PathWorkspace.Reach.load (hws : ws.Consistent env) {pkg : PathPackage S}
    (h : ws.Reach env pkg) : ws.Loads env pkg.sourceId pkg := by
  cases h with
  | member hmem hpath => exact ⟨hpath, hws.members pkg hmem hpath⟩
  | root _ hload | dep _ _ hload =>
    rw [hws.loads _ pkg hload]
    exact hload

/-! ### What is visited -/

/-- All path dependencies of the package with this source have been visited. -/
def Closed (env : LockEnv S) (ws : PathWorkspace S) (st : PathDeps S) (s : S) : Prop :=
  ∀ pkg, ws.Loads env s pkg → ∀ id ∈ pkg.dependencies, ∀ dep, ws.Loads env id dep → id ∈ st.visited

/-- What is noted of visited packages. -/
structure Noted (env : LockEnv S) (ws : PathWorkspace S) (st : PathDeps S) : Prop where
  name : ∀ s ∈ st.visited, ∃ pkg, ws.Reach env pkg ∧ pkg.sourceId = s ∧ pkg.name ∈ st.ret
  reach : ∀ name s, st.ret.lookup name = some s →
    ∃ pkg, ws.Reach env pkg ∧ pkg.name = name ∧ pkg.sourceId = s

/-- More has been visited, with all that it depends on. -/
structure Grown (env : LockEnv S) (ws : PathWorkspace S) (st st' : PathDeps S) : Prop where
  subset : st.visited ⊆ st'.visited
  closed : ∀ s ∈ st'.visited, s ∉ st.visited → Closed env ws st' s

theorem Grown.refl (st : PathDeps S) : Grown env ws st st :=
  ⟨Finset.Subset.refl _, fun _ h hnot => absurd h hnot⟩

theorem Closed.mono {st st' : PathDeps S} {s : S} (h : Closed env ws st s)
    (hsub : st.visited ⊆ st'.visited) : Closed env ws st' s :=
  fun pkg hpkg id hid dep hdep => hsub (h pkg hpkg id hid dep hdep)

variable [DecidableEq S]

theorem Grown.trans {st st' st'' : PathDeps S} (h : Grown env ws st st')
    (h' : Grown env ws st' st'') : Grown env ws st st'' where
  subset := h.subset.trans h'.subset
  closed s hs hnot := by
    by_cases hmid : s ∈ st'.visited
    · exact (h.closed s hmid hnot).mono h'.subset
    · exact h'.closed s hs hmid

theorem Noted.visit {st : PathDeps S} (h : Noted env ws st) {pkg : PathPackage S}
    (hpkg : ws.Reach env pkg) : Noted env ws (st.visit pkg) where
  name s hs := by
    rcases Finset.mem_insert.mp hs with rfl | hs
    · exact ⟨pkg, hpkg, rfl, Finmap.mem_insert.mpr (.inl rfl)⟩
    · obtain ⟨other, hother, heq, hmem⟩ := h.name s hs
      exact ⟨other, hother, heq, Finmap.mem_insert.mpr (.inr hmem)⟩
  reach name s hlookup := by
    by_cases hname : name = pkg.name
    · subst hname
      rw [PathDeps.visit, Finmap.lookup_insert] at hlookup
      cases hlookup
      exact ⟨pkg, hpkg, rfl, rfl⟩
    · rw [PathDeps.visit, Finmap.lookup_insert_of_ne _ hname] at hlookup
      exact h.reach name s hlookup

/-- A list of sources has been gone through. -/
structure Went (env : LockEnv S) (ws : PathWorkspace S) (ids : List S) (st st' : PathDeps S) :
    Prop where
  grown : Grown env ws st st'
  noted : Noted env ws st'
  visited : ∀ id ∈ ids, ∀ pkg, ws.Loads env id pkg → id ∈ st'.visited

theorem went_foldlM {f : PathDeps S → S → Except (LockError S) (PathDeps S)} {ids : List S}
    {st st' : PathDeps S} (h : ids.foldlM f st = .ok st') (hnoted : Noted env ws st)
    (hstep : ∀ st id st', id ∈ ids → Noted env ws st → f st id = .ok st' →
      Went env ws [id] st st') : Went env ws ids st st' := by
  refine foldlM_ok_induction (P := fun pre st' => Went env ws pre st st') h
    ⟨.refl st, hnoted, by simp⟩ ?_
  rintro pre id post mid st' hsplit hpre hid
  have hone := hstep mid id st' (by simp [hsplit]) hpre.noted hid
  refine ⟨hpre.grown.trans hone.grown, hone.noted, ?_⟩
  intro a ha pkg hpkg
  rcases List.mem_append.mp ha with ha | ha
  · exact hone.grown.subset (hpre.visited a ha pkg hpkg)
  · exact hone.visited a ha pkg hpkg

/-- A path dependency is visited with all that it depends on. -/
theorem went_buildDep (hws : ws.Consistent env) {fuel : ℕ} {st st' : PathDeps S} {id : S}
    (h : buildDep env ws fuel st id = .ok st') (hnoted : Noted env ws st)
    (hreach : ∀ pkg, ws.Loads env id pkg → ws.Reach env pkg) : Went env ws [id] st st' := by
  induction fuel generalizing st st' id with
  | zero => cases h
  | succ fuel ih =>
    rw [buildDep] at h
    split_ifs at h with hdone
    -- visited before, or not from a path
    · cases h
      refine ⟨.refl st, hnoted, ?_⟩
      intro a ha pkg hpkg
      rw [List.mem_singleton.mp ha] at hpkg ⊢
      refine hdone.resolve_right ?_
      rw [hpkg.1]
      simp
    · push Not at hdone
      cases hload : ws.load id with
      | none =>
        rw [hload] at h
        cases h
        refine ⟨.refl st, hnoted, ?_⟩
        intro a ha pkg hpkg
        rw [List.mem_singleton.mp ha, PathWorkspace.Loads, hload] at hpkg
        cases hpkg.2
      | some pkg =>
        simp only [hload] at h
        have hpath : env.isPath id = true := by simpa using hdone.2
        have hpkg : ws.Reach env pkg := hreach pkg ⟨hpath, hload⟩
        have hid : pkg.sourceId = id := hws.loads id pkg ⟨hpath, hload⟩
        have hdeps := went_foldlM h (hnoted.visit hpkg) fun st dep st' hdep hst hcall =>
          ih hcall hst fun other hother => .dep hpkg hdep hother
        have hvisit : id ∈ (st.visit pkg).visited := by
          rw [PathDeps.visit, hid]
          exact Finset.mem_insert_self id _
        refine ⟨⟨(Finset.subset_insert _ _).trans hdeps.grown.subset, ?_⟩, hdeps.noted, ?_⟩
        · intro s hs hnot
          by_cases hmid : s ∈ (st.visit pkg).visited
          · -- the package itself: its dependencies have been gone through
            have hself : s = id := by
              rw [PathDeps.visit, hid] at hmid
              exact (Finset.mem_insert.mp hmid).resolve_right hnot
            intro pkg' hpkg' dep hdep other hother
            rw [hself, PathWorkspace.Loads, hload] at hpkg'
            obtain ⟨-, heq⟩ := hpkg'
            cases heq
            exact hdeps.visited dep hdep other hother
          · exact hdeps.grown.closed s hs hmid
        · intro a ha other _
          rw [List.mem_singleton.mp ha]
          exact hdeps.grown.subset hvisit

/-! ### What is found -/

/-- The members are noted first. -/
theorem visit_members {members : List (PathPackage S)}
    (hmembers : ∀ pkg ∈ members, ws.Reach env pkg) {st : PathDeps S} (h : Noted env ws st) :
    Noted env ws (members.foldl PathDeps.visit st) ∧ ∀ s,
      s ∈ (members.foldl PathDeps.visit st).visited ↔
        s ∈ st.visited ∨ ∃ pkg ∈ members, s = pkg.sourceId := by
  constructor
  · induction members generalizing st with
    | nil => exact h
    | cons pkg members ih =>
      exact ih (fun other hother => hmembers other (List.mem_cons_of_mem pkg hother))
        (h.visit (hmembers pkg List.mem_cons_self))
  · intro s
    refine foldl_iff (P := fun st : PathDeps S => s ∈ st.visited) ?_
    intro st pkg
    rw [PathDeps.visit, Finset.mem_insert, or_comm]

/-- All path packages have been visited, and all that is noted belongs to one of them. -/
theorem buildPathDeps_noted (hws : ws.Consistent env) {fuel : ℕ} {ret : Finmap fun _ : String => S}
    (h : buildPathDeps env ws fuel = .ok ret) : ∃ st : PathDeps S, st.ret = ret ∧
      Noted env ws st ∧ ∀ pkg, ws.Reach env pkg → pkg.sourceId ∈ st.visited := by
  obtain ⟨st₁, hmembers, h⟩ := bind_eq_ok.mp h
  obtain ⟨st₂, hpatches, h⟩ := bind_eq_ok.mp h
  obtain ⟨st₃, hreplaces, h⟩ := bind_eq_ok.mp h
  cases h
  set members := ws.members.filter fun p => env.isPath p.sourceId with hfilter
  have hreach : ∀ pkg ∈ members, ws.Reach env pkg := by
    intro pkg hpkg
    obtain ⟨hmem, hpath⟩ := List.mem_filter.mp hpkg
    exact .member hmem hpath
  obtain ⟨hnoted₀, hvisited₀⟩ := visit_members hreach
    (⟨by simp, by simp⟩ : Noted env ws (⟨∅, ∅⟩ : PathDeps S))
  set st₀ := members.foldl PathDeps.visit (⟨∅, ∅⟩ : PathDeps S) with hst₀
  -- the dependencies of the members
  have hloop : Noted env ws st₁ ∧ Grown env ws st₀ st₁ ∧
      ∀ pkg ∈ members, ∀ id ∈ pkg.dependencies, ∀ dep, ws.Loads env id dep → id ∈ st₁.visited := by
    refine foldlM_ok_induction (P := fun pre (st : PathDeps S) => Noted env ws st ∧
      Grown env ws st₀ st ∧ ∀ pkg ∈ pre, ∀ id ∈ pkg.dependencies, ∀ dep, ws.Loads env id dep →
        id ∈ st.visited) hmembers ⟨hnoted₀, .refl _, by simp⟩ ?_
    rintro pre pkg post st st' hsplit ⟨hnoted, hgrown, hpre⟩ hstep
    have hpkg := hreach pkg (by simp [hsplit])
    have hwent := went_foldlM hstep hnoted fun st dep st' hdep hst hcall =>
      went_buildDep hws hcall hst fun other hother => .dep hpkg hdep hother
    refine ⟨hwent.noted, hgrown.trans hwent.grown, ?_⟩
    intro other hother id hid dep hdep
    rcases List.mem_append.mp hother with hother | hother
    · exact hwent.grown.subset (hpre other hother id hid dep hdep)
    · rw [List.mem_singleton.mp hother] at hid
      exact hwent.visited id hid dep hdep
  obtain ⟨hnoted₁, hgrown₁, hdeps₁⟩ := hloop
  have hpatches' := went_foldlM hpatches hnoted₁ fun st id st' hid hst hcall =>
    went_buildDep hws hcall hst fun pkg hpkg => .root (List.mem_append_left _ hid) hpkg
  have hreplaces' := went_foldlM hreplaces hpatches'.noted fun st id st' hid hst hcall =>
    went_buildDep hws hcall hst fun pkg hpkg => .root (List.mem_append_right _ hid) hpkg
  have hgrown : Grown env ws st₁ st₃ := hpatches'.grown.trans hreplaces'.grown
  have hall := hgrown₁.trans hgrown
  have hclosed : ∀ s ∈ st₃.visited, Closed env ws st₃ s := by
    intro s hs
    by_cases hold : s ∈ st₀.visited
    · obtain ⟨pkg, hpkg, rfl⟩ := ((hvisited₀ s).mp hold).resolve_left (by simp)
      intro pkg' hpkg'
      obtain ⟨-, heq⟩ := (hreach pkg hpkg).load hws
      obtain rfl := Option.some.inj (heq.symm.trans hpkg'.2)
      exact fun id hid dep hdep => hgrown.subset (hdeps₁ pkg hpkg id hid dep hdep)
    · exact hall.closed s hs hold
  refine ⟨st₃, rfl, hreplaces'.noted, fun pkg hpkg => ?_⟩
  induction hpkg with
  | @member pkg hmem hpath =>
    exact hall.subset ((hvisited₀ _).mpr (.inr ⟨pkg, List.mem_filter.mpr ⟨hmem, hpath⟩, rfl⟩))
  | @root id pkg hid hload =>
    rw [hws.loads id pkg hload]
    rcases List.mem_append.mp hid with hid | hid
    · exact hreplaces'.grown.subset (hpatches'.visited id hid pkg hload)
    · exact hreplaces'.visited id hid pkg hload
  | @dep pkg dep id hpkg hid hload ih =>
    rw [hws.loads id dep hload]
    exact hclosed _ ih pkg (hpkg.load hws) id hid dep hload

/-- If no two path packages share a name, then every one is found by its name. -/
theorem buildPathDeps_lookup (hws : ws.Consistent env)
    (hnames : ∀ p q, ws.Reach env p → ws.Reach env q → p.name = q.name → p.sourceId = q.sourceId)
    {fuel : ℕ} {ret : Finmap fun _ : String => S} (h : buildPathDeps env ws fuel = .ok ret)
    {pkg : PathPackage S} (hpkg : ws.Reach env pkg) : ret.lookup pkg.name = some pkg.sourceId := by
  obtain ⟨st, rfl, hnoted, hvisited⟩ := buildPathDeps_noted hws h
  obtain ⟨other, hother, hsource, hname⟩ := hnoted.name _ (hvisited pkg hpkg)
  have hload := hpkg.load hws
  have hload' := hother.load hws
  rw [hsource] at hload'
  obtain rfl := Option.some.inj (hload.2.symm.trans hload'.2)
  obtain ⟨s, hs⟩ := Finmap.mem_iff.mp hname
  obtain ⟨found, hfound, hname', rfl⟩ := hnoted.reach _ s hs
  rw [hs, hnames found pkg hfound hpkg hname']

/-! ### The search ends -/

/-- If there is room among the sources, then the search of a path dependency ends. -/
theorem buildDep_ok (hws : ws.Consistent env) {sources : Finset S}
    (hsources : ∀ pkg, ws.Reach env pkg → pkg.sourceId ∈ sources) {fuel : ℕ} {st : PathDeps S}
    {id : S} (hreach : ∀ pkg, ws.Loads env id pkg → ws.Reach env pkg)
    (hfuel : (sources \ st.visited).card < fuel) :
    ∃ st', buildDep env ws fuel st id = .ok st' ∧ st.visited ⊆ st'.visited := by
  induction fuel generalizing st id with
  | zero => simp at hfuel
  | succ fuel ih =>
    rw [buildDep]
    split_ifs with hdone
    · exact ⟨st, rfl, Finset.Subset.refl _⟩
    · push Not at hdone
      cases hload : ws.load id with
      | none => exact ⟨st, rfl, Finset.Subset.refl _⟩
      | some pkg =>
        have hloads : ws.Loads env id pkg := ⟨by simpa using hdone.2, hload⟩
        have hpkg := hreach pkg hloads
        have hid := hws.loads id pkg hloads
        -- the package uses up room
        have hless : (sources \ (st.visit pkg).visited).card < (sources \ st.visited).card := by
          refine Finset.card_lt_card ⟨Finset.sdiff_subset_sdiff (Finset.Subset.refl _)
            (Finset.subset_insert _ _), fun hsub => ?_⟩
          have hmem := hsub (Finset.mem_sdiff.mpr ⟨hid ▸ hsources pkg hpkg, hdone.1⟩)
          rw [PathDeps.visit, hid] at hmem
          exact (Finset.mem_sdiff.mp hmem).2 (Finset.mem_insert_self id _)
        have hloop : ∃ st',
            pkg.dependencies.foldlM (buildDep env ws fuel) (st.visit pkg) = .ok st' ∧
            (st.visit pkg).visited ⊆ st'.visited := by
          refine exists_foldlM_ok (P := fun _ (st' : PathDeps S) =>
            (st.visit pkg).visited ⊆ st'.visited) (Finset.Subset.refl _) ?_
          intro pre dep post mid hsplit hmid
          have hroom := Finset.card_le_card
            (Finset.sdiff_subset_sdiff (Finset.Subset.refl sources) hmid)
          have hdep : ∀ other, ws.Loads env dep other → ws.Reach env other :=
            fun other hother => .dep hpkg (by simp [hsplit]) hother
          obtain ⟨st', hst', hsub⟩ :=
            ih hdep (hroom.trans_lt (hless.trans_le (Nat.lt_succ_iff.mp hfuel)))
          exact ⟨st', hst', hmid.trans hsub⟩
        obtain ⟨st', hst', hsub⟩ := hloop
        exact ⟨st', hst', (Finset.subset_insert _ _).trans hsub⟩

/-- If there are finitely many path packages, then the search for them ends. -/
theorem buildPathDeps_ok (hws : ws.Consistent env) {sources : Finset S}
    (hsources : ∀ pkg, ws.Reach env pkg → pkg.sourceId ∈ sources) {fuel : ℕ}
    (hfuel : sources.card < fuel) : ∃ ret, buildPathDeps env ws fuel = .ok ret := by
  have hloop : ∀ (ids : List S) (st : PathDeps S),
      (∀ id ∈ ids, ∀ pkg, ws.Loads env id pkg → ws.Reach env pkg) →
      ∃ st', ids.foldlM (buildDep env ws fuel) st = .ok st' ∧ True := by
    intro ids st hids
    refine exists_foldlM_ok (P := fun _ _ => True) trivial ?_
    intro pre id post st hsplit _
    have hroom : (sources \ st.visited).card < fuel :=
      (Finset.card_le_card Finset.sdiff_subset).trans_lt hfuel
    obtain ⟨st', hst', -⟩ := buildDep_ok hws hsources (hids id (by simp [hsplit])) hroom
    exact ⟨st', hst', trivial⟩
  have hmembers : ∃ st, (ws.members.filter fun p => env.isPath p.sourceId).foldlM
      (buildPkg env ws fuel) ((ws.members.filter fun p => env.isPath p.sourceId).foldl
        PathDeps.visit ⟨∅, ∅⟩) = .ok st ∧ True := by
    refine exists_foldlM_ok (P := fun _ _ => True) trivial ?_
    intro pre pkg post st hsplit _
    have hmem : pkg ∈ ws.members.filter fun p => env.isPath p.sourceId := by simp [hsplit]
    obtain ⟨hmem, hpath⟩ := List.mem_filter.mp hmem
    exact hloop pkg.dependencies st fun id hid dep hdep => .dep (.member hmem hpath) hid hdep
  obtain ⟨st₁, hst₁, -⟩ := hmembers
  obtain ⟨st₂, hst₂, -⟩ := hloop ws.patches st₁ fun id hid pkg hpkg =>
    .root (List.mem_append_left _ hid) hpkg
  obtain ⟨st₃, hst₃, -⟩ := hloop ws.replaces st₂ fun id hid pkg hpkg =>
    .root (List.mem_append_right _ hid) hpkg
  exact ⟨st₃.ret, bind_eq_ok.mpr ⟨st₁, hst₁, bind_eq_ok.mpr ⟨st₂, hst₂, bind_eq_ok.mpr
    ⟨st₃, hst₃, rfl⟩⟩⟩⟩

/-- If there are finitely many path packages and no two of them share a name, then the search for
them ends, and it finds them and nothing else. -/
theorem buildPathDeps_complete (hws : ws.Consistent env)
    (hnames : ∀ p q, ws.Reach env p → ws.Reach env q → p.name = q.name → p.sourceId = q.sourceId)
    {sources : Finset S} (hsources : ∀ pkg, ws.Reach env pkg → pkg.sourceId ∈ sources) {fuel : ℕ}
    (hfuel : sources.card < fuel) :
    ∃ ret, buildPathDeps env ws fuel = .ok ret ∧ ∀ name s, ret.lookup name = some s ↔
      ∃ pkg, ws.Reach env pkg ∧ pkg.name = name ∧ pkg.sourceId = s := by
  obtain ⟨ret, hret⟩ := buildPathDeps_ok hws hsources hfuel
  refine ⟨ret, hret, fun name s => ⟨fun hlookup => ?_, ?_⟩⟩
  · obtain ⟨st, rfl, hnoted, -⟩ := buildPathDeps_noted hws hret
    exact hnoted.reach name s hlookup
  · rintro ⟨pkg, hpkg, rfl, rfl⟩
    exact buildPathDeps_lookup hws hnames hret hpkg

end Cargo.Resolver.Encode
