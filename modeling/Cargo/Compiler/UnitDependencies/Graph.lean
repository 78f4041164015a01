import Cargo.Compiler.UnitDependencies.Deps

/-!
# The table of the units

There are finitely many units that can be come by, so the exploration ends, whatever the graph of
the packages looks like. While a package is missing the table is incomplete. It is thrown away
then, and each time at least one more package is at hand, so that the table that is kept is the one
that would have been made with everything at hand from the start.

## Main definitions

* `Visited` — the items that can be come by
* `Built` — what the table is to be
* `Network.Reliable` — no download fails

## Main results

* `finite_visited` — there are finitely many units
* `passes_eq` — the table does not depend on the downloads
* `lookup_connect` — what the runs of build scripts get
* `buildUnitDependencies_unique` — there is one graph, it is closed and is reached from the roots
-/

set_option autoImplicit false

namespace Cargo.Compiler.UnitDependencies

open Relation
open Cargo.Core hiding Kind
open Cargo.Math Cargo.Resolver Cargo.Util
open Cargo.Compiler.CustomBuild (Kind)

variable {crate : UrlCrate} {R : Type} {bcx : BuildContext crate R}
  {ho : HashOrder (PackageId (SourceId crate))} {roots : List (Unit crate)}
  {packages : List (PackageId (SourceId crate))}

/-- The items that can be come by: the roots, and dependencies of others. -/
inductive Visited (bcx : BuildContext crate R) (roots : List (Unit crate)) : Item crate → Prop
  | root {u : Unit crate} : u ∈ roots → Visited bcx roots (u, rootUnitFor bcx u)
  | dep {item d : Item crate} : Visited bcx roots item → Dep bcx item d → Visited bcx roots d

/-- The dependencies that a table may have for a unit. -/
def Entry (bcx : BuildContext crate R) (ho : HashOrder (PackageId (SourceId crate)))
    (roots : List (Unit crate)) (unit : Unit crate) (deps : List (Unit crate)) : Prop :=
  ∃ unitFor next, Visited bcx roots (unit, unitFor) ∧ plainDeps bcx ho (unit, unitFor) = .ok next ∧
    deps = next.map Prod.fst

/-- The table has the roots, is closed and reached from them, and has the right entries. -/
structure Built (bcx : BuildContext crate R) (ho : HashOrder (PackageId (SourceId crate)))
    (roots : List (Unit crate)) (t : SuccTable (Unit crate)) : Prop where
  entered : ∀ u ∈ roots, u ∈ t
  ofNothing : Extends (Entry bcx ho roots) (· ∈ roots) ∅ t

/-! ### Finitely many units -/

/-- All modes. -/
def allModes : List CompileMode :=
  [.test, .build, .check true, .check false, .bench, .doc true, .doc false, .doctest,
    .runCustomBuild]

theorem mem_allModes (mode : CompileMode) : mode ∈ allModes := by
  cases mode with
  | check b | doc b => cases b <;> simp [allModes]
  | _ => simp [allModes]

/-- The profiles that units can have. -/
def possibleProfiles (bcx : BuildContext crate R) (roots : List (Unit crate))
    (packages : List (PackageId (SourceId crate))) : List Profile :=
  roots.map Unit.profile ++ packages.flatMap fun pkg =>
    [(true, true), (true, false), (false, true), (false, false)].flatMap fun (b, p) =>
      allModes.filterMap fun mode =>
        match bcx.profiles.getProfile pkg (bcx.isMember pkg) ⟨b, p⟩ mode bcx.release with
        | .ok profile => some profile.comparable
        | .error _ => none

/-- The units that can be come by. -/
def possibleUnits (bcx : BuildContext crate R) (roots : List (Unit crate))
    (packages : List (PackageId (SourceId crate))) : Finset (Unit crate) :=
  (packages.flatMap fun pkg =>
    ((bcx.package pkg).targets ++ roots.map Unit.target).flatMap fun target =>
      (possibleProfiles bcx roots packages ++
        (possibleProfiles bcx roots packages).map Profiles.getProfileRunCustomBuild).flatMap
        fun profile =>
        [Kind.host, Kind.target].flatMap fun kind =>
          allModes.map fun mode => ⟨pkg, target, profile, kind, mode⟩).toFinset

theorem mem_possibleUnits {u : Unit crate} : u ∈ possibleUnits bcx roots packages ↔
    u.pkg ∈ packages ∧ (u.target ∈ (bcx.package u.pkg).targets ∨ u.target ∈ roots.map Unit.target) ∧
      (u.profile ∈ possibleProfiles bcx roots packages ∨
        ∃ profile ∈ possibleProfiles bcx roots packages,
          Profiles.getProfileRunCustomBuild profile = u.profile) := by
  obtain ⟨pkg, target, profile, kind, mode⟩ := u
  simp only [possibleUnits, List.mem_toFinset, List.mem_flatMap, List.mem_map, List.mem_append,
    Unit.mk.injEq]
  constructor
  · rintro ⟨pkg', hpkg, target', htarget, profile', hprofile, kind', -, mode', -, rfl, rfl, rfl,
      rfl, rfl⟩
    exact ⟨hpkg, htarget, hprofile⟩
  · rintro ⟨hpkg, htarget, hprofile⟩
    refine ⟨pkg, hpkg, target, htarget, profile, hprofile, kind, ?_, mode, mem_allModes mode, rfl,
      rfl, rfl, rfl, rfl⟩
    cases kind <;> simp

theorem profile_of_newUnit {pkg : PackageId (SourceId crate)} {target : Target}
    {unitFor : UnitFor} {kind : Kind} {mode : CompileMode} {d : Unit crate}
    (h : newUnit bcx pkg target unitFor kind mode = .ok d) (hpkg : pkg ∈ packages) :
    d.profile ∈ possibleProfiles bcx roots packages := by
  obtain ⟨profile, hprofile, rfl⟩ := newUnit_eq_ok.mp h
  rw [possibleProfiles, List.mem_append]
  refine .inr (List.mem_flatMap.mpr ⟨pkg, hpkg, List.mem_flatMap.mpr
    ⟨(unitFor.customBuild, unitFor.panicOk), ?_, ?_⟩⟩)
  · rcases unitFor with ⟨_ | _, _ | _⟩ <;> simp
  · refine List.mem_filterMap.mpr ⟨mode, mem_allModes mode, ?_⟩
    simp only [hprofile]

theorem Complete.mem_of_listed (h : Complete bcx roots packages)
    {p : Dependency (SourceId crate) R → Bool} {pkg id : PackageId (SourceId crate)}
    (hpkg : pkg ∈ packages) (hlisted : Listed bcx p pkg id) : id ∈ packages := by
  obtain ⟨listed, hleads, -⟩ := hlisted
  exact (h.leadsTo pkg hpkg id listed hleads).1

theorem mem_of_libOf {id : PackageId (SourceId crate)} {lib : Target}
    (h : libOf bcx id = some lib) : lib ∈ (bcx.package id).targets ∧ lib.isLib = true :=
  ⟨List.mem_of_find?_eq_some h, List.find?_some h⟩

/-- A unit that is made is possible. -/
theorem mem_possibleUnits_of_newUnit {pkg : PackageId (SourceId crate)} {target : Target}
    {unitFor : UnitFor} {kind : Kind} {mode : CompileMode} {d : Unit crate}
    (h : newUnit bcx pkg target unitFor kind mode = .ok d) (hpkg : pkg ∈ packages)
    (htarget : target ∈ (bcx.package pkg).targets ∨ target ∈ roots.map Unit.target) :
    d ∈ possibleUnits bcx roots packages := by
  rw [mem_possibleUnits]
  have hprofile : d.profile ∈ possibleProfiles bcx roots packages := profile_of_newUnit h hpkg
  obtain ⟨profile, -, rfl⟩ := newUnit_eq_ok.mp h
  exact ⟨hpkg, htarget, .inl hprofile⟩

theorem depBuildScript_eq_some {u d : Unit crate} : depBuildScript bcx u = some d ↔
    ∃ t, (bcx.package u.pkg).targets.find? Target.isCustomBuild = some t ∧
      d = ⟨u.pkg, t, Profiles.getProfileRunCustomBuild u.profile, u.kind, .runCustomBuild⟩ := by
  unfold depBuildScript
  rw [Option.map_eq_some_iff]
  exact exists_congr fun t => and_congr_right fun _ => eq_comm

/-- There are finitely many units that can be come by. -/
theorem finite_visited (h : Complete bcx roots packages) {item : Item crate}
    (hitem : Visited bcx roots item) : item.1 ∈ possibleUnits bcx roots packages := by
  induction hitem with
  | @root u hu =>
    refine mem_possibleUnits.mpr ⟨h.roots u hu, .inr (List.mem_map_of_mem hu), .inl ?_⟩
    rw [possibleProfiles, List.mem_append]
    exact .inl (List.mem_map_of_mem hu)
  | dep _ hdep ih =>
    have hpkg := (mem_possibleUnits.mp ih).1
    cases hdep with
    | script _ hd => exact mem_possibleUnits_of_newUnit hd hpkg (mem_possibleUnits.mp ih).2.1
    | run _ _ hd =>
      obtain ⟨t, ht, rfl⟩ := depBuildScript_eq_some.mp hd
      refine mem_possibleUnits.mpr ⟨hpkg, .inl (List.mem_of_find?_eq_some ht), .inr ?_⟩
      rcases (mem_possibleUnits.mp ih).2.2 with hprofile | ⟨profile, hprofile, heq⟩
      · exact ⟨_, hprofile, rfl⟩
      · exact ⟨profile, hprofile, by rw [← heq]; rfl⟩
    | lib _ _ hlisted hlib hd =>
      exact mem_possibleUnits_of_newUnit hd (h.mem_of_listed hpkg hlisted)
        (.inl (mem_of_libOf hlib).1)
    | doc _ hlisted hlib _ hd =>
      exact mem_possibleUnits_of_newUnit hd (h.mem_of_listed hpkg hlisted)
        (.inl (mem_of_libOf hlib).1)
    | own _ _ hlib hd =>
      exact mem_possibleUnits_of_newUnit hd hpkg (.inl (List.mem_of_find?_eq_some hlib))
    | bin _ _ hbin _ _ hd => exact mem_possibleUnits_of_newUnit hd hpkg (.inl hbin)

theorem Complete.pkg_mem (h : Complete bcx roots packages) {item : Item crate}
    (hitem : Visited bcx roots item) : item.1.pkg ∈ packages :=
  (mem_possibleUnits.mp (finite_visited h hitem)).1

/-! ### With everything at hand -/

/-- The dependencies, with no state that could change. -/
def plainStep (bcx : BuildContext crate R) (ho : HashOrder (PackageId (SourceId crate)))
    (item : Item crate) (r : PUnit.{1}) : Except (Error crate) (List (Item crate) × PUnit.{1}) :=
  (plainDeps bcx ho item).map fun next => (next, r)

/-- The exploration of a graph that is at hand. -/
def lowerFrom (bcx : BuildContext crate R) (ho : HashOrder (PackageId (SourceId crate)))
    (fuel : ℕ) : Item crate → Explored PUnit.{1} (Unit crate) →
      Except (Error crate) (Explored PUnit.{1} (Unit crate)) :=
  explore Prod.fst (plainStep bcx ho) .depth fuel

/-- The exploration from all roots. -/
def lower (bcx : BuildContext crate R) (ho : HashOrder (PackageId (SourceId crate))) (fuel : ℕ)
    (roots : List (Unit crate)) : Except (Error crate) (Explored PUnit.{1} (Unit crate)) :=
  roots.foldlM (fun s unit => lowerFrom bcx ho fuel (unit, rootUnitFor bcx unit) s) ⟨⟨⟩, ∅⟩

theorem plainStep_eq_ok {item : Item crate} {next : List (Item crate)} {r r' : PUnit.{1}} :
    plainStep bcx ho item r = .ok (next, r') ↔ plainDeps bcx ho item = .ok next := by
  rw [plainStep, map_eq_ok]
  simp

theorem keeps_plain : Keeps Prod.fst (plainStep bcx ho) (Visited bcx roots) (fun _ => True)
    (Entry bcx ho roots) where
  items _ _ _ _ hitem _ h _ hd := .dep hitem (dep_of_mem (plainStep_eq_ok.mp h) hd)
  state _ _ _ _ _ _ _ := trivial
  entry item _ next _ hitem _ h := ⟨item.2, next, hitem, plainStep_eq_ok.mp h, rfl⟩

/-- What the exploration makes is what the table is to be. -/
theorem built_of_lower {fuel : ℕ} {s : Explored PUnit.{1} (Unit crate)}
    (h : lower bcx ho fuel roots = .ok s) : Built bcx ho roots s.table := by
  suffices hloop : (∀ u ∈ roots, u ∈ s.table) ∧
      Extends (Entry bcx ho roots) (· ∈ roots) ∅ s.table from ⟨hloop.1, hloop.2⟩
  refine foldlM_ok_induction (P := fun pre (t : Explored PUnit.{1} (Unit crate)) =>
    (∀ u ∈ pre, u ∈ t.table) ∧ Extends (Entry bcx ho roots) (· ∈ roots) ∅ t.table) h
    ⟨by simp, .refl⟩ ?_
  rintro pre u post t t' hsplit ⟨hpre, hext⟩ hstep
  have hu : u ∈ roots := by simp [hsplit]
  obtain ⟨-, hkey, hext'⟩ := explore_spec keeps_plain (.root hu) trivial hstep
  refine ⟨?_, hext.trans (hext'.mono ?_)⟩
  · intro v hv
    rcases List.mem_append.mp hv with hv | hv
    · exact hext'.mem (hpre v hv)
    · rw [List.mem_singleton] at hv
      exact hv ▸ hkey
  · rintro k rfl
    exact hu

/-- With fuel for all units that can be come by, the exploration ends. -/
theorem lower_ok (h : Complete bcx roots packages)
    (ho : HashOrder (PackageId (SourceId crate))) {fuel : ℕ}
    (hfuel : (possibleUnits bcx roots packages).card < fuel) :
    ∃ s, lower bcx ho fuel roots = .ok s := by
  have hfails : FailsAs (fun _ => False) (lower bcx ho fuel roots) := by
    intro e
    refine foldlM_ne_error (P := fun _ _ => True) trivial ?_
    intro pre u post s hsplit _
    refine ⟨?_, fun _ _ => trivial⟩
    intro hfail
    refine explore_failsAs (Q := fun _ => False) keeps_plain ?_
      (fun item (hitem : Visited bcx roots item) => finite_visited h hitem)
      (.root (by simp [hsplit])) trivial ?_ e hfail
    · intro item r hitem _
      have hplain : ∃ next, plainDeps bcx ho item = .ok next := h.plainDeps_ok (h.pkg_mem hitem)
      obtain ⟨next, hnext⟩ := hplain
      rw [plainStep, hnext]
      exact failsAs_ok _
    · exact (Finset.card_le_card Finset.sdiff_subset).trans_lt hfuel
  cases hres : lower bcx ho fuel roots with
  | error e => exact (hfails e hres).elim
  | ok s => exact ⟨s, rfl⟩

/-! ### With downloads -/

/-- Nothing is waited for. -/
def Fetch.Full (f : Fetch crate) : Prop := f.waitingOnDownload = ∅

theorem get_isPlain {net : Network crate} (id : PackageId (SourceId crate)) :
    IsPlain Fetch.Full (Fetch.get net id) (present id) := by
  intro f found f' h hfull
  have hcases : found = true ∧ f'.waitingOnDownload = f.waitingOnDownload ∨
      f'.waitingOnDownload.Nonempty := by
    simp only [StateT.run, Fetch.get] at h
    split_ifs at h with hpkgs hwaiting
    · cases h
      exact .inl ⟨rfl, rfl⟩
    · cases h
      exact .inr ⟨id, hwaiting⟩
    · obtain ⟨b, -, h⟩ := bind_eq_ok.mp h
      cases b with
      | true =>
        cases h
        exact .inl ⟨rfl, rfl⟩
      | false =>
        cases h
        exact .inr ⟨id, Finset.mem_insert_self _ _⟩
  unfold Fetch.Full at hfull ⊢
  rcases hcases with ⟨rfl, heq⟩ | hne
  · exact ⟨heq.symm.trans hfull, rfl⟩
  · rw [hfull] at hne
    exact absurd hne Finset.not_nonempty_empty

/-- A pass that leaves nothing to wait for makes the table that is made with everything at hand. -/
theorem pass_eq_lower {net : Network crate} {fuel : ℕ} {f : Fetch crate}
    {s : Explored (Fetch crate) (Unit crate)} (h : pass bcx net ho fuel roots f = .ok s)
    (hfull : s.rest.Full) : lower bcx ho fuel roots = .ok ⟨⟨⟩, s.table⟩ := by
  suffices hgen : ∀ (us : List (Unit crate)) (t : Explored (Fetch crate) (Unit crate)),
      us.foldlM (passFrom bcx net ho fuel) t = .ok s →
      us.foldlM (fun s unit => lowerFrom bcx ho fuel (unit, rootUnitFor bcx unit) s)
        ⟨⟨⟩, t.table⟩ = .ok ⟨⟨⟩, s.table⟩ ∧ t.rest.Full from (hgen roots _ h).1
  have hsucc : ∀ item f next f', (computeDeps bcx (Fetch.get net) ho item).run f = .ok (next, f') →
      f'.Full → f.Full ∧ ∀ r : PUnit.{1}, True →
        ∃ r', plainStep bcx ho item r = .ok (next, r') ∧ True := by
    intro item f next f' hcompute hfull
    obtain ⟨hfull', hnext⟩ := computeDeps_isPlain get_isPlain item f next f' hcompute hfull
    exact ⟨hfull', fun r _ => ⟨r, plainStep_eq_ok.mpr hnext, trivial⟩⟩
  intro us
  induction us with
  | nil =>
    intro t ht
    cases ht
    exact ⟨rfl, hfull⟩
  | cons u us ih =>
    intro t ht
    rw [List.foldlM_cons] at ht
    obtain ⟨t', hstep, hrest⟩ := bind_eq_ok.mp ht
    obtain ⟨⟨found, f'⟩, hget, hexplore⟩ := bind_eq_ok.mp hstep
    obtain ⟨hplain, hfull'⟩ := ih t' hrest
    obtain ⟨hfull'', hsim⟩ := explore_sim hsucc hexplore hfull'
    obtain ⟨r, hr, -⟩ := hsim ⟨⟩ trivial
    refine ⟨?_, (get_isPlain u.pkg _ _ _ hget hfull'').1⟩
    rw [List.foldlM_cons]
    exact bind_eq_ok.mpr ⟨_, hr, hplain⟩

/-- Nothing goes wrong when a package is asked for or waited for. -/
structure Network.Reliable (net : Network crate) : Prop where
  start : ∀ id, ∃ found, net.start id = .ok found
  wait : ∀ n (pending : Finset (PackageId (SourceId crate))), pending.Nonempty →
    ∃ id, net.wait n pending = .ok id

/-- The packages that are waited for are those whose downloads remain. -/
structure Fetch.Inv (packages : List (PackageId (SourceId crate))) (f : Fetch crate) : Prop where
  remaining : f.remaining = f.waitingOnDownload
  apart : Disjoint f.pkgs f.waitingOnDownload
  needed : ∀ id ∈ f.waitingOnDownload, id ∈ packages

theorem get_refines {net : Network crate} (hnet : net.Reliable)
    {base : Finset (PackageId (SourceId crate))} {id : PackageId (SourceId crate)}
    (hid : id ∈ packages) :
    Refines (fun f => f.Inv packages ∧ base ⊆ f.pkgs) (fun _ _ => True) (Fetch.get net id)
      (present id) := by
  rintro f _ ⟨hf, hbase⟩ -
  simp only [StateT.run, Fetch.get]
  split_ifs with hpkgs hwaiting
  · exact ⟨true, f, rfl, ⟨hf, hbase⟩, trivial⟩
  · exact ⟨false, f, rfl, ⟨hf, hbase⟩, trivial⟩
  · obtain ⟨found, hfound⟩ := hnet.start id
    rw [hfound]
    cases found with
    | true =>
      refine ⟨true, _, rfl, ⟨⟨hf.remaining, ?_, hf.needed⟩, ?_⟩, trivial⟩
      · exact Finset.disjoint_insert_left.mpr ⟨hwaiting, hf.apart⟩
      · exact hbase.trans (Finset.subset_insert id f.pkgs)
    | false =>
      refine ⟨false, _, rfl, ⟨⟨?_, ?_, ?_⟩, hbase⟩, trivial⟩
      · exact congrArg (insert id) hf.remaining
      · exact Finset.disjoint_insert_right.mpr ⟨hpkgs, hf.apart⟩
      · intro other hother
        rcases Finset.mem_insert.mp hother with rfl | hother
        · exact hid
        · exact hf.needed other hother

/-- A pass comes to an end, and nothing is lost. -/
theorem pass_ok (h : Complete bcx roots packages) {net : Network crate} (hnet : net.Reliable)
    (ho : HashOrder (PackageId (SourceId crate))) {fuel : ℕ}
    (hfuel : (possibleUnits bcx roots packages).card < fuel) {f : Fetch crate}
    (hf : f.Inv packages) : ∃ s, pass bcx net ho fuel roots f = .ok s ∧ s.rest.Inv packages ∧
      f.pkgs ⊆ s.rest.pkgs := by
  have hkeeps : Keeps Prod.fst (fun item f => (computeDeps bcx (Fetch.get net) ho item).run f)
      (Visited bcx roots) (fun g => g.Inv packages ∧ f.pkgs ⊆ g.pkgs) (fun _ _ => True) ∧
      ∀ item g, Visited bcx roots item → g.Inv packages ∧ f.pkgs ⊆ g.pkgs →
        FailsAs (fun _ => False) ((computeDeps bcx (Fetch.get net) ho item).run g) := by
    -- with what has been fetched so far, some of the dependencies are found
    have hstep : ∀ item g, Visited bcx roots item → g.Inv packages ∧ f.pkgs ⊆ g.pkgs →
        ∃ next g' full, (computeDeps bcx (Fetch.get net) ho item).run g = .ok (next, g') ∧
          (g'.Inv packages ∧ f.pkgs ⊆ g'.pkgs) ∧ plainDeps bcx ho item = .ok full ∧
          next ⊆ full := by
      intro item g hitem hg
      have hpkg := h.pkg_mem hitem
      have hplain : ∃ full, plainDeps bcx ho item = .ok full := h.plainDeps_ok hpkg
      obtain ⟨full, hfull⟩ := hplain
      obtain ⟨next, g', hnext, hg', hsub⟩ := computeDeps_refines (fun dep hdep =>
        get_refines hnet (h.leadsTo _ hpkg _ _ (Resolve.mem_deps.mp hdep)).1) g full hg hfull
      exact ⟨next, g', full, hnext, hg', hfull, hsub⟩
    refine ⟨⟨?_, ?_, fun _ _ _ _ _ _ _ => trivial⟩, ?_⟩
    · intro item g next g' hitem hg hnext d hd
      obtain ⟨next', g'', full, hnext', -, hfull, hsub⟩ := hstep item g hitem hg
      rw [hnext] at hnext'
      cases hnext'
      exact .dep hitem (dep_of_mem hfull (hsub hd))
    · intro item g next g' hitem hg hnext
      obtain ⟨next', g'', full, hnext', hg', -, -⟩ := hstep item g hitem hg
      rw [hnext] at hnext'
      cases hnext'
      exact hg'
    · intro item g hitem hg
      obtain ⟨next, g', full, hnext, -, -, -⟩ := hstep item g hitem hg
      rw [hnext]
      exact failsAs_ok _
  refine exists_foldlM_ok (P := fun _ (s : Explored (Fetch crate) (Unit crate)) =>
    s.rest.Inv packages ∧ f.pkgs ⊆ s.rest.pkgs) ⟨hf, Finset.Subset.refl _⟩ ?_
  intro pre u post s hsplit hs
  have hu : u ∈ roots := by simp [hsplit]
  obtain ⟨found, g, hget, hg, -⟩ := get_refines hnet (h.roots u hu) s.rest true hs rfl
  have hfails : FailsAs (fun _ => False)
      (depsOf bcx net ho fuel (u, rootUnitFor bcx u) ⟨g, s.table⟩) :=
    explore_failsAs hkeeps.1 hkeeps.2
      (fun item (hitem : Visited bcx roots item) => finite_visited h hitem) (.root hu) hg
      ((Finset.card_le_card Finset.sdiff_subset).trans_lt hfuel)
  cases hres : depsOf bcx net ho fuel (u, rootUnitFor bcx u) ⟨g, s.table⟩ with
  | error e => exact (hfails e hres).elim
  | ok s' =>
    refine ⟨s', bind_eq_ok.mpr ⟨(found, g), hget, hres⟩, ?_⟩
    exact (explore_spec hkeeps.1 (.root hu) hg hres).1

/-- Waiting for downloads ends, and there is a package more. -/
theorem finishLoop_ok {net : Network crate} (hnet : net.Reliable) {n : ℕ} {f : Fetch crate}
    (hf : f.Inv packages) (hn : f.remaining.card ≤ n) (hsome : f.remaining.Nonempty) :
    ∃ f', f.finishLoop net n = .ok f' ∧ f'.Inv packages ∧ f.pkgs ⊆ f'.pkgs ∧
      ∃ id ∈ packages, id ∉ f.pkgs ∧ id ∈ f'.pkgs := by
  induction n generalizing f with
  | zero =>
    rw [Nat.le_zero, Finset.card_eq_zero] at hn
    rw [hn] at hsome
    exact absurd hsome Finset.not_nonempty_empty
  | succ n ih =>
    obtain ⟨id, hid⟩ := hnet.wait f.waits f.remaining hsome
    have hmem := net.wait_mem _ _ _ hid
    have hwaiting : id ∈ f.waitingOnDownload := hf.remaining ▸ hmem
    -- what is waited for is not there yet
    have hnew : id ∉ f.pkgs := Finset.disjoint_right.mp hf.apart hwaiting
    rw [Fetch.finishLoop]
    simp only [hid, bind, Except.bind]
    set g : Fetch crate := { f with
      pkgs := insert id f.pkgs
      waitingOnDownload := f.waitingOnDownload.erase id
      remaining := f.remaining.erase id
      waits := f.waits + 1 } with hgdef
    have hg : g.Inv packages := by
      refine ⟨congrArg (Finset.erase · id) hf.remaining, ?_, ?_⟩
      · rw [hgdef, Finset.disjoint_insert_left]
        exact ⟨Finset.notMem_erase id _, hf.apart.mono_right (Finset.erase_subset id _)⟩
      · exact fun other hother => hf.needed other (Finset.mem_of_mem_erase hother)
    have hneeded : id ∈ packages := hf.needed id hwaiting
    split_ifs with hfew
    · exact ⟨g, rfl, hg, Finset.subset_insert id f.pkgs, id, hneeded, hnew,
        Finset.mem_insert_self id f.pkgs⟩
    · have hcard : g.remaining.card ≤ n := by
        have herase : (f.remaining.erase id).card = f.remaining.card - 1 :=
          Finset.card_erase_of_mem hmem
        change (f.remaining.erase id).card ≤ n
        omega
      have hleft : g.remaining.Nonempty :=
        Finset.card_pos.mp (show 0 < (f.remaining.erase id).card by omega)
      obtain ⟨f', hf', hinv, hsub, -⟩ := ih hg hcard hleft
      exact ⟨f', hf', hinv, (Finset.subset_insert id f.pkgs).trans hsub, id, hneeded, hnew,
        hsub (Finset.mem_insert_self id f.pkgs)⟩

/-- The table is made after as many passes as there are packages, if not before, and is the one
that is made with everything at hand. -/
theorem passes_eq (h : Complete bcx roots packages) {net : Network crate} (hnet : net.Reliable)
    {fuel : ℕ} (hfuel : (possibleUnits bcx roots packages).card < fuel) {n : ℕ} {f : Fetch crate}
    (hf : f.Inv packages) (hn : (packages.toFinset \ f.pkgs).card < n) :
    ∃ t, passes bcx net ho fuel roots n f = .ok t ∧ lower bcx ho fuel roots = .ok ⟨⟨⟩, t⟩ := by
  induction n generalizing f with
  | zero => exact absurd hn (Nat.not_lt_zero _)
  | succ n ih =>
    obtain ⟨s, hs, hinv, hsub⟩ := pass_ok h hnet ho hfuel hf
    rw [passes]
    simp only [hs, bind, Except.bind]
    split_ifs with hwaiting
    · have hsome : s.rest.remaining.Nonempty := by
        rw [hinv.remaining]
        exact Finset.card_pos.mp hwaiting
      obtain ⟨f', hf', hinv', hsub', id, hid, hnew, harrived⟩ :=
        finishLoop_ok hnet hinv le_rfl hsome
      rw [Fetch.finishSomeDownloads, hf']
      apply ih hinv'
      refine lt_of_lt_of_le (Finset.card_lt_card ?_) (Nat.le_of_lt_succ hn)
      rw [Finset.ssubset_iff_of_subset (Finset.sdiff_subset_sdiff (Finset.Subset.refl _)
        (hsub.trans hsub'))]
      refine ⟨id, ?_, ?_⟩
      · simp only [Finset.mem_sdiff, List.mem_toFinset]
        exact ⟨hid, fun hold => hnew (hsub hold)⟩
      · simp [harrived]
    · rw [Nat.not_lt, Nat.le_zero, Finset.card_eq_zero] at hwaiting
      exact ⟨s.table, rfl, pass_eq_lower hs hwaiting⟩

theorem lower_mono {n m : ℕ} (hnm : n ≤ m) {s : Explored PUnit.{1} (Unit crate)}
    (h : lower bcx ho n roots = .ok s) : lower bcx ho m roots = .ok s :=
  foldlM_ok_of_imp (fun _ _ _ hstep => explore_mono hnm hstep) h

/-! ### The runs of build scripts -/

section Connect

variable {ho' : HashOrder (Unit crate)} {t : SuccTable (Unit crate)}

/-- The run of a build script gets what is to be added, and everything else stays. -/
theorem lookup_connect (u : Unit crate) : (connectRunCustomBuildDeps bcx ho' t).lookup u =
    (t.lookup u).map fun deps =>
      if u.mode.isRunCustomBuild then deps ++ (ho'.of u).enum (toAdd bcx t u) else deps := by
  have hgen : ∀ (units : List (Unit crate)) (new : SuccTable (Unit crate)),
      (units.foldl (fun new unit =>
          new.insert unit (entries t unit ++ (ho'.of unit).enum (toAdd bcx t unit)))
        new).lookup u =
      if u ∈ units then some (entries t u ++ (ho'.of u).enum (toAdd bcx t u))
        else new.lookup u := by
    intro units
    induction units with
    | nil => exact fun new => by simp
    | cons unit units ih =>
      intro new
      rw [List.foldl_cons, ih]
      by_cases hmem : u ∈ units
      · simp [hmem]
      · by_cases heq : u = unit
        · subst heq
          simp [hmem]
        · simp [hmem, heq, Finmap.lookup_insert_of_ne]
  rw [connectRunCustomBuildDeps, hgen]
  simp only [List.mem_filter, SetOrder.mem_enum, Finmap.mem_keys]
  by_cases hmem : u ∈ t
  · obtain ⟨deps, hdeps⟩ := Finmap.mem_iff.mp hmem
    cases hrun : u.mode.isRunCustomBuild <;> simp [hmem, hdeps, entries]
  · rw [Finmap.lookup_eq_none.mpr hmem]
    simp [hmem]

theorem mem_connect {u : Unit crate} : u ∈ connectRunCustomBuildDeps bcx ho' t ↔ u ∈ t := by
  rw [← Finmap.lookup_isSome, lookup_connect, Option.isSome_map, Finmap.lookup_isSome]

theorem mem_entries {parent d : Unit crate} : d ∈ entries t parent ↔ Next t parent d := by
  unfold entries Next
  cases t.lookup parent <;> simp

/-- The run of `unit` depends on the run `d` by way of something that needs both. -/
def Links (bcx : BuildContext crate R) (t : SuccTable (Unit crate)) (unit d : Unit crate) : Prop :=
  unit.mode.isRunCustomBuild = true ∧ ∃ parent other, Next t parent unit ∧ Next t parent other ∧
    other.pkg ≠ unit.pkg ∧ other.target.linkable = true ∧
    (bcx.package other.pkg).links.isSome = true ∧ depBuildScript bcx other = some d

theorem mem_toAdd {unit d : Unit crate} (hrun : unit.mode.isRunCustomBuild = true) :
    d ∈ toAdd bcx t unit ↔ Links bcx t unit d := by
  unfold toAdd Links reverseDeps
  simp only [Finset.mem_biUnion, Finset.mem_filter, List.mem_toFinset, List.mem_filterMap,
    List.mem_filter, Bool.and_eq_true, decide_eq_true_eq, mem_entries, Finmap.mem_keys, hrun,
    true_and]
  constructor
  · rintro ⟨parent, ⟨-, hparent⟩, other, ⟨hother, ⟨hne, hlink⟩, hlinks⟩, hd⟩
    exact ⟨parent, other, hparent, hother, hne, hlink, hlinks, hd⟩
  · rintro ⟨parent, other, hparent, hother, hne, hlink, hlinks, hd⟩
    obtain ⟨l, hl, hunit⟩ := hparent
    exact ⟨parent, ⟨Finmap.mem_of_lookup_eq_some hl, l, hl, hunit⟩, other,
      ⟨hother, ⟨hne, hlink⟩, hlinks⟩, hd⟩

/-- Nothing is added but dependencies of runs on runs. -/
theorem next_connect {unit d : Unit crate} :
    Next (connectRunCustomBuildDeps bcx ho' t) unit d ↔
      Next t unit d ∨ unit ∈ t ∧ Links bcx t unit d := by
  unfold Next
  rw [lookup_connect]
  cases hlookup : t.lookup unit with
  | none =>
    have hmem : unit ∉ t := Finmap.lookup_eq_none.mp hlookup
    simp [hmem]
  | some deps =>
    have hmem : unit ∈ t := Finmap.mem_of_lookup_eq_some hlookup
    cases hrun : unit.mode.isRunCustomBuild with
    | false => simp [Links, hrun]
    | true => simp [mem_toAdd hrun, hmem]

end Connect

theorem not_isCustomBuild_of_linkable {target : Target} (h : target.linkable = true) :
    target.isCustomBuild = false := by
  unfold Target.linkable at h
  unfold Target.isCustomBuild
  split at h
  · rename_i hkind
    rw [hkind]
    rfl
  · cases h

theorem checkOrBuildMode_cases (mode : CompileMode) (target : Target) :
    checkOrBuildMode mode target = .build ∨ checkOrBuildMode mode target = .check false := by
  unfold checkOrBuildMode
  split
  · split_ifs <;> simp
  · split_ifs <;> simp
  · exact .inl rfl

/-- What is run are build scripts. -/
theorem isCustomBuild_of_dep {item d : Item crate} (h : Dep bcx item d)
    (hrun : d.1.mode.isRunCustomBuild = true) : d.1.target.isCustomBuild = true := by
  have hmode : ∀ (mode : CompileMode) (target : Target),
      (checkOrBuildMode mode target).isRunCustomBuild = false := by
    intro mode target
    rcases checkOrBuildMode_cases mode target with heq | heq <;> rw [heq] <;> rfl
  cases h with
  | script _ hd =>
    obtain ⟨profile, -, rfl⟩ := newUnit_eq_ok.mp hd
    cases hrun
  | run _ _ hd =>
    obtain ⟨t, ht, rfl⟩ := depBuildScript_eq_some.mp hd
    exact List.find?_some ht
  | lib _ _ _ _ hd =>
    obtain ⟨profile, -, rfl⟩ := newUnit_eq_ok.mp hd
    rw [hmode] at hrun
    cases hrun
  | doc _ _ _ hcase hd =>
    obtain ⟨profile, -, rfl⟩ := newUnit_eq_ok.mp hd
    rcases hcase with rfl | ⟨rfl, hdoc⟩
    · rw [hmode] at hrun
      cases hrun
    · dsimp only at hrun
      rw [hdoc] at hrun
      cases hrun
  | own _ _ _ hd =>
    obtain ⟨profile, -, rfl⟩ := newUnit_eq_ok.mp hd
    rw [hmode] at hrun
    cases hrun
  | bin _ _ _ _ _ hd =>
    obtain ⟨profile, -, rfl⟩ := newUnit_eq_ok.mp hd
    cases hrun

/-- Whatever needs the output of its build script depends on its run. -/
theorem run_mem_plainDeps {u d : Unit crate} {uf : UnitFor} {next : List (Item crate)}
    (h : plainDeps bcx ho (u, uf) = .ok next) (hrun : u.mode.isRunCustomBuild = false)
    (htarget : u.target.isCustomBuild = false) (hd : depBuildScript bcx u = some d) :
    (d, UnitFor.newBuild) ∈ next := by
  have hscript : (d, UnitFor.newBuild) ∈ buildScriptItems bcx u :=
    mem_buildScriptItems.mpr ⟨d, hd, rfl⟩
  simp only [plainDeps, computeDeps, hrun, Bool.false_eq_true, if_false] at h
  split_ifs at h with hdoc
  · obtain ⟨ret, -, h⟩ := bind_eq_ok.mp h
    obtain ⟨own, -, h⟩ := bind_eq_ok.mp h
    cases h
    exact List.mem_append_left _ (List.mem_append_right _ hscript)
  · obtain ⟨ret, -, h⟩ := bind_eq_ok.mp h
    obtain ⟨own, hown, h⟩ := bind_eq_ok.mp h
    cases h
    refine List.mem_append_right _ ?_
    simp only [ownDeps, htarget, Bool.false_eq_true, if_false] at hown
    split_ifs at hown
    · cases hown
      exact hscript
    · obtain ⟨lib, -, hown⟩ := bind_eq_ok.mp hown
      obtain ⟨bins, -, hown⟩ := bind_eq_ok.mp hown
      cases hown
      exact List.mem_append_left _ (List.mem_append_left _ hscript)
    · obtain ⟨lib, -, hown⟩ := bind_eq_ok.mp hown
      cases hown
      exact List.mem_append_left _ hscript

namespace Built

variable {t : SuccTable (Unit crate)} {u d : Unit crate}

/-- Each step in the table is a way to be a dependency. -/
theorem dep_of_next (h : Built bcx ho roots t) (hnext : Next t u d) :
    ∃ uf uf', Visited bcx roots (u, uf) ∧ Dep bcx (u, uf) (d, uf') := by
  obtain ⟨l, hl, hd⟩ := hnext
  obtain ⟨uf, next, hvisited, hplain, rfl⟩ := h.ofNothing.entry u l hl Finmap.notMem_empty
  obtain ⟨⟨d, uf'⟩, hmem, rfl⟩ := List.mem_map.mp hd
  exact ⟨uf, uf', hvisited, dep_of_mem hplain hmem⟩

theorem mem_of_next (h : Built bcx ho roots t) (hnext : Next t u d) : d ∈ t :=
  h.ofNothing.closed u d hnext Finmap.notMem_empty

/-- The run that something depends on depends on runs that are in the table. -/
theorem mem_of_links (h : Built bcx ho roots t) (hlinks : Links bcx t u d) : d ∈ t := by
  obtain ⟨-, parent, other, -, hother, -, hlink, -, hd⟩ := hlinks
  obtain ⟨uf, uf', -, hdep⟩ := h.dep_of_next hother
  have htarget := not_isCustomBuild_of_linkable hlink
  have hrun : other.mode.isRunCustomBuild = false := by
    by_contra hrun
    rw [Bool.not_eq_false] at hrun
    have := isCustomBuild_of_dep hdep hrun
    rw [htarget] at this
    cases this
  -- the run is there because `other` needs it
  obtain ⟨l, hl⟩ := Finmap.mem_iff.mp (h.mem_of_next hother)
  obtain ⟨uf'', next, -, hplain, rfl⟩ := h.ofNothing.entry other l hl Finmap.notMem_empty
  have hmem := run_mem_plainDeps hplain hrun htarget hd
  exact h.mem_of_next ⟨_, hl, List.mem_map_of_mem hmem⟩

/-- Whatever a unit of the graph leads to is in the graph. -/
theorem mem_of_connect (h : Built bcx ho roots t) {ho' : HashOrder (Unit crate)}
    (hnext : Next (connectRunCustomBuildDeps bcx ho' t) u d) :
    d ∈ connectRunCustomBuildDeps bcx ho' t := by
  rw [mem_connect]
  rcases next_connect.mp hnext with hnext | ⟨-, hlinks⟩
  · exact h.mem_of_next hnext
  · exact h.mem_of_links hlinks

end Built

/-- With enough fuel the graph is made from one and the same table, if no download fails. -/
theorem buildUnitDependencies_eq (h : Complete bcx roots packages)
    (ho : HashOrder (PackageId (SourceId crate))) (ho' : HashOrder (Unit crate)) :
    ∃ base, Built bcx ho roots base ∧ ∃ bound, ∀ net : Network crate, net.Reliable →
      ∀ pkgs fuel, bound ≤ fuel → buildUnitDependencies bcx net ho ho' fuel roots pkgs =
        .ok (connectRunCustomBuildDeps bcx ho' base) := by
  obtain ⟨s, hs⟩ := lower_ok h ho (Nat.lt_succ_self _)
  refine ⟨s.table, built_of_lower hs,
    max ((possibleUnits bcx roots packages).card + 1) (packages.toFinset.card + 1), ?_⟩
  intro net hnet pkgs fuel hfuel
  have hstart : Fetch.Inv packages (⟨pkgs, ∅, ∅, 0⟩ : Fetch crate) :=
    ⟨rfl, Finset.disjoint_empty_right pkgs, by simp⟩
  have hrounds : (packages.toFinset \ pkgs).card < fuel :=
    (Finset.card_le_card Finset.sdiff_subset).trans_lt (le_of_max_le_right hfuel)
  obtain ⟨t, ht, hlower⟩ := passes_eq h hnet (le_of_max_le_left hfuel) hstart hrounds
  have heq := (lower_mono (le_of_max_le_left hfuel) hs).symm.trans hlower
  cases heq
  exact bind_eq_ok.mpr ⟨t, ht, rfl⟩

/-- There is one graph of units, whatever order downloads arrive in and however much has been
downloaded before. It has the roots, has an entry for all that its entries lead to, and has nothing
that is not reached from the roots. -/
theorem buildUnitDependencies_unique (bcx : BuildContext crate R)
    (ho : HashOrder (PackageId (SourceId crate))) (ho' : HashOrder (Unit crate))
    (roots : List (Unit crate)) (packages : List (PackageId (SourceId crate)))
    (h : Complete bcx roots packages) :
    ∃ t bound, (∀ net : Network crate, net.Reliable → ∀ pkgs fuel, bound ≤ fuel →
        buildUnitDependencies bcx net ho ho' fuel roots pkgs = .ok t) ∧
      (∀ u ∈ roots, u ∈ t) ∧ (∀ u d, Next t u d → d ∈ t) ∧
      ∀ u ∈ t, ∃ r ∈ roots, ReflTransGen (Next t) r u := by
  obtain ⟨base, hbuilt, bound, hbound⟩ := buildUnitDependencies_eq h ho ho'
  refine ⟨connectRunCustomBuildDeps bcx ho' base, bound, hbound, ?_, ?_, ?_⟩
  · exact fun u hu => mem_connect.mpr (hbuilt.entered u hu)
  · exact fun u d hnext => hbuilt.mem_of_connect hnext
  · intro u hu
    obtain ⟨r, hr, hpath⟩ := hbuilt.ofNothing.reached u (mem_connect.mp hu) Finmap.notMem_empty
    exact ⟨r, hr, ReflTransGen.mono (fun x y hxy => next_connect.mpr (.inl hxy)) _ _ hpath⟩

/-! ### A binary, a library and their build scripts -/

def exampleBar : PackageId (SourceId (.plain fun text => .ok ⟨text⟩)) :=
  ⟨"bar", ⟨1, 0, 0, []⟩, exampleRegistry⟩

/-- The package `foo` depends on `bar`. -/
def exampleResolve : Resolve (SourceId (.plain fun text => .ok ⟨text⟩)) (List Version) where
  graph := (Util.Graph.new.add exampleBar).link exampleFoo exampleBar
    (· ++ [.parse "bar" [⟨1, 0, 0, []⟩] exampleRegistry])
  replacements := ∅
  features := ∅
  checksums := ∅
  metadata := ∅
  unusedPatches := []

/-- Both packages have a library and a build script, and `foo` has a binary. The script of `bar`
is for a native library. -/
def exampleContext : BuildContext (.plain fun text => .ok ⟨text⟩) (List Version) where
  resolve := exampleResolve
  package id :=
    if id = exampleFoo then
      ⟨[.libTarget "foo" [.lib] [] .edition2015, .binTarget "foo" [] none .edition2015,
        .customBuildTarget "build-script-build" [] .edition2015], none⟩
    else
      ⟨[.libTarget "bar" [.lib] [] .edition2015,
        .customBuildTarget "build-script-build" [] .edition2015], some "bar"⟩
  isMember id := decide (id = exampleFoo)
  profiles := exampleProfiles
  release := false
  test := false
  triple _ := "x86_64-unknown-linux-gnu"
  cfg _ := none

/-- The binary of `foo`. -/
def exampleRoot : Unit (.plain fun text => .ok ⟨text⟩) where
  pkg := exampleFoo
  target := .binTarget "foo" [] none .edition2015
  profile := Profile.comparable .defaultDev
  kind := .target
  mode := .build

theorem exampleContext_leadsTo {pkg id : PackageId (SourceId (.plain fun text => .ok ⟨text⟩))}
    {listed : List (Dependency (SourceId (.plain fun text => .ok ⟨text⟩)) (List Version))}
    (h : LeadsTo exampleContext pkg id listed) : pkg = exampleFoo ∧ id = exampleBar ∧
      listed = [.parse "bar" [⟨1, 0, 0, []⟩] exampleRegistry] := by
  obtain ⟨dep, hedge, rfl⟩ := h
  change (exampleResolve.graph.edges pkg).lookup dep = some listed at hedge
  have htarget : ∀ dep, exampleContext.resolve.target dep = dep := fun dep => rfl
  rw [htarget]
  unfold exampleResolve at hedge
  dsimp only at hedge
  have hnone : ∀ p, (Util.Graph.new.add exampleBar : PackageGraph
      (SourceId (.plain fun text => .ok ⟨text⟩)) (List Version)).edges p = ∅ := by
    intro p
    rw [Util.Graph.edges_add]
    rfl
  by_cases hfoo : pkg = exampleFoo
  · subst hfoo
    rw [Util.Graph.edges_link_self] at hedge
    by_cases hbar : dep = exampleBar
    · subst hbar
      rw [Finmap.lookup_insert] at hedge
      exact ⟨rfl, rfl, (Option.some.inj hedge).symm⟩
    · rw [Finmap.lookup_insert_of_ne _ hbar, hnone] at hedge
      cases hedge
  · rw [Util.Graph.edges_link_of_ne hfoo, hnone] at hedge
    cases hedge

theorem exampleContext_complete :
    Complete exampleContext [exampleRoot] [exampleFoo, exampleBar] where
  roots := by simp [exampleRoot]
  leadsTo := by
    intro pkg _ id listed h
    obtain ⟨-, rfl, rfl⟩ := exampleContext_leadsTo h
    exact ⟨by simp, by simp⟩
  valid := ⟨_, rfl⟩

/-- The graph for the binary of `foo`. -/
theorem exampleContext_unique : ∃ t bound,
    (∀ net : Network (.plain fun text => .ok ⟨text⟩), net.Reliable → ∀ pkgs fuel, bound ≤ fuel →
      buildUnitDependencies exampleContext net (.following [exampleFoo, exampleBar])
        (.following [exampleRoot]) fuel [exampleRoot] pkgs = .ok t) ∧
      (∀ u ∈ [exampleRoot], u ∈ t) ∧ (∀ u d, Next t u d → d ∈ t) ∧
      ∀ u ∈ t, ∃ r ∈ [exampleRoot], ReflTransGen (Next t) r u :=
  buildUnitDependencies_unique exampleContext _ _ _ _ exampleContext_complete

end Cargo.Compiler.UnitDependencies
