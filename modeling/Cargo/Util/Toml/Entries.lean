import Cargo.Core.IdOrder
import Cargo.Util.Toml.Manifest

/-!
# All entries of a manifest

The dependencies of a manifest stand in many tables. As a list of entries, each with the table
it is in, they are read one by one; and that each name has a single source is a statement about
all pairs of them.

## Main definitions

* `Placed` — an entry and where it is
* `TomlManifest.placed` — all entries of a manifest
* `Placed.read`

## Main results

* `readDependencies_eq_ok` — the dependencies are what the entries are read as
* `checkSources_eq_ok`
-/

set_option autoImplicit false

namespace Cargo.Util

open Cargo.Core Cargo.Math

/-- An entry of a dependency table. -/
structure Placed where
  /-- The target that the table is for. -/
  platform : Option String
  kind : DepKind
  name : String
  dep : TomlDependency

/-- The entries of one table. -/
def entriesOf (platform : Option String) (kind : DepKind) (deps : Option (Table TomlDependency)) :
    List Placed :=
  (deps.getD []).map fun entry => ⟨platform, kind, entry.1, entry.2⟩

/-- The entries of the tables of one target. -/
def platformEntries (entry : String × TomlPlatform) : List Placed :=
  entriesOf (some entry.1) .normal entry.2.dependencies ++
    entriesOf (some entry.1) .build (entry.2.buildDependencies.or entry.2.buildDependencies2) ++
    entriesOf (some entry.1) .development (entry.2.devDependencies.or entry.2.devDependencies2)

/-- All entries, in the order in which they are read. -/
def TomlManifest.placed {F : Type} (m : TomlManifest F) : List Placed :=
  entriesOf none .normal m.dependencies ++
    entriesOf none .development (m.devDependencies.or m.devDependencies2) ++
    entriesOf none .build (m.buildDependencies.or m.buildDependencies2) ++
    (m.target.getD []).flatMap platformEntries

variable {crate : UrlCrate} {R F G : Type} (env : ManifestEnv crate R F G) (features : Features)

/-- The dependency that an entry is read as. -/
def Placed.read (e : Placed) : Except ManifestError (Dependency (SourceId crate) R) := do
  let platform ← mapOption env.parsePlatform e.platform
  e.dep.toDependency env features platform e.kind e.name

/-! ### Reading the entries -/

variable {env features}

/-- What each entry is read as. -/
abbrev ReadAs (env : ManifestEnv crate R F G) (features : Features) (es : List Placed)
    (ds : List (Dependency (SourceId crate) R)) : Prop :=
  List.Forall₂ (fun e d => e.read env features = .ok d) es ds

theorem processDependencies_eq_ok {platform : Option String} {parsed : Option Platform}
    (hplatform : mapOption env.parsePlatform platform = .ok parsed) {kind : DepKind}
    {deps : Option (Table TomlDependency)} {ds : List (Dependency (SourceId crate) R)} :
    processDependencies env features parsed kind deps = .ok ds ↔
      ReadAs env features (entriesOf platform kind deps) ds := by
  have hread (entry : String × TomlDependency) :
      Placed.read env features ⟨platform, kind, entry.1, entry.2⟩ =
        entry.2.toDependency env features parsed kind entry.1 := by
    unfold Placed.read
    rw [hplatform]
    rfl
  rw [processDependencies, mapM_eq_ok, ReadAs, entriesOf, List.forall₂_map_left_iff]
  simp only [hread]

theorem processPlatform_eq_ok {entry : String × TomlPlatform}
    {ds : List (Dependency (SourceId crate) R)} :
    processPlatform env features entry = .ok ds ↔
      (∃ platform, env.parsePlatform entry.1 = .ok platform) ∧
        ReadAs env features (platformEntries entry) ds := by
  have hsome {platform : Platform} (h : env.parsePlatform entry.1 = .ok platform) :
      mapOption env.parsePlatform (some entry.1) = .ok (some platform) := by
    rw [mapOption, h]
    rfl
  rw [ReadAs, platformEntries, forall₂_append_left_iff]
  constructor
  · intro h
    obtain ⟨platform, hplatform, h⟩ := bind_eq_ok.mp h
    obtain ⟨normal, hnormal, h⟩ := bind_eq_ok.mp h
    obtain ⟨build, hbuild, h⟩ := bind_eq_ok.mp h
    obtain ⟨dev, hdev, h⟩ := bind_eq_ok.mp h
    cases h
    have hp := hsome hplatform
    exact ⟨⟨platform, hplatform⟩, _, _,
      forall₂_append_left_iff.mpr ⟨_, _, (processDependencies_eq_ok hp).mp hnormal,
        (processDependencies_eq_ok hp).mp hbuild, rfl⟩,
      (processDependencies_eq_ok hp).mp hdev, rfl⟩
  · rintro ⟨⟨platform, hplatform⟩, both, dev, hboth, hdev, rfl⟩
    obtain ⟨normal, build, hnormal, hbuild, rfl⟩ := forall₂_append_left_iff.mp hboth
    have hp := hsome hplatform
    exact bind_eq_ok.mpr ⟨platform, hplatform,
      bind_eq_ok.mpr ⟨normal, (processDependencies_eq_ok hp).mpr hnormal,
      bind_eq_ok.mpr ⟨build, (processDependencies_eq_ok hp).mpr hbuild,
      bind_eq_ok.mpr ⟨dev, (processDependencies_eq_ok hp).mpr hdev, rfl⟩⟩⟩⟩

/-- The dependencies are read when all targets can be parsed and all entries can be read. -/
theorem readDependencies_eq_ok {m : TomlManifest F} {ds : List (Dependency (SourceId crate) R)} :
    m.readDependencies env features = .ok ds ↔
      (∀ entry ∈ m.target.getD [], ∃ platform, env.parsePlatform entry.1 = .ok platform) ∧
        ReadAs env features m.placed ds := by
  have hnone : mapOption env.parsePlatform none = .ok none := rfl
  rw [ReadAs, TomlManifest.placed, forall₂_append_left_iff]
  constructor
  -- the entries are read in the order in which they are placed
  · intro h
    obtain ⟨normal, hnormal, h⟩ := bind_eq_ok.mp h
    obtain ⟨dev, hdev, h⟩ := bind_eq_ok.mp h
    obtain ⟨build, hbuild, h⟩ := bind_eq_ok.mp h
    obtain ⟨targets, htargets, h⟩ := bind_eq_ok.mp h
    cases h
    refine ⟨fun entry hentry => ?_, _, _, ?_, forall₂_flatMap_left_iff.mpr ⟨targets, ?_, rfl⟩, rfl⟩
    · obtain ⟨ds, -, hds⟩ := exists_of_mapM_ok htargets hentry
      exact (processPlatform_eq_ok.mp hds).1
    · exact forall₂_append_left_iff.mpr ⟨_, _,
        forall₂_append_left_iff.mpr ⟨_, _, (processDependencies_eq_ok hnone).mp hnormal,
          (processDependencies_eq_ok hnone).mp hdev, rfl⟩,
        (processDependencies_eq_ok hnone).mp hbuild, rfl⟩
    · exact (mapM_eq_ok.mp htargets).imp fun _ _ h => (processPlatform_eq_ok.mp h).2
  · rintro ⟨hparsed, front, back, hfront, hback, rfl⟩
    obtain ⟨both, build, hboth, hbuild, rfl⟩ := forall₂_append_left_iff.mp hfront
    obtain ⟨normal, dev, hnormal, hdev, rfl⟩ := forall₂_append_left_iff.mp hboth
    obtain ⟨targets, htargets, rfl⟩ := forall₂_flatMap_left_iff.mp hback
    have hloop : (m.target.getD []).mapM (processPlatform env features) = .ok targets := by
      refine mapM_eq_ok.mpr ?_
      rw [List.forall₂_iff_get] at htargets ⊢
      exact ⟨htargets.1, fun i h₁ h₂ => processPlatform_eq_ok.mpr
        ⟨hparsed _ (List.get_mem _ _), htargets.2 i h₁ h₂⟩⟩
    exact bind_eq_ok.mpr ⟨normal, (processDependencies_eq_ok hnone).mpr hnormal,
      bind_eq_ok.mpr ⟨dev, (processDependencies_eq_ok hnone).mpr hdev,
      bind_eq_ok.mpr ⟨build, (processDependencies_eq_ok hnone).mpr hbuild,
      bind_eq_ok.mpr ⟨targets, hloop, rfl⟩⟩⟩⟩

/-! ### One source for each name -/

theorem checkSource_eq_ok {seen seen' : Finmap fun _ : String => SourceId crate}
    {d : Dependency (SourceId crate) R} :
    checkSource seen d = .ok seen' ↔
      (∀ s, seen.lookup d.nameInToml = some s → s.eq d.sourceId) ∧
        seen' = seen.insert d.nameInToml d.sourceId := by
  unfold checkSource
  cases hlookup : seen.lookup d.nameInToml with
  | none =>
    simp only [reduceCtorEq, false_imp_iff, implies_true, true_and, Except.ok.injEq]
    exact eq_comm
  | some prev =>
    simp only [Option.some.injEq, forall_eq']
    split
    · rename_i heq
      simp only [heq, true_and, Except.ok.injEq]
      exact eq_comm
    · rename_i hne
      simp [hne]

/-- The check compares with the last dependency of the name only, which is enough since being
equal is transitive. -/
theorem foldlM_checkSource {deps : List (Dependency (SourceId crate) R)}
    {seen : Finmap fun _ : String => SourceId crate} :
    (∃ seen', deps.foldlM checkSource seen = .ok seen') ↔
      (∀ d ∈ deps, ∀ s, seen.lookup d.nameInToml = some s → s.eq d.sourceId) ∧
        ∀ d ∈ deps, ∀ d' ∈ deps, d.nameInToml = d'.nameInToml → d.sourceId.eq d'.sourceId := by
  induction deps generalizing seen with
  | nil => exact ⟨fun _ => by simp, fun _ => ⟨seen, rfl⟩⟩
  | cons d deps ih =>
    have hsplit : (∃ seen', (d :: deps).foldlM checkSource seen = .ok seen') ↔
        (∀ s, seen.lookup d.nameInToml = some s → s.eq d.sourceId) ∧
          ∃ seen', deps.foldlM checkSource (seen.insert d.nameInToml d.sourceId) = .ok seen' := by
      rw [List.foldlM_cons]
      constructor
      · rintro ⟨seen', h⟩
        obtain ⟨_, hcheck, h⟩ := bind_eq_ok.mp h
        obtain ⟨hd, rfl⟩ := checkSource_eq_ok.mp hcheck
        exact ⟨hd, seen', h⟩
      · rintro ⟨hd, seen', h⟩
        exact ⟨seen', bind_eq_ok.mpr ⟨_, checkSource_eq_ok.mpr ⟨hd, rfl⟩, h⟩⟩
    rw [hsplit, ih]
    constructor
    -- sources are compared with the last one of the name, which is as good as any before it
    · rintro ⟨hd, hinsert, hpairs⟩
      have hfirst (d' : Dependency (SourceId crate) R) (hd' : d' ∈ deps)
          (hname : d.nameInToml = d'.nameInToml) : d.sourceId.eq d'.sourceId := by
        refine hinsert d' hd' d.sourceId ?_
        rw [← hname, Finmap.lookup_insert]
      refine ⟨fun d' hd' s hs => ?_, fun a ha b hb hname => ?_⟩
      · rcases List.mem_cons.mp hd' with heq | hmem
        · rw [heq] at hs ⊢
          exact hd s hs
        · by_cases hname : d'.nameInToml = d.nameInToml
          · exact SourceId.eq_trans (hd s (hname ▸ hs)) (hfirst d' hmem hname.symm)
          · exact hinsert d' hmem s (by rwa [Finmap.lookup_insert_of_ne _ hname])
      · rcases List.mem_cons.mp ha with haeq | hamem
        · rcases List.mem_cons.mp hb with hbeq | hbmem
          · rw [haeq, hbeq]
            exact SourceId.eq_refl _
          · rw [haeq] at hname ⊢
            exact hfirst b hbmem hname
        · rcases List.mem_cons.mp hb with hbeq | hbmem
          · rw [hbeq] at hname ⊢
            exact SourceId.eq_symm (hfirst a hamem hname.symm)
          · exact hpairs a hamem b hbmem hname
    · rintro ⟨hseen, hpairs⟩
      refine ⟨hseen d List.mem_cons_self, fun d' hd' s hs => ?_, fun a ha b hb =>
        hpairs a (List.mem_cons_of_mem d ha) b (List.mem_cons_of_mem d hb)⟩
      by_cases hname : d'.nameInToml = d.nameInToml
      · rw [hname, Finmap.lookup_insert] at hs
        cases hs
        exact hpairs d List.mem_cons_self d' (List.mem_cons_of_mem d hd') hname.symm
      · rw [Finmap.lookup_insert_of_ne _ hname] at hs
        exact hseen d' (List.mem_cons_of_mem d hd') s hs

theorem checkSources_eq_ok {deps : List (Dependency (SourceId crate) R)} :
    checkSources deps = .ok () ↔ ∀ d ∈ deps, ∀ d' ∈ deps,
      d.nameInToml = d'.nameInToml → d.sourceId.eq d'.sourceId := by
  have hfold : checkSources deps = .ok () ↔
      ∃ seen', deps.foldlM checkSource ∅ = .ok seen' := by
    rw [checkSources, bind_eq_ok]
    exact ⟨fun ⟨seen', h, _⟩ => ⟨seen', h⟩, fun ⟨seen', h⟩ => ⟨seen', h, rfl⟩⟩
  rw [hfold, foldlM_checkSource]
  simp

end Cargo.Util
