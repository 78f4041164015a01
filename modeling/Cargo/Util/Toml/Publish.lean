import Cargo.Util.Toml.Entries

/-!
# What publishing does to the entries

A manifest is prepared for publishing table by table. Seen as a list of entries, each entry is
rewritten on its own; the tables with an underscore are gone, and a second time nothing is left
to do.

## Main definitions

* `Prepares` — what a manifest is prepared to
* `Placed.publish`

## Main results

* `prepareForPublish_eq_ok`
* `Prepares.placed` — each entry is published on its own
* `Prepares.again` — a prepared manifest is prepared to itself
-/

set_option autoImplicit false

namespace Cargo.Util

open Cargo.Core Cargo.Math

variable {crate : UrlCrate} {R F G : Type} {env : ManifestEnv crate R F G}

/-! ### Tables -/

section Tables

variable {V W : Type} {f : V → Except ManifestError W}

theorem mapTable_eq_ok {table : Table V} {table' : Table W} :
    mapTable f table = .ok table' ↔
      List.Forall₂ (fun entry entry' => f entry.2 = .ok entry'.2 ∧ entry'.1 = entry.1)
        table table' := by
  have hentry (entry : String × V) (entry' : String × W) :
      (do let value ← f entry.2; return (entry.1, value) : Except ManifestError _) = .ok entry' ↔
        f entry.2 = .ok entry'.2 ∧ entry'.1 = entry.1 := by
    rw [bind_eq_ok]
    constructor
    · rintro ⟨value, hvalue, h⟩
      cases h
      exact ⟨hvalue, rfl⟩
    · rintro ⟨hvalue, hkey⟩
      exact ⟨entry'.2, hvalue, by rw [← hkey]; rfl⟩
  rw [mapTable, mapM_eq_ok]
  simp only [hentry]

theorem mapOption_eq_ok {o : Option V} {o' : Option W} :
    mapOption f o = .ok o' ↔
      (o = none ∧ o' = none) ∨ ∃ v w, o = some v ∧ o' = some w ∧ f v = .ok w := by
  cases o with
  | none => simp [mapOption, eq_comm]
  | some v =>
    rw [mapOption, bind_eq_ok]
    constructor
    · rintro ⟨w, hw, h⟩
      cases h
      exact .inr ⟨v, w, rfl, rfl, hw⟩
    · rintro (⟨h, -⟩ | ⟨_, w, h, rfl, hw⟩)
      · cases h
      · cases h
        exact ⟨w, hw, rfl⟩

/-- A loop that collects succeeds when no turn fails. -/
theorem exists_mapTable {table : Table V} (h : ∀ entry ∈ table, ∃ w, f entry.2 = .ok w) :
    ∃ table', mapTable f table = .ok table' := by
  simp only [mapTable_eq_ok]
  induction table with
  | nil => exact ⟨[], .nil⟩
  | cons entry table ih =>
    obtain ⟨w, hw⟩ := h entry List.mem_cons_self
    obtain ⟨table', htable⟩ := ih fun e he => h e (List.mem_cons_of_mem entry he)
    exact ⟨(entry.1, w) :: table', .cons ⟨hw, rfl⟩ htable⟩

theorem exists_mapOption {o : Option V} (h : ∀ v, o = some v → ∃ w, f v = .ok w) :
    ∃ o', mapOption f o = .ok o' := by
  cases o with
  | none => exact ⟨none, rfl⟩
  | some v =>
    obtain ⟨w, hw⟩ := h v rfl
    exact ⟨some w, mapOption_eq_ok.mpr (.inr ⟨v, w, rfl, rfl, hw⟩)⟩

variable {g : V → Except ManifestError V}

theorem mapTable_again (hg : ∀ v v', g v = .ok v' → g v' = .ok v') {table table' : Table V}
    (h : mapTable g table = .ok table') : mapTable g table' = .ok table' := by
  rw [mapTable_eq_ok] at h ⊢
  induction h with
  | nil => exact .nil
  | cons hentry _ ih => exact .cons ⟨hg _ _ hentry.1, rfl⟩ ih

theorem mapOption_again (hg : ∀ v v', g v = .ok v' → g v' = .ok v') {o o' : Option V}
    (h : mapOption g o = .ok o') : mapOption g o' = .ok o' := by
  rcases mapOption_eq_ok.mp h with ⟨-, rfl⟩ | ⟨v, w, -, rfl, hw⟩
  · rfl
  · exact mapOption_eq_ok.mpr (.inr ⟨w, w, rfl, rfl, hg v w hw⟩)

end Tables

/-! ### One entry -/

/-- The entry as it is published. -/
def Placed.publish (env : ManifestEnv crate R F G) (e : Placed) : Except ManifestError Placed := do
  let dep ← mapDependency env e.dep
  return { e with dep }

theorem publish_eq_ok {e e' : Placed} :
    e.publish env = .ok e' ↔
      ∃ dep', mapDependency env e.dep = .ok dep' ∧ e' = { e with dep := dep' } := by
  rw [Placed.publish, bind_eq_ok]
  constructor
  · rintro ⟨dep', hdep, h⟩
    cases h
    exact ⟨dep', hdep, rfl⟩
  · rintro ⟨dep', hdep, rfl⟩
    exact ⟨dep', hdep, rfl⟩

theorem elaborateRegistry_eq_ok {d d' : DetailedTomlDependency} :
    d.elaborateRegistry env = .ok d' ↔
      (d.registry = none ∧ d' = d) ∨ ∃ registry src, d.registry = some registry ∧
        env.altRegistry registry = .ok src ∧
        d' = { d with registry := none, registryIndex := some (String.ofList src.url.asStr) } := by
  unfold DetailedTomlDependency.elaborateRegistry
  split
  · rename_i registry hregistry
    rw [bind_eq_ok]
    constructor
    · rintro ⟨src, hsrc, h⟩
      cases h
      exact .inr ⟨registry, src, hregistry, hsrc, rfl⟩
    · rintro (⟨h, -⟩ | ⟨_, src, h, hsrc, rfl⟩)
      · rw [hregistry] at h
        cases h
      · rw [hregistry] at h
        cases h
        exact ⟨src, hsrc, rfl⟩
  · rename_i hregistry
    simp [hregistry, eq_comm]

/-- A version alone is published as a table with only the version. -/
theorem mapDependency_eq_ok {dep dep' : TomlDependency} :
    mapDependency env dep = .ok dep' ↔
      ∃ d', { dep.detail with path := none }.elaborateRegistry env = .ok d' ∧
        dep' = .detailed d' := by
  cases dep with
  | simple version =>
    rw [mapDependency]
    constructor
    · intro h
      cases h
      exact ⟨_, rfl, rfl⟩
    · rintro ⟨d', h, rfl⟩
      cases h
      rfl
  | detailed d =>
    rw [mapDependency, bind_eq_ok]
    constructor
    · rintro ⟨d', h, heq⟩
      cases heq
      exact ⟨d', h, rfl⟩
    · rintro ⟨d', h, rfl⟩
      exact ⟨d', h, rfl⟩

/-- Nothing that would be rewritten is left. -/
theorem mapDependency_again {dep dep' : TomlDependency} (h : mapDependency env dep = .ok dep') :
    mapDependency env dep' = .ok dep' := by
  obtain ⟨d', hd, rfl⟩ := mapDependency_eq_ok.mp h
  refine mapDependency_eq_ok.mpr ⟨d', elaborateRegistry_eq_ok.mpr (.inl ?_), rfl⟩
  rcases elaborateRegistry_eq_ok.mp hd with ⟨hregistry, rfl⟩ | ⟨_, _, _, _, rfl⟩
  · exact ⟨hregistry, rfl⟩
  · exact ⟨rfl, rfl⟩

/-! ### The whole manifest -/

/-- The entries of a table are published one by one. -/
theorem mapDeps_entries {deps deps' : Option (Table TomlDependency)}
    (h : mapDeps env deps = .ok deps') (platform : Option String) (kind : DepKind) :
    List.Forall₂ (fun e e' => e.publish env = .ok e') (entriesOf platform kind deps)
      (entriesOf platform kind deps') := by
  rcases mapOption_eq_ok.mp h with ⟨rfl, rfl⟩ | ⟨table, table', rfl, rfl, htable⟩
  · exact .nil
  · rw [entriesOf, entriesOf, List.forall₂_map_left_iff, List.forall₂_map_right_iff]
    refine (mapTable_eq_ok.mp htable).imp fun entry entry' hentry => ?_
    exact publish_eq_ok.mpr ⟨entry'.2, hentry.1, by rw [hentry.2]⟩

theorem mapDeps_keys {deps deps' : Option (Table TomlDependency)}
    (h : mapDeps env deps = .ok deps') : (deps'.getD []).map (·.1) = (deps.getD []).map (·.1) := by
  rcases mapOption_eq_ok.mp h with ⟨rfl, rfl⟩ | ⟨table, table', rfl, rfl, htable⟩
  · rfl
  · rw [Option.getD_some, Option.getD_some]
    induction mapTable_eq_ok.mp htable with
    | nil => rfl
    | cons hentry htail ih =>
      rw [List.map_cons, List.map_cons, hentry.2, ih]
      · exact mapTable_eq_ok.mpr htail
      · exact mapOption_eq_ok.mpr (.inr ⟨_, _, rfl, rfl, mapTable_eq_ok.mpr htail⟩)

theorem exists_mapDeps {deps : Option (Table TomlDependency)} {platform : Option String}
    {kind : DepKind}
    (h : ∀ e ∈ entriesOf platform kind deps, ∃ dep', mapDependency env e.dep = .ok dep') :
    ∃ deps', mapDeps env deps = .ok deps' := by
  refine exists_mapOption fun table htable => exists_mapTable fun entry hentry => ?_
  refine h ⟨platform, kind, entry.1, entry.2⟩ (List.mem_map.mpr ⟨entry, ?_, rfl⟩)
  rwa [htable]

/-- The tables of one target are published one by one. -/
theorem platform_eq_ok {p p' : TomlPlatform} :
    p.prepareForPublish env = .ok p' ↔
      mapDeps env p.dependencies = .ok p'.dependencies ∧
        mapDeps env (p.devDependencies.or p.devDependencies2) = .ok p'.devDependencies ∧
        mapDeps env (p.buildDependencies.or p.buildDependencies2) = .ok p'.buildDependencies ∧
        p'.devDependencies2 = none ∧ p'.buildDependencies2 = none := by
  constructor
  · intro h
    obtain ⟨dependencies, hdependencies, h⟩ := bind_eq_ok.mp h
    obtain ⟨dev, hdev, h⟩ := bind_eq_ok.mp h
    obtain ⟨build, hbuild, h⟩ := bind_eq_ok.mp h
    cases h
    exact ⟨hdependencies, hdev, hbuild, rfl, rfl⟩
  · rintro ⟨hdependencies, hdev, hbuild, hdev2, hbuild2⟩
    refine bind_eq_ok.mpr ⟨_, hdependencies, bind_eq_ok.mpr ⟨_, hdev, bind_eq_ok.mpr
      ⟨_, hbuild, ?_⟩⟩⟩
    cases p'
    cases hdev2
    cases hbuild2
    rfl

theorem platform_again {p p' : TomlPlatform} (h : p.prepareForPublish env = .ok p') :
    p'.prepareForPublish env = .ok p' := by
  obtain ⟨hdependencies, hdev, hbuild, hdev2, hbuild2⟩ := platform_eq_ok.mp h
  have again {deps deps' : Option (Table TomlDependency)} (h : mapDeps env deps = .ok deps') :
      mapDeps env deps' = .ok deps' :=
    mapOption_again (fun _ _ => mapTable_again fun _ _ => mapDependency_again) h
  refine platform_eq_ok.mpr ⟨again hdependencies, ?_, ?_, hdev2, hbuild2⟩
  · rw [hdev2, Option.or_none]
    exact again hdev
  · rw [hbuild2, Option.or_none]
    exact again hbuild

/-- The manifest `m` with the section `p` is prepared to `m'`. -/
structure Prepares (env : ManifestEnv crate R F G) (m : TomlManifest F) (p : TomlProject)
    (m' : TomlManifest F) : Prop where
  package_eq : m.package.or m.project = some p
  dependencies : mapDeps env m.dependencies = .ok m'.dependencies
  devDependencies :
    mapDeps env (m.devDependencies.or m.devDependencies2) = .ok m'.devDependencies
  buildDependencies :
    mapDeps env (m.buildDependencies.or m.buildDependencies2) = .ok m'.buildDependencies
  target : mapOption (mapTable (TomlPlatform.prepareForPublish env)) m.target = .ok m'.target
  rest : m' = { m with
    package := some { p with workspace := none }
    project := none
    dependencies := m'.dependencies
    devDependencies := m'.devDependencies
    devDependencies2 := none
    buildDependencies := m'.buildDependencies
    buildDependencies2 := none
    target := m'.target
    replace := none
    patch := none
    workspace := none }

theorem prepareForPublish_eq_ok {m m' : TomlManifest F} :
    m.prepareForPublish env = .ok m' ↔ ∃ p, Prepares env m p m' := by
  constructor
  · intro h
    obtain ⟨p, hp, h⟩ := bind_eq_ok.mp h
    obtain ⟨dependencies, hdependencies, h⟩ := bind_eq_ok.mp h
    obtain ⟨dev, hdev, h⟩ := bind_eq_ok.mp h
    obtain ⟨build, hbuild, h⟩ := bind_eq_ok.mp h
    obtain ⟨target, htarget, h⟩ := bind_eq_ok.mp h
    cases h
    exact ⟨p, sectionOf_eq_ok.mp hp, hdependencies, hdev, hbuild, htarget, rfl⟩
  · rintro ⟨p, h⟩
    refine bind_eq_ok.mpr ⟨_, sectionOf_eq_ok.mpr h.package_eq, bind_eq_ok.mpr ⟨_, h.dependencies,
      bind_eq_ok.mpr ⟨_, h.devDependencies, bind_eq_ok.mpr ⟨_, h.buildDependencies,
      bind_eq_ok.mpr ⟨_, h.target, ?_⟩⟩⟩⟩⟩
    exact congrArg Except.ok h.rest.symm

namespace Prepares

variable {m m' : TomlManifest F} {p : TomlProject} (h : Prepares env m p m')
include h

/-- There is only one spelling left. -/
theorem rest_eq : m'.package = some { p with workspace := none } ∧ m'.project = none ∧
    m'.devDependencies2 = none ∧ m'.buildDependencies2 = none := by
  rw [h.rest]
  exact ⟨rfl, rfl, rfl, rfl⟩

/-- These are not looked at, or dropped. -/
theorem rest_same : m'.cargoFeatures = m.cargoFeatures ∧ m'.features = m.features ∧
    m'.profile = m.profile ∧ m'.replace = none ∧ m'.patch = none ∧ m'.workspace = none := by
  rw [h.rest]
  exact ⟨rfl, rfl, rfl, rfl, rfl, rfl⟩

/-- Each target has its tables published. -/
theorem target_forall₂ : List.Forall₂
    (fun entry entry' => entry.2.prepareForPublish env = .ok entry'.2 ∧ entry'.1 = entry.1)
    (m.target.getD []) (m'.target.getD []) := by
  rcases mapOption_eq_ok.mp h.target with ⟨hm, hm'⟩ | ⟨table, table', hm, hm', htable⟩
  · rw [hm, hm']
    exact .nil
  · rw [hm, hm']
    exact mapTable_eq_ok.mp htable

/-- Each entry is published on its own. -/
theorem placed : List.Forall₂ (fun e e' => e.publish env = .ok e') m.placed m'.placed := by
  obtain ⟨-, -, hdev2, hbuild2⟩ := h.rest_eq
  unfold TomlManifest.placed
  rw [hdev2, hbuild2, Option.or_none, Option.or_none]
  refine List.rel_append (List.rel_append (List.rel_append
    (mapDeps_entries h.dependencies _ _) (mapDeps_entries h.devDependencies _ _))
    (mapDeps_entries h.buildDependencies _ _)) ?_
  refine List.rel_flatMap h.target_forall₂ fun entry entry' hentry => ?_
  obtain ⟨hdeps, hdev, hbuild, hdev2, hbuild2⟩ := platform_eq_ok.mp hentry.1
  unfold platformEntries
  rw [hdev2, hbuild2, Option.or_none, Option.or_none, hentry.2]
  exact List.rel_append (List.rel_append (mapDeps_entries hdeps _ _)
    (mapDeps_entries hbuild _ _)) (mapDeps_entries hdev _ _)

/-- A manifest that has been prepared is prepared to itself. -/
theorem again : Prepares env m' { p with workspace := none } m' := by
  have again {deps deps' : Option (Table TomlDependency)} (h : mapDeps env deps = .ok deps') :
      mapDeps env deps' = .ok deps' :=
    mapOption_again (fun _ _ => mapTable_again fun _ _ => mapDependency_again) h
  obtain ⟨hpackage, hproject, hdev2, hbuild2⟩ := h.rest_eq
  refine ⟨?_, again h.dependencies, ?_, ?_, ?_, ?_⟩
  · rw [hpackage, Option.some_or]
  · rw [hdev2, Option.or_none]
    exact again h.devDependencies
  · rw [hbuild2, Option.or_none]
    exact again h.buildDependencies
  · exact mapOption_again (fun _ _ => mapTable_again fun _ _ => platform_again) h.target
  · rw [h.rest]

end Prepares

/-- A manifest can be prepared when all of its entries can be published. -/
theorem exists_prepares {m : TomlManifest F} {p : TomlProject}
    (hp : m.package.or m.project = some p)
    (h : ∀ e ∈ m.placed, ∃ dep', mapDependency env e.dep = .ok dep') :
    ∃ m', Prepares env m p m' := by
  have hfront {e : Placed} (he : e ∈ entriesOf none .normal m.dependencies ++
      entriesOf none .development (m.devDependencies.or m.devDependencies2) ++
      entriesOf none .build (m.buildDependencies.or m.buildDependencies2)) :=
    h e (List.mem_append_left _ he)
  obtain ⟨dependencies, hdependencies⟩ := exists_mapDeps fun e he =>
    hfront (List.mem_append_left _ (List.mem_append_left _ he))
  obtain ⟨devDependencies, hdevDependencies⟩ := exists_mapDeps fun e he =>
    hfront (List.mem_append_left _ (List.mem_append_right _ he))
  obtain ⟨buildDependencies, hbuildDependencies⟩ := exists_mapDeps fun e he =>
    hfront (List.mem_append_right _ he)
  -- the entries of platforms are listed last
  have hplatform (table : Table TomlPlatform) (htable : m.target = some table) :
      ∃ table', mapTable (TomlPlatform.prepareForPublish env) table = .ok table' := by
    refine exists_mapTable fun entry hentry => ?_
    have hentries (e : Placed) (he : e ∈ platformEntries entry) :
        ∃ dep', mapDependency env e.dep = .ok dep' := by
      refine h e (List.mem_append_right _ (List.mem_flatMap.mpr ⟨entry, ?_, he⟩))
      rwa [htable]
    obtain ⟨dependencies, hdependencies⟩ := exists_mapDeps fun e he =>
      hentries e (List.mem_append_left _ (List.mem_append_left _ he))
    obtain ⟨buildDependencies, hbuildDependencies⟩ := exists_mapDeps fun e he =>
      hentries e (List.mem_append_left _ (List.mem_append_right _ he))
    obtain ⟨devDependencies, hdevDependencies⟩ := exists_mapDeps fun e he =>
      hentries e (List.mem_append_right _ he)
    exact ⟨⟨dependencies, buildDependencies, none, devDependencies, none⟩,
      platform_eq_ok.mpr ⟨hdependencies, hdevDependencies, hbuildDependencies, rfl, rfl⟩⟩
  obtain ⟨target, htarget⟩ := exists_mapOption hplatform
  exact ⟨{ m with
    package := some { p with workspace := none }
    project := none
    dependencies
    devDependencies
    devDependencies2 := none
    buildDependencies
    buildDependencies2 := none
    target
    replace := none
    patch := none
    workspace := none },
    ⟨hp, hdependencies, hdevDependencies, hbuildDependencies, htarget, rfl⟩⟩

end Cargo.Util
