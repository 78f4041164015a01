import Cargo.Core.SourceId.Text
import Cargo.Util.Toml.Publish

/-!
# How a published entry is read

What is rewritten in an entry that is published only concerns its source: an entry with a path
gets the source of the registry that it names, and all others keep theirs, as far as sources are
compared. The index of a registry is read as it was printed, which is documented of urls.

## Main definitions

* `DetailedTomlDependency.IsPath`, `DetailedTomlDependency.registryNamed`
* `Placed.publishedSource` — where a published entry comes from
* `Published` — what has become of a dependency

## Main results

* `read_publish_iff` — when a published entry can be read
* `publishedSource_of_not_isPath` — an entry without a path keeps its source
* `readAs_publish_iff` — the same for all entries
-/

set_option autoImplicit false

namespace Cargo.Util

open Cargo.Core Cargo.Math

/-- A dependency on a directory. -/
def DetailedTomlDependency.IsPath (d : DetailedTomlDependency) : Prop :=
  d.git = none ∧ d.path.isSome

section Sources

variable {crate : UrlCrate} {R F G : Type} (env : ManifestEnv crate R F G)

/-- The registry that a dependency names, or the default one. -/
def DetailedTomlDependency.registryNamed (d : DetailedTomlDependency) :
    Except ManifestError (SourceId crate) :=
  match d.registry, d.registryIndex with
  | some registry, _ => env.altRegistry registry
  | none, some index => do
    let url ← toUrl crate index
    newSource .registry url
  | none, none => env.cratesIo

/-- Where the package comes from for those who have got the published manifest. -/
def Placed.publishedSource (e : Placed) : Except ManifestError (SourceId crate) :=
  if e.dep.detail.git.isSome then e.dep.detail.newSourceId env e.name
  else e.dep.detail.registryNamed env

end Sources

variable {crate : UrlCrate} {R F G : Type} {env : ManifestEnv crate R F G} {features : Features}

/-! ### What an entry that is read is like -/

theorem toDependency_eq_ok {d : DetailedTomlDependency} {platform : Option Platform}
    {kind : DepKind} {name : String} {dep : Dependency (SourceId crate) R} :
    d.toDependency env features platform kind name = .ok dep ↔
      ∃ id src req, d.registryId env features = .ok id ∧ d.newSourceId env name = .ok src ∧
        d.versionReq env (d.package.getD name) = .ok req ∧
        features.requireIf d.package.isSome .renameDependency = .ok () ∧
        dep = {
          name := d.package.getD name
          sourceId := src
          registryId := some id
          req
          specifiedReq := d.version.isSome
          kind
          onlyMatchName := false
          explicitNameInToml := d.package.map fun _ => name
          optional := d.optional.getD false
          defaultFeatures := (d.defaultFeatures.or d.defaultFeatures2).getD true
          features := d.features.getD []
          platform } := by
  constructor
  · intro h
    obtain ⟨id, hid, h⟩ := bind_eq_ok.mp h
    obtain ⟨src, hsrc, h⟩ := bind_eq_ok.mp h
    obtain ⟨req, hreq, h⟩ := bind_eq_ok.mp h
    obtain ⟨_, hrename, h⟩ := bind_eq_ok.mp h
    cases h
    exact ⟨id, src, req, hid, hsrc, hreq, hrename, rfl⟩
  · rintro ⟨id, src, req, hid, hsrc, hreq, hrename, rfl⟩
    exact bind_eq_ok.mpr ⟨id, hid, bind_eq_ok.mpr ⟨src, hsrc, bind_eq_ok.mpr ⟨req, hreq,
      bind_eq_ok.mpr ⟨(), hrename, rfl⟩⟩⟩⟩

theorem read_eq_ok {e : Placed} {dep : Dependency (SourceId crate) R} :
    e.read env features = .ok dep ↔
      ∃ platform, mapOption env.parsePlatform e.platform = .ok platform ∧
        e.dep.detail.toDependency env features platform e.kind e.name = .ok dep := by
  rw [Placed.read, bind_eq_ok]
  rfl

/-- A dependency has the name of its entry. -/
theorem nameInToml_of_read {e : Placed} {dep : Dependency (SourceId crate) R}
    (h : e.read env features = .ok dep) : dep.nameInToml = e.name := by
  obtain ⟨platform, -, h⟩ := read_eq_ok.mp h
  obtain ⟨id, src, req, -, -, -, -, rfl⟩ := toDependency_eq_ok.mp h
  unfold Dependency.nameInToml
  cases e.dep.detail.package <;> rfl

/-- An entry that is read can be published. -/
theorem exists_mapDependency {e : Placed} {dep : Dependency (SourceId crate) R}
    (h : e.read env features = .ok dep) : ∃ dep', mapDependency env e.dep = .ok dep' := by
  obtain ⟨platform, -, h⟩ := read_eq_ok.mp h
  obtain ⟨id, src, req, hid, -⟩ := toDependency_eq_ok.mp h
  unfold DetailedTomlDependency.registryId at hid
  split at hid
  · rename_i registry hregistry
    obtain ⟨_, -, hid⟩ := bind_eq_ok.mp hid
    exact ⟨_, mapDependency_eq_ok.mpr ⟨_, elaborateRegistry_eq_ok.mpr
      (.inr ⟨registry, id, hregistry, hid, rfl⟩), rfl⟩⟩
  · rename_i hregistry
    exact ⟨_, mapDependency_eq_ok.mpr ⟨_, elaborateRegistry_eq_ok.mpr (.inl ⟨hregistry, rfl⟩),
      rfl⟩⟩

/-- Only an entry without a `registry` can have a repository. -/
theorem registry_none_of_git {d : DetailedTomlDependency} {name git : String}
    {src : SourceId crate} (hgit : d.git = some git) (h : d.newSourceId env name = .ok src) :
    d.registry = none ∧ d.registryIndex = none := by
  unfold DetailedTomlDependency.newSourceId at h
  rw [hgit] at h
  cases hregistry : d.registry with
  | some registry => simp [hregistry] at h
  | none =>
    cases hindex : d.registryIndex with
    | some index => simp [hregistry, hindex] at h
    | none => exact ⟨rfl, rfl⟩

/-- An entry without a path keeps its source. -/
theorem publishedSource_of_not_isPath {e : Placed} {dep : Dependency (SourceId crate) R}
    (h : e.read env features = .ok dep) (hpath : ¬ e.dep.detail.IsPath) :
    e.publishedSource env = .ok dep.sourceId := by
  obtain ⟨platform, -, h⟩ := read_eq_ok.mp h
  obtain ⟨id, src, req, -, hsrc, -, -, rfl⟩ := toDependency_eq_ok.mp h
  unfold Placed.publishedSource
  cases hgit : e.dep.detail.git with
  | some git => exact hsrc
  | none =>
    have hnone : e.dep.detail.path = none := by
      by_contra hsome
      exact hpath ⟨hgit, Option.isSome_iff_ne_none.mpr hsome⟩
    unfold DetailedTomlDependency.newSourceId at hsrc
    unfold DetailedTomlDependency.registryNamed
    rw [hgit, hnone] at hsrc
    cases hregistry : e.dep.detail.registry with
    | some registry =>
      cases hindex : e.dep.detail.registryIndex with
      | some index => simp [hregistry, hindex] at hsrc
      | none =>
        rw [hregistry, hindex] at hsrc
        exact hsrc
    | none =>
      cases hindex : e.dep.detail.registryIndex with
      | some index =>
        rw [hregistry, hindex] at hsrc
        exact hsrc
      | none =>
        rw [hregistry, hindex] at hsrc
        exact hsrc

/-! ### The index of a registry -/

theorem newSource_eq_ok {kind : Kind} {url : Url} {src : SourceId crate}
    (h : newSource kind url = .ok src) : SourceId.new kind url = .ok src :=
  mapError_eq_ok.mp h

/-- The index of a registry is read as the source of the registry, but for its name. -/
theorem read_index (hurls : crate.ReadsUrls) {registry : String} {src : SourceId crate}
    (h : env.altRegistry registry = .ok src) :
    ∃ src', (do
      let url ← toUrl crate (String.ofList src.url.asStr)
      newSource .registry url : Except ManifestError (SourceId crate)) = .ok src' ∧
        src'.eq src := by
  obtain ⟨url, hurl, h⟩ := bind_eq_ok.mp h
  obtain ⟨src', hsrc', h⟩ := bind_eq_ok.mp h
  cases h
  have hparsed : ∃ t, crate.parse t = .ok url := by
    obtain ⟨index, -, hurl⟩ := bind_eq_ok.mp hurl
    cases index with
    | none => cases hurl
    | some index =>
      obtain ⟨url', hurl', hurl⟩ := bind_eq_ok.mp hurl
      split at hurl
      · cases hurl
      · cases hurl
        exact ⟨_, mapError_eq_ok.mp hurl'⟩
  obtain ⟨t, ht⟩ := hparsed
  obtain ⟨heq, -⟩ := SourceId.new_ok (newSource_eq_ok hsrc')
  have hbase := cannotBeABase_of_canonicalizeUrl src'.canonical_eq
  rw [heq] at hbase
  refine ⟨src', bind_eq_ok.mpr ⟨url, ?_, hsrc'⟩, ?_⟩
  · change (crate.parse (String.ofList src'.url.asStr).toList).mapError _ = _
    rw [heq, String.toList_ofList, hurls.parse_asStr t url ht hbase]
    rfl
  · exact (SourceId.eq_iff _ _).mpr ⟨rfl, .inl rfl⟩

/-! ### One entry -/

/-- The published entry is read as a dependency whenever its source is known, and then it has
this source. -/
theorem newSourceId_publish (hurls : crate.ReadsUrls) {e : Placed}
    {dep : Dependency (SourceId crate) R} (h : e.read env features = .ok dep)
    {d' : DetailedTomlDependency}
    (hd : { e.dep.detail with path := none }.elaborateRegistry env = .ok d') :
    (∀ s, e.publishedSource env = .ok s → ∃ src, d'.newSourceId env e.name = .ok src ∧ src.eq s) ∧
      ∀ src, d'.newSourceId env e.name = .ok src →
        ∃ s, e.publishedSource env = .ok s ∧ src.eq s := by
  -- both are the same source, unless a registry is given by its name
  have hsame (heq : d'.newSourceId env e.name = e.publishedSource env) :
      (∀ s, e.publishedSource env = .ok s →
        ∃ src, d'.newSourceId env e.name = .ok src ∧ src.eq s) ∧
      ∀ src, d'.newSourceId env e.name = .ok src →
        ∃ s, e.publishedSource env = .ok s ∧ src.eq s := by
    rw [heq]
    exact ⟨fun s hs => ⟨s, hs, SourceId.eq_refl s⟩, fun s hs => ⟨s, hs, SourceId.eq_refl s⟩⟩
  obtain ⟨platform, -, h⟩ := read_eq_ok.mp h
  obtain ⟨id, src, req, hid, hsrc, -, -, rfl⟩ := toDependency_eq_ok.mp h
  rcases elaborateRegistry_eq_ok.mp hd with ⟨hregistry, rfl⟩ | ⟨registry, s, hregistry, hs, rfl⟩
  · apply hsame
    simp only at hregistry
    unfold Placed.publishedSource
    cases hgit : e.dep.detail.git with
    | some git =>
      obtain ⟨-, hindex⟩ := registry_none_of_git hgit hsrc
      simp only [DetailedTomlDependency.newSourceId, hgit, hregistry, hindex, Option.isSome_some,
        if_true]
      rfl
    | none =>
      cases hindex : e.dep.detail.registryIndex <;>
        simp [DetailedTomlDependency.newSourceId, DetailedTomlDependency.registryNamed, hgit,
          hregistry, hindex]
  · simp only at hregistry
    have hgit : e.dep.detail.git = none := by
      cases hgit : e.dep.detail.git with
      | none => rfl
      | some git =>
        obtain ⟨hnone, -⟩ := registry_none_of_git hgit hsrc
        rw [hregistry] at hnone
        cases hnone
    have hpublished : e.publishedSource env = .ok s := by
      simp [Placed.publishedSource, DetailedTomlDependency.registryNamed, hgit, hregistry, hs]
    obtain ⟨src', hsrc', heq⟩ := read_index hurls hs
    have hread : DetailedTomlDependency.newSourceId env { e.dep.detail with
        path := none, registry := none,
        registryIndex := some (String.ofList s.url.asStr) } e.name = .ok src' := by
      simp only [DetailedTomlDependency.newSourceId, hgit]
      exact hsrc'
    rw [hpublished, hread]
    constructor
    · rintro _ ⟨⟩
      exact ⟨src', rfl, heq⟩
    · rintro _ ⟨⟩
      exact ⟨s, rfl, heq⟩

/-- What has become of the dependency `dep` of the entry `e`. -/
structure Published (env : ManifestEnv crate R F G) (e : Placed)
    (dep dep' : Dependency (SourceId crate) R) : Prop where
  kept : ∃ sourceId registryId, dep' = { dep with sourceId, registryId }
  source : ∃ s, e.publishedSource env = .ok s ∧ dep'.sourceId.eq s

/-- A published entry is read when its registry and the default one are known, and only its
source is another. -/
theorem read_publish_iff (hurls : crate.ReadsUrls) {e e' : Placed}
    {dep : Dependency (SourceId crate) R} (h : e.read env features = .ok dep)
    (he : e.publish env = .ok e') :
    ((∃ dep', e'.read env features = .ok dep') ↔
      (∃ id, env.cratesIo = .ok id) ∧ ∃ s, e.publishedSource env = .ok s) ∧
      ∀ dep', e'.read env features = .ok dep' → Published env e dep dep' := by
  obtain ⟨published, hpublished, rfl⟩ := publish_eq_ok.mp he
  obtain ⟨d', hd, rfl⟩ := mapDependency_eq_ok.mp hpublished
  obtain ⟨hto, hfrom⟩ := newSourceId_publish hurls h hd
  obtain ⟨platform, hplatform, h⟩ := read_eq_ok.mp h
  obtain ⟨id, src, req, hid, hsrc, hreq, hrename, rfl⟩ := toDependency_eq_ok.mp h
  -- the other keys are those that have been written
  have hkeys : d'.registry = none ∧ d'.version = e.dep.detail.version ∧
      d'.package = e.dep.detail.package ∧ d'.features = e.dep.detail.features ∧
      d'.optional = e.dep.detail.optional ∧
      d'.defaultFeatures = e.dep.detail.defaultFeatures ∧
      d'.defaultFeatures2 = e.dep.detail.defaultFeatures2 := by
    rcases elaborateRegistry_eq_ok.mp hd with ⟨hregistry, rfl⟩ | ⟨_, _, _, _, rfl⟩
    · exact ⟨hregistry, rfl, rfl, rfl, rfl, rfl, rfl⟩
    · exact ⟨rfl, rfl, rfl, rfl, rfl, rfl, rfl⟩
  obtain ⟨hregistry, hversion, hpackage, hfeatures, hoptional, hdefault, hdefault2⟩ := hkeys
  have hid' : d'.registryId env features = env.cratesIo := by
    simp [DetailedTomlDependency.registryId, hregistry]
  have hreq' : d'.versionReq env (d'.package.getD e.name) = .ok req := by
    rw [hpackage, ← hreq]
    simp only [DetailedTomlDependency.versionReq, hversion]
  constructor
  · constructor
    · rintro ⟨dep', hdep'⟩
      obtain ⟨_, -, hdep'⟩ := read_eq_ok.mp hdep'
      obtain ⟨id', src', _, hcrates, hsrc', -, -, rfl⟩ := toDependency_eq_ok.mp hdep'
      obtain ⟨s, hs, -⟩ := hfrom src' hsrc'
      exact ⟨⟨id', hid' ▸ hcrates⟩, s, hs⟩
    · rintro ⟨⟨id', hcrates⟩, s, hs⟩
      obtain ⟨src', hsrc', -⟩ := hto s hs
      exact ⟨_, read_eq_ok.mpr ⟨platform, hplatform, toDependency_eq_ok.mpr
        ⟨id', src', req, hid'.trans hcrates, hsrc', hreq', hpackage ▸ hrename, rfl⟩⟩⟩
  · intro dep' hdep'
    obtain ⟨platform', hplatform', hdep'⟩ := read_eq_ok.mp hdep'
    obtain ⟨id', src', req', -, hsrc', hreq'', -, rfl⟩ := toDependency_eq_ok.mp hdep'
    refine ⟨⟨src', some id', ?_⟩, hfrom src' hsrc'⟩
    have hp : platform' = platform := Except.ok.inj (hplatform'.symm.trans hplatform)
    have hr : req' = req := Except.ok.inj (hreq''.symm.trans hreq')
    simp only [hp, hr, TomlDependency.detail, hversion, hpackage, hfeatures, hoptional, hdefault,
      hdefault2]

/-! ### All entries -/

/-- The published entries are read when that is so of each of them. -/
theorem readAs_publish_iff (hurls : crate.ReadsUrls) {es es' : List Placed}
    {ds : List (Dependency (SourceId crate) R)} (h : ReadAs env features es ds)
    (he : List.Forall₂ (fun e e' => e.publish env = .ok e') es es') :
    ((∃ ds', ReadAs env features es' ds') ↔
      ∀ e ∈ es, (∃ id, env.cratesIo = .ok id) ∧ ∃ s, e.publishedSource env = .ok s) ∧
      ∀ ds', ReadAs env features es' ds' →
        List.Forall₂ (fun pair dep' => Published env pair.1 pair.2 dep') (es.zip ds) ds' := by
  induction h generalizing es' with
  | nil =>
    obtain rfl := List.forall₂_nil_left_iff.mp he
    refine ⟨⟨fun _ => by simp, fun _ => ⟨[], .nil⟩⟩, fun ds' hds' => ?_⟩
    obtain rfl := List.forall₂_nil_left_iff.mp hds'
    exact .nil
  | @cons e d es ds hd _ ih =>
    obtain ⟨e', es', he', hes', rfl⟩ := List.forall₂_cons_left_iff.mp he
    obtain ⟨hiff, hpublished⟩ := read_publish_iff hurls hd he'
    obtain ⟨ihiff, ihpublished⟩ := ih hes'
    refine ⟨?_, fun all hall => ?_⟩
    · rw [List.forall_mem_cons, ← hiff, ← ihiff]
      constructor
      · rintro ⟨all, hall⟩
        obtain ⟨d', ds', hd', hds', rfl⟩ := List.forall₂_cons_left_iff.mp hall
        exact ⟨⟨d', hd'⟩, ds', hds'⟩
      · rintro ⟨⟨d', hd'⟩, ds', hds'⟩
        exact ⟨d' :: ds', .cons hd' hds'⟩
    · obtain ⟨d', ds', hd', hds', rfl⟩ := List.forall₂_cons_left_iff.mp hall
      exact .cons (hpublished d' hd') (ihpublished ds' hds')

end Cargo.Util
