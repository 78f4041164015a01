import Cargo.Core.SourceId.Normalized
import Cargo.Math.Memo
import Cargo.Util.Toml.Published

/-!
# What a published manifest means

The manifest that `cargo publish` uploads is read by everyone who uses the package. It should
mean what the manifest in the directory means: the same package with the same targets, features
and dependencies, but for the sources of dependencies on other directories.

Three things stand in the way. A manifest can have a `package` and a `project` section, and it
is not the section that was read that is published. A registry index next to a path is not
looked at until the path is gone. And entries of one name, that had one directory as their
source, can name different registries.

## Main definitions

* `KeepsDependency`, `KeepsMeaning` — what should not be changed by publishing
* `SectionsAgree`, `Publishable` — the condition

## Main results

* `publish_preserves_iff` — publishing preserves the meaning of exactly the publishable
  manifests
-/

set_option autoImplicit false

namespace Cargo.Util

open Cargo.Core Cargo.Math

/-! ### What should be preserved -/

section Meaning

variable {crate : UrlCrate} {R F G : Type} (env : ManifestEnv crate R F G)

/-- The dependency `dep` of the entry `e` has become `dep'`. -/
structure KeepsDependency (e : Placed) (dep dep' : Dependency (SourceId crate) R) : Prop where
  nameInToml : dep'.nameInToml = dep.nameInToml
  name : dep'.name = dep.name
  req : dep'.req = dep.req
  specifiedReq : dep'.specifiedReq = dep.specifiedReq
  kind : dep'.kind = dep.kind
  platform : dep'.platform = dep.platform
  features : dep'.features = dep.features
  optional : dep'.optional = dep.optional
  defaultFeatures : dep'.defaultFeatures = dep.defaultFeatures
  /-- A dependency on a directory has become one on the registry that it names. -/
  pathSource : e.dep.detail.IsPath →
    ∃ src, e.dep.detail.registryNamed env = .ok src ∧ dep'.sourceId.eq src
  source : ¬ e.dep.detail.IsPath → dep'.sourceId.eq dep.sourceId

/-- The manifest `r` of `m` is the manifest `r'` of what is published. -/
structure KeepsMeaning (m : TomlManifest F) (r r' : Manifest crate R F G) : Prop where
  name : r'.summary.packageId.name = r.summary.packageId.name
  version : r'.summary.packageId.version = r.summary.packageId.version
  edition : r'.edition = r.edition
  links : r'.links = r.links
  features : r'.summary.features = r.summary.features
  /-- Part of what the features mean. -/
  namespaced : r'.summary.namespacedFeatures = r.summary.namespacedFeatures
  targets : r'.targets = r.targets
  dependencies : List.Forall₂ (fun pair dep' => KeepsDependency env pair.1 pair.2 dep')
    (m.placed.zip r.summary.dependencies) r'.summary.dependencies
  replace : r'.replace = []
  patch : r'.patch = ∅
  workspace : r'.workspace = .member none

/-- The manifest `m`, which is read as `r`, is published without a change of its meaning. -/
def PublishPreserves (m : TomlManifest F) (r : Manifest crate R F G) : Prop :=
  ∃ m' r', m.prepareForPublish env = .ok m' ∧ toRealManifest env m' = .ok r' ∧
    KeepsMeaning env m r r' ∧ m'.prepareForPublish env = .ok m'

end Meaning

/-! ### When it is preserved -/

/-- The features of cargo that the keys of a section need. -/
def TomlProject.uses (p : TomlProject) : Feature → Bool
  | .metabuild => p.metabuild.isSome
  | .namespacedFeatures => p.namespacedFeatures.isSome
  | .alternativeRegistries =>
    match p.publish with
    | some (.vecString _) => true
    | _ => false
  | .publishLockfile => p.publishLockfile.isSome
  | .testDummyUnstable => p.imATeapot.isSome
  | .defaultRun => p.defaultRun.isSome
  | _ => false

section Publishable

variable {crate : UrlCrate} {R F G : Type} (env : ManifestEnv crate R F G)

/-- The section `p`, which is published, says what the section `q` says, which is read. -/
structure SectionsAgree (features : Features) (edition : Edition) (m : TomlManifest F)
    (p q : TomlProject) : Prop where
  name : p.name = q.name
  version : p.version = q.version
  edition_eq : readEdition features p.edition = .ok edition
  links : p.links = q.links
  namespaced : p.namespacedFeatures.getD false = q.namespacedFeatures.getD false
  build : customBuild env.layout edition p.build p.metabuild =
    customBuild env.layout edition q.build q.metabuild
  metabuild : metabuildTargets (m.buildDependencies.or m.buildDependencies2) p.metabuild p.name =
    metabuildTargets m.buildDependencies q.metabuild p.name
  /-- What the section uses is turned on. -/
  allowed : ∀ f, p.uses f → f.isStable ∨ f ∈ features

/-- The manifests that are published without a change of their meaning. -/
structure Publishable (m : TomlManifest F) : Prop where
  /-- When there are both sections, they agree. -/
  sections : ∀ p q features edition, m.package = some p → m.project = some q →
    Features.new env.nightly (m.cargoFeatures.getD []) = .ok features →
    readEdition features q.edition = .ok edition → SectionsAgree env features edition m p q
  /-- The default registry is known, if there are dependencies at all. -/
  cratesIo : m.placed ≠ [] → ∃ src, env.cratesIo = .ok src
  /-- The registries of dependencies on directories are known. -/
  registries : ∀ e ∈ m.placed, e.dep.detail.IsPath →
    ∃ src, e.dep.detail.registryNamed env = .ok src
  /-- One name comes from one source also after the paths have been dropped. -/
  sources : ∀ e ∈ m.placed, ∀ e' ∈ m.placed, e.name = e'.name →
    ∀ src src', e.publishedSource env = .ok src → e'.publishedSource env = .ok src' → src.eq src'

end Publishable

variable {crate : UrlCrate} {R F G : Type} {env : ManifestEnv crate R F G} {features : Features}

/-! ### The keys of a section -/

theorem require_eq_ok {feature : Feature} :
    features.require feature = .ok () ↔ feature.isStable ∨ feature ∈ features := by
  unfold Features.require
  split
  · rename_i h
    simp [h]
  · rename_i h
    simp [h]

theorem requireIf_eq_ok {used : Bool} {feature : Feature} :
    features.requireIf used feature = .ok () ↔ (used → feature.isStable ∨ feature ∈ features) := by
  cases used with
  | false => simp [Features.requireIf]
  | true => simp [Features.requireIf, require_eq_ok]

theorem exists_readPublish {p : TomlProject} :
    (∃ publish, readPublish features p.publish = .ok publish) ↔
      (p.uses .alternativeRegistries →
        Feature.alternativeRegistries.isStable ∨ .alternativeRegistries ∈ features) := by
  unfold TomlProject.uses
  cases p.publish with
  | none => simp [readPublish]
  | some publish =>
    cases publish with
    | bool b => cases b <;> simp [readPublish]
    | vecString registries =>
      simp only [readPublish, bind_eq_ok, true_imp_iff, ← require_eq_ok]
      exact ⟨fun ⟨_, _, h, _⟩ => h, fun h => ⟨some registries, (), h, rfl⟩⟩

theorem exists_readPublishLockfile {p : TomlProject} :
    (∃ b, readPublishLockfile features p.publishLockfile = .ok b) ↔
      (p.uses .publishLockfile →
        Feature.publishLockfile.isStable ∨ .publishLockfile ∈ features) := by
  unfold TomlProject.uses
  cases p.publishLockfile with
  | none => simp [readPublishLockfile]
  | some b =>
    simp only [readPublishLockfile, bind_eq_ok, Option.isSome_some, true_imp_iff,
      ← require_eq_ok]
    exact ⟨fun ⟨_, _, h, _⟩ => h, fun h => ⟨b, (), h, rfl⟩⟩

/-- The features that the section uses are turned on. -/
theorem Reads.allowed {m : TomlManifest F} {q : TomlProject} {r : Manifest crate R F G}
    (h : Reads env m q r) (f : Feature) (hf : q.uses f) : f.isStable ∨ f ∈ r.features := by
  have hgate := h.gate
  unfold Manifest.featureGate at hgate
  obtain ⟨_, hteapot, hrun⟩ := bind_eq_ok.mp hgate
  rw [h.rest] at hteapot hrun
  cases f with
  | metabuild => exact requireIf_eq_ok.mp h.metabuild hf
  | namespacedFeatures => exact requireIf_eq_ok.mp h.namespaced hf
  | alternativeRegistries => exact exists_readPublish.mp ⟨_, h.publish⟩ hf
  | publishLockfile => exact exists_readPublishLockfile.mp ⟨_, h.publishLockfile⟩ hf
  | testDummyUnstable => exact requireIf_eq_ok.mp hteapot hf
  | defaultRun => exact requireIf_eq_ok.mp hrun hf
  | testDummyStable => cases hf
  | edition => cases hf
  | renameDependency => cases hf
  | profileOverrides => cases hf

/-! ### The section that is published -/

/-- The packages that are built with are still there. -/
theorem metabuildTargets_congr {table table' : Option (Table TomlDependency)}
    {metabuild : Option (List String)} {name : String}
    (h : (table.getD []).map (·.1) = (table'.getD []).map (·.1)) :
    metabuildTargets table metabuild name = metabuildTargets table' metabuild name := by
  unfold metabuildTargets
  rw [h]

/-- The table with the dash has been enough. -/
theorem metabuildTargets_or {table table2 : Option (Table TomlDependency)}
    {metabuild : Option (List String)} {name : String} {metas : List Target}
    (h : metabuildTargets table metabuild name = .ok metas) :
    metabuildTargets (table.or table2) metabuild name = metabuildTargets table metabuild name := by
  cases table with
  | some entries => rfl
  | none =>
    unfold metabuildTargets at h ⊢
    cases metabuild with
    | none => rfl
    | some names =>
      cases names with
      | nil => rfl
      | cons n names => simp at h

/-- One section agrees with itself, and two when they are demanded to. -/
theorem Reads.sectionsAgree {m : TomlManifest F} {p q : TomlProject} {r : Manifest crate R F G}
    (h : Reads env m q r) (hp : m.package.or m.project = some p)
    (hsections : ∀ p q features edition, m.package = some p → m.project = some q →
      Features.new env.nightly (m.cargoFeatures.getD []) = .ok features →
      readEdition features q.edition = .ok edition → SectionsAgree env features edition m p q) :
    SectionsAgree env r.features r.edition m p q := by
  have hq := h.project_eq
  have hsame (heq : p = q) : SectionsAgree env r.features r.edition m p q := by
    subst heq
    obtain ⟨package, code, script, metas, hpackage, -, -, hmetas, -⟩ :=
      targets_eq_ok.mp h.targets
    rw [hp] at hpackage
    cases hpackage
    exact ⟨rfl, rfl, h.edition, rfl, rfl, rfl, metabuildTargets_or hmetas, h.allowed⟩
  cases hpackage : m.package with
  | none =>
    rw [hpackage, Option.none_or] at hp
    rw [hp, Option.some_or] at hq
    exact hsame (Option.some.inj hq)
  | some p' =>
    rw [hpackage, Option.some_or] at hp
    cases hproject : m.project with
    | none =>
      rw [hproject, hpackage, Option.none_or] at hq
      exact hsame (Option.some.inj (hp.symm.trans hq))
    | some q' =>
      rw [hproject, Option.some_or] at hq
      cases hp
      cases hq
      exact hsections p q r.features r.edition hpackage hproject h.features h.edition

/-! ### The dependencies that are published -/

theorem publishedSource_of_isPath {e : Placed} (h : e.dep.detail.IsPath) :
    e.publishedSource env = e.dep.detail.registryNamed env := by
  rw [Placed.publishedSource, h.1]
  rfl

/-- Only the registries of dependencies on directories can be unknown. -/
theorem entries_known_iff {es : List Placed} {ds : List (Dependency (SourceId crate) R)}
    (hread : ReadAs env features es ds) :
    (∀ e ∈ es, (∃ id, env.cratesIo = .ok id) ∧ ∃ s, e.publishedSource env = .ok s) ↔
      (es ≠ [] → ∃ id, env.cratesIo = .ok id) ∧
        ∀ e ∈ es, e.dep.detail.IsPath → ∃ s, e.dep.detail.registryNamed env = .ok s := by
  have hall : ∀ e ∈ es, ∃ d, e.read env features = .ok d :=
    forall_mem_of_forall₂ hread (Q := fun _ => True) (fun e d hd _ => ⟨d, hd⟩) fun _ _ => trivial
  constructor
  · intro h
    refine ⟨fun hne => ?_, fun e he hpath => ?_⟩
    · obtain ⟨e, he⟩ := List.exists_mem_of_ne_nil es hne
      exact (h e he).1
    · rw [← publishedSource_of_isPath hpath]
      exact (h e he).2
  · rintro ⟨hcrates, hpaths⟩ e he
    refine ⟨hcrates (List.ne_nil_of_mem he), ?_⟩
    by_cases hpath : e.dep.detail.IsPath
    · rw [publishedSource_of_isPath hpath]
      exact hpaths e he hpath
    · obtain ⟨d, hd⟩ := hall e he
      exact ⟨d.sourceId, publishedSource_of_not_isPath hd hpath⟩

/-- Only the source of a dependency is another. -/
theorem Published.keeps {e : Placed} {dep dep' : Dependency (SourceId crate) R}
    (h : Published env e dep dep') (hread : e.read env features = .ok dep) :
    KeepsDependency env e dep dep' := by
  obtain ⟨⟨_, _, rfl⟩, s, hs, heq⟩ := h
  refine ⟨rfl, rfl, rfl, rfl, rfl, rfl, rfl, rfl, rfl, fun hpath => ⟨s, ?_, heq⟩,
    fun hpath => ?_⟩
  · rw [← publishedSource_of_isPath hpath]
    exact hs
  · rw [publishedSource_of_not_isPath hread hpath] at hs
    cases hs
    exact heq

theorem Published.sameUse {e : Placed} {dep dep' : Dependency (SourceId crate) R}
    (h : Published env e dep dep') : SameUse dep dep' := by
  obtain ⟨_, _, rfl⟩ := h.kept
  exact ⟨rfl, rfl, rfl⟩

/-- The dependency is that of the entry after it has been published. -/
def ComesFrom (env : ManifestEnv crate R F G) (e : Placed) (dep' : Dependency (SourceId crate) R) :
    Prop :=
  dep'.nameInToml = e.name ∧ ∃ s, e.publishedSource env = .ok s ∧ dep'.sourceId.eq s

theorem published_forall₂ {es : List Placed} {ds ds' : List (Dependency (SourceId crate) R)}
    (hread : ReadAs env features es ds)
    (h : List.Forall₂ (fun pair dep' => Published env pair.1 pair.2 dep') (es.zip ds) ds') :
    List.Forall₂ (fun pair dep' => KeepsDependency env pair.1 pair.2 dep') (es.zip ds) ds' ∧
      List.Forall₂ SameUse ds ds' ∧ List.Forall₂ (ComesFrom env) es ds' := by
  induction hread generalizing ds' with
  | nil =>
    obtain rfl := List.forall₂_nil_left_iff.mp h
    exact ⟨.nil, .nil, .nil⟩
  | @cons e d es ds hd _ ih =>
    obtain ⟨d', ds', hd', hds', rfl⟩ := List.forall₂_cons_left_iff.mp h
    obtain ⟨hkeeps, huse, hfrom⟩ := ih hds'
    have hname : d'.nameInToml = e.name :=
      hd'.sameUse.nameInToml.trans (nameInToml_of_read hd)
    exact ⟨.cons (hd'.keeps hd) hkeeps, .cons hd'.sameUse huse,
      .cons ⟨hname, hd'.source⟩ hfrom⟩

/-- The names have single sources when those of the entries agree. -/
theorem checkSources_published {es : List Placed} {ds' : List (Dependency (SourceId crate) R)}
    (h : List.Forall₂ (ComesFrom env) es ds') :
    checkSources ds' = .ok () ↔ ∀ e ∈ es, ∀ e' ∈ es, e.name = e'.name → ∀ src src',
      e.publishedSource env = .ok src → e'.publishedSource env = .ok src' → src.eq src' := by
  rw [checkSources_eq_ok]
  symm
  refine forall_mem_iff_of_forall₂ h fun e d ⟨hname, s, hs, heq⟩ =>
    forall_mem_iff_of_forall₂ h fun e' d' ⟨hname', s', hs', heq'⟩ => ?_
  rw [hname, hname', hs, hs']
  constructor
  · intro hsame hnames
    exact SourceId.eq_trans heq (SourceId.eq_trans (hsame hnames s s' rfl rfl)
      (SourceId.eq_symm heq'))
  · rintro hsame hnames _ _ ⟨⟩ ⟨⟩
    exact SourceId.eq_trans (SourceId.eq_symm heq) (SourceId.eq_trans (hsame hnames) heq')

/-! ### The manifest that is published -/

section Prepared

variable {m m' : TomlManifest F} {p q : TomlProject} {r : Manifest crate R F G}

theorem Prepares.codeTargets_eq (h : Prepares env m p m') (packageName : String)
    (edition : Edition) :
    codeTargets env.layout features m' packageName edition { p with workspace := none } =
      codeTargets env.layout features m packageName edition p := by
  rw [h.rest]
  rfl

theorem Prepares.metabuildTargets_eq (h : Prepares env m p m') (metabuild : Option (List String))
    (name : String) : metabuildTargets m'.buildDependencies metabuild name =
      metabuildTargets (m.buildDependencies.or m.buildDependencies2) metabuild name :=
  metabuildTargets_congr (mapDeps_keys h.buildDependencies)

/-- The targets that are published are those that have been read. -/
theorem Prepares.platforms (h : Prepares env m p m')
    (hparsed : ∀ entry ∈ m.target.getD [], ∃ platform, env.parsePlatform entry.1 = .ok platform) :
    ∀ entry ∈ m'.target.getD [], ∃ platform, env.parsePlatform entry.1 = .ok platform := by
  refine forall_mem_of_forall₂ (List.Forall₂.flip h.target_forall₂) ?_ hparsed
  intro entry' entry hentry hparsed
  rw [hentry.2]
  exact hparsed

theorem Prepares.readDependencies_eq_ok (h : Prepares env m p m')
    (hread : m.readDependencies env features = .ok r.summary.dependencies)
    {ds' : List (Dependency (SourceId crate) R)} :
    m'.readDependencies env features = .ok ds' ↔ ReadAs env features m'.placed ds' := by
  have hplatforms := h.platforms (Cargo.Util.readDependencies_eq_ok.mp hread).1
  rw [Cargo.Util.readDependencies_eq_ok]
  exact ⟨fun h => h.2, fun h => ⟨hplatforms, h⟩⟩

/-- What is dropped cannot be refused. -/
theorem Prepares.dropped (h : Prepares env m p m')
    (hread : m.readDependencies env features = .ok r.summary.dependencies) :
    m'.readReplace env features = .ok [] ∧ m'.readPatch env features = .ok ∅ := by
  have hplatforms := h.platforms (Cargo.Util.readDependencies_eq_ok.mp hread).1
  obtain ⟨platform, hplatform⟩ : ∃ platform, m'.lastPlatform env = .ok platform :=
    exists_mapOption fun entry hentry => hplatforms entry (List.mem_of_getLast? hentry)
  obtain ⟨-, -, -, hreplace, hpatch, -⟩ := h.rest_same
  constructor
  · rw [TomlManifest.readReplace, hreplace, hpatch, hplatform]
    rfl
  · rw [TomlManifest.readPatch, hpatch, hplatform]
    rfl

/-- The published manifest is accepted when its dependencies are. -/
theorem Reads.exists_prepared (h : Reads env m q r) (hprep : Prepares env m p m')
    (hagree : SectionsAgree env r.features r.edition m p q)
    {ds' : List (Dependency (SourceId crate) R)}
    (hds : m'.readDependencies env r.features = .ok ds') (hsources : checkSources ds' = .ok ())
    (huse : List.Forall₂ SameUse r.summary.dependencies ds') :
    ∃ r', Reads env m' { p with workspace := none } r' ∧ r'.summary.dependencies = ds' ∧
      r'.summary.features = r.summary.features ∧ r'.edition = r.edition ∧
      r'.targets = r.targets ∧ r'.replace = [] ∧ r'.patch = ∅ ∧ r'.workspace = .member none := by
  obtain ⟨hcargo, hfeatures, hprofile, -, -, hworkspace⟩ := hprep.rest_same
  obtain ⟨hpackage, hproject, -, -⟩ := hprep.rest_eq
  obtain ⟨summary, hsummary, hsame⟩ := Summary.new_sameUse huse h.summary
  obtain ⟨-, -, -, hdeps, -⟩ := Summary.new_eq_ok.mp hsummary
  obtain ⟨publish, hpublish⟩ := exists_readPublish.mpr (hagree.allowed .alternativeRegistries)
  obtain ⟨publishLockfile, hlockfile⟩ :=
    exists_readPublishLockfile.mpr (hagree.allowed .publishLockfile)
  obtain ⟨hreplace, hpatch⟩ := hprep.dropped h.dependencies
  obtain ⟨package, code, script, metas, hpackage', hcode, hscript, hmetas, htargets⟩ :=
    targets_eq_ok.mp h.targets
  rw [hprep.package_eq] at hpackage'
  cases hpackage'
  -- the manifest that is read is the old one, but for what publishing takes out
  refine ⟨{ r with
    summary
    links := p.links
    exclude := p.exclude.getD []
    include_ := p.include_.getD []
    metadata := p.manifestMetadata m'
    customMetadata := p.metadata
    publish
    publishLockfile
    replace := []
    patch := ∅
    workspace := .member none
    original := m'
    imATeapot := p.imATeapot
    defaultRun := p.defaultRun
    metabuild := p.metabuild }, ?_, hdeps, hsame, rfl, rfl, rfl, rfl, rfl⟩
  exact {
    features := by rw [hcargo]; exact h.features
    project_eq := by rw [hproject, hpackage, Option.none_or]
    name := by rw [hagree.name]; exact h.name
    edition := hagree.edition_eq
    metabuild := requireIf_eq_ok.mpr (hagree.allowed .metabuild)
    targets := by
      refine targets_eq_ok.mpr ⟨{ p with workspace := none }, code, script, metas, ?_, ?_, ?_, ?_,
        htargets⟩
      · rw [hpackage, Option.some_or]
      · rw [hprep.codeTargets_eq, hagree.name]
        exact hcode
      · rw [← hscript]
        exact hagree.build
      · rw [hprep.metabuildTargets_eq, ← hmetas]
        exact hagree.metabuild
    dependencies := by rw [hdeps]; exact hds
    replace := hreplace
    patch := hpatch
    sources := by rw [hdeps]; exact hsources
    namespaced := requireIf_eq_ok.mpr (hagree.allowed .namespacedFeatures)
    summary := by
      rw [hdeps, hfeatures, hagree.name, hagree.version, hagree.links, hagree.namespaced]
      exact hsummary
    workspace := by rw [hworkspace]; rfl
    profiles := by rw [hprofile]; exact h.profiles
    publish := hpublish
    publishLockfile := hlockfile
    rest := rfl
    gate := bind_eq_ok.mpr ⟨(), requireIf_eq_ok.mpr (hagree.allowed .testDummyUnstable),
      requireIf_eq_ok.mpr (hagree.allowed .defaultRun)⟩ }

/-- The features of cargo are the same. -/
theorem Reads.features_eq {r' : Manifest crate R F G} {q' : TomlProject} (h : Reads env m q r)
    (hprep : Prepares env m p m') (h' : Reads env m' q' r') : r'.features = r.features := by
  have hnew := h'.features
  rw [hprep.rest_same.1, h.features] at hnew
  exact (Except.ok.inj hnew).symm

/-- What is published agrees with what was read when it is read as the same. -/
theorem Reads.sectionsAgree_of_keeps {r' : Manifest crate R F G} (h : Reads env m q r)
    (hprep : Prepares env m p m') (h' : Reads env m' { p with workspace := none } r')
    (hkeeps : KeepsMeaning env m r r') : SectionsAgree env r.features r.edition m p q := by
  have hfeatures := h.features_eq hprep h'
  obtain ⟨-, -, hid, -, -, -, hflag⟩ := Summary.new_eq_ok.mp h.summary
  obtain ⟨-, -, hid', -, -, -, hflag'⟩ := Summary.new_eq_ok.mp h'.summary
  have hname := hkeeps.name
  have hversion := hkeeps.version
  have hlinks := hkeeps.links
  rw [hid, hid'] at hname hversion
  rw [h.rest, h'.rest] at hlinks
  obtain ⟨package, code, script, metas, hpackage, hcode, hscript, hmetas, htargets⟩ :=
    targets_eq_ok.mp h.targets
  obtain ⟨package', code', script', metas', hpackage', hcode', hscript', hmetas', htargets'⟩ :=
    targets_eq_ok.mp h'.targets
  rw [hprep.package_eq] at hpackage
  cases hpackage
  rw [hprep.rest_eq.1, Option.some_or] at hpackage'
  cases hpackage'
  -- the names agree, and so do all targets but the scripts
  have hsame : code' = code := by
    rw [hfeatures, hkeeps.edition, hprep.codeTargets_eq] at hcode'
    rw [show trim p.name = trim q.name from congrArg trim hname, hcode] at hcode'
    exact (Except.ok.inj hcode').symm
  have hscripts : script' ++ metas' = script ++ metas := by
    have htail := hkeeps.targets
    rw [htargets, htargets', hsame] at htail
    exact List.append_cancel_left htail
  rw [hkeeps.edition] at hscript'
  obtain ⟨rfl, rfl⟩ := scripts_inj hscript' hscript hmetas' hmetas hscripts
  rw [hprep.metabuildTargets_eq] at hmetas'
  exact {
    name := hname
    version := hversion
    edition_eq := by rw [← hfeatures, ← hkeeps.edition]; exact h'.edition
    links := hlinks
    namespaced := hflag'.symm.trans (hkeeps.namespaced.trans hflag)
    build := hscript'.trans hscript.symm
    metabuild := hmetas'.trans hmetas.symm
    allowed := fun f hf => hfeatures ▸ h'.allowed f hf }

end Prepared

/-- What is published without a change of its meaning is publishable. -/
theorem PublishPreserves.publishable (hurls : crate.ReadsUrls) {m : TomlManifest F}
    {r : Manifest crate R F G} (h : toRealManifest env m = .ok r)
    (hpreserves : PublishPreserves env m r) : Publishable env m := by
  obtain ⟨q, hq⟩ := toRealManifest_eq_ok.mp h
  have hread := (readDependencies_eq_ok.mp hq.dependencies).2
  obtain ⟨m', r', hprepare, hreal, hkeeps, -⟩ := hpreserves
  obtain ⟨p, hprep⟩ := prepareForPublish_eq_ok.mp hprepare
  obtain ⟨q', hq'⟩ := toRealManifest_eq_ok.mp hreal
  -- the manifest that is read again has the section that was published
  have hqeq : q' = { p with workspace := none } := by
    have hproject := hq'.project_eq
    rw [hprep.rest_eq.2.1, hprep.rest_eq.1, Option.none_or] at hproject
    exact (Option.some.inj hproject).symm
  rw [hqeq] at hq'
  have hagree := hq.sectionsAgree_of_keeps hprep hq' hkeeps
  have hdeps := hq'.dependencies
  rw [hq.features_eq hprep hq'] at hdeps
  have hread' := (readDependencies_eq_ok.mp hdeps).2
  obtain ⟨hiff, hpublished⟩ := readAs_publish_iff hurls hread hprep.placed
  obtain ⟨hcrates, hregistries⟩ := (entries_known_iff hread).mp (hiff.mp ⟨_, hread'⟩)
  obtain ⟨-, -, hfrom⟩ := published_forall₂ hread (hpublished _ hread')
  refine ⟨?_, hcrates, hregistries, (checkSources_published hfrom).mp hq'.sources⟩
  intro a b features edition ha hb hnew hedition
  have haeq : p = a := by
    have hpackage := hprep.package_eq
    rw [ha, Option.some_or] at hpackage
    exact (Option.some.inj hpackage).symm
  have hbeq : q = b := by
    have hproject := hq.project_eq
    rw [hb, Option.some_or] at hproject
    exact (Option.some.inj hproject).symm
  rw [hq.features] at hnew
  cases hnew
  rw [← hbeq, hq.edition] at hedition
  cases hedition
  rw [← haeq, ← hbeq]
  exact hagree

/-- What is publishable is published without a change of its meaning. -/
theorem Publishable.preserves (hurls : crate.ReadsUrls) {m : TomlManifest F}
    {r : Manifest crate R F G} (h : toRealManifest env m = .ok r)
    (hpublishable : Publishable env m) : PublishPreserves env m r := by
  obtain ⟨q, hq⟩ := toRealManifest_eq_ok.mp h
  obtain ⟨p, -, -, -, hp, -⟩ := targets_eq_ok.mp hq.targets
  have hread := (readDependencies_eq_ok.mp hq.dependencies).2
  have hagree := hq.sectionsAgree hp hpublishable.sections
  obtain ⟨m', hprep⟩ : ∃ m', Prepares env m p m' := by
    refine exists_prepares hp ?_
    exact forall_mem_of_forall₂ hread (Q := fun _ => True)
      (fun e d hd _ => exists_mapDependency hd) fun _ _ => trivial
  -- all entries can be read again, since their registries are known
  obtain ⟨hiff, hpublished⟩ := readAs_publish_iff hurls hread hprep.placed
  obtain ⟨ds', hds'⟩ := hiff.mpr ((entries_known_iff hread).mpr
    ⟨hpublishable.cratesIo, hpublishable.registries⟩)
  obtain ⟨hkeeps, huse, hfrom⟩ := published_forall₂ hread (hpublished ds' hds')
  obtain ⟨r', hr', hdeps, hfeatures, hedition, htargets, hreplace, hpatch, hworkspace⟩ :=
    hq.exists_prepared hprep hagree ((hprep.readDependencies_eq_ok hq.dependencies).mpr hds')
      ((checkSources_published hfrom).mpr hpublishable.sources) huse
  obtain ⟨-, -, hid, -, -, -, hflag⟩ := Summary.new_eq_ok.mp hq.summary
  obtain ⟨-, -, hid', -, -, -, hflag'⟩ := Summary.new_eq_ok.mp hr'.summary
  refine ⟨m', r', prepareForPublish_eq_ok.mpr ⟨p, hprep⟩, toRealManifest_eq_ok.mpr ⟨_, hr'⟩, ?_,
    prepareForPublish_eq_ok.mpr ⟨_, hprep.again⟩⟩
  exact {
    name := by rw [hid, hid']; exact hagree.name
    version := by rw [hid, hid']; exact hagree.version
    edition := hedition
    links := by rw [hq.rest, hr'.rest]; exact hagree.links
    features := hfeatures
    namespaced := by rw [hflag, hflag']; exact hagree.namespaced
    targets := htargets
    dependencies := by rw [hdeps]; exact hkeeps
    replace := hreplace
    patch := hpatch
    workspace := hworkspace }

/-- **Publishing preserves meaning** of exactly the publishable ones among the manifests that are
accepted. -/
theorem publish_preserves_iff (hurls : crate.ReadsUrls) {m : TomlManifest F}
    {r : Manifest crate R F G} (h : toRealManifest env m = .ok r) :
    PublishPreserves env m r ↔ Publishable env m :=
  ⟨PublishPreserves.publishable hurls h, Publishable.preserves hurls h⟩

/-! ### Two packages -/

/-- The default registry. -/
def indexUrl : Url := ⟨"https://example.com/index".toList⟩

/-- The directory of the package. -/
def appUrl : Url := ⟨"file:///app".toList⟩

/-- The source of the package. -/
def appSource : SourceId normalizedUrls where
  url := appUrl
  canonicalUrl := appUrl
  kind := .path
  precise := none
  name := none
  canonical_eq := by decide +kernel

/-- The directory of a package with a library and nothing else. -/
def appEnv : ManifestEnv normalizedUrls String Unit Unit where
  nightly := false
  getString := fun _ => .ok none
  cratesIo := newSource .registry indexUrl
  cratesIoIndex := indexUrl
  hasCredentials := fun _ => false
  isAlphanumeric := Char.isAlphanum
  parseReq := fun _ version => .ok version
  anyReq := "*"
  exactReq := fun _ => "="
  parsePlatform := fun s => .ok (.name s)
  parseSpec := fun s => .ok ⟨s, none, none⟩
  newProfiles := fun _ _ => .ok ()
  sourceId := appSource
  pathUrl := fun _ => .ok ⟨"file:///util".toList⟩
  layout := {
    root := [.rootDir, .normal "app"]
    exists_ := fun path => path = [.rootDir, .normal "app", .normal "src", .normal "lib.rs"]
    isFile := fun _ => false
    readDir := fun _ => [] }

/-- A section that has the required keys only. -/
def appSection (name : String) : TomlProject where
  edition := none
  name
  version := ⟨1, 0, 0, []⟩
  authors := none
  build := none
  metabuild := none
  links := none
  exclude := none
  include_ := none
  publish := none
  publishLockfile := none
  workspace := none
  imATeapot := none
  autobins := none
  autoexamples := none
  autotests := none
  autobenches := none
  namespacedFeatures := none
  defaultRun := none
  description := none
  homepage := none
  documentation := none
  readme := none
  keywords := none
  categories := none
  license := none
  licenseFile := none
  repository := none
  metadata := none

/-- A manifest with some sections and dependencies. -/
def appManifest (package project : Option TomlProject)
    (dependencies : Option (Table TomlDependency)) : TomlManifest Unit where
  cargoFeatures := none
  package
  project
  profile := none
  lib := none
  bin := none
  example_ := none
  test := none
  bench := none
  dependencies
  devDependencies := none
  devDependencies2 := none
  buildDependencies := none
  buildDependencies2 := none
  features := none
  target := none
  replace := none
  patch := none
  workspace := none
  badges := none

/-- Such a manifest is accepted when its targets and its dependencies are. -/
theorem app_accepted {package project : Option TomlProject}
    {dependencies : Option (Table TomlDependency)} {ts : List Target}
    {ds : List (Dependency (SourceId normalizedUrls) String)}
    (hproject : project.or package = some (appSection "b"))
    (htargets : targets appEnv.layout [] (appManifest package project dependencies) (trim "b")
      .edition2015 none none = .ok ts)
    (hds : (appManifest package project dependencies).readDependencies appEnv [] = .ok ds)
    (hsources : checkSources ds = .ok ())
    (hcheck : ds.foldlM (fun _ d => Summary.checkDependency ∅ false d) () = .ok ()) :
    ∃ r, toRealManifest appEnv (appManifest package project dependencies) = .ok r := by
  have hmap : buildFeatureMap (featureTable none) ds false = .ok ∅ := by
    have hsorted : sortedKeys (featureTable none) = [] := by
      simp [sortedKeys, featureTable]
    rw [buildFeatureMap, hsorted]
    rfl
  obtain ⟨summary, hsummary, -⟩ := Summary.exists_new
    ⟨"b", ⟨1, 0, 0, []⟩, appSource⟩ none hcheck hmap
  obtain ⟨-, -, -, hdeps, -⟩ := Summary.new_eq_ok.mp hsummary
  refine ⟨{
    summary
    targets := ts
    links := none
    exclude := []
    include_ := []
    metadata := (appSection "b").manifestMetadata (appManifest package project dependencies)
    customMetadata := none
    profiles := ()
    publish := none
    publishLockfile := false
    replace := []
    patch := ∅
    workspace := .member none
    original := appManifest package project dependencies
    features := []
    edition := .edition2015
    imATeapot := none
    defaultRun := none
    metabuild := none }, toRealManifest_eq_ok.mpr ⟨appSection "b", ?_⟩⟩
  exact {
    features := rfl
    project_eq := hproject
    name := rfl
    edition := rfl
    metabuild := rfl
    targets := htargets
    dependencies := by rw [hdeps]; exact hds
    replace := rfl
    patch := rfl
    sources := by rw [hdeps]; exact hsources
    namespaced := rfl
    summary := by rw [hdeps]; exact hsummary
    workspace := rfl
    profiles := rfl
    publish := rfl
    publishLockfile := rfl
    rest := rfl
    gate := rfl }

/-- The package `b`, which depends on the directory `../util`. -/
def utilManifest : TomlManifest Unit :=
  appManifest (some (appSection "b")) none
    (some [("util", .detailed { version := some "1", path := some "../util" })])

/-- The dependency on the directory is published as one on the default registry. -/
theorem publish_preserves_util :
    ∃ r, toRealManifest appEnv utilManifest = .ok r ∧ PublishPreserves appEnv utilManifest r := by
  obtain ⟨r, hr⟩ : ∃ r, toRealManifest appEnv utilManifest = .ok r :=
    app_accepted rfl rfl rfl rfl rfl
  have hplaced (e : Placed) (he : e ∈ utilManifest.placed) : e = ⟨none, .normal, "util",
      .detailed { version := some "1", path := some "../util" }⟩ := List.mem_singleton.mp he
  have hcrates : ∃ src, appEnv.cratesIo = .ok src := ⟨_, rfl⟩
  refine ⟨r, hr, (publish_preserves_iff normalizedUrls_readsUrls hr).mpr
    ⟨?_, fun _ => hcrates, fun e he _ => ?_, fun e he e' he' _ src src' hsrc hsrc' => ?_⟩⟩
  · rintro p q features edition - ⟨⟩
  · rw [hplaced e he]
    exact hcrates
  · rw [hplaced e he] at hsrc
    rw [hplaced e' he', hsrc] at hsrc'
    cases hsrc'
    exact SourceId.eq_refl src

/-- The package `b`, with a `package` section that says `a`. -/
def twoSections : TomlManifest Unit :=
  appManifest (some (appSection "a")) (some (appSection "b")) none

/-- The package `b` is built and tested, and the package `a` is published. -/
theorem two_sections_changed :
    ∃ r, toRealManifest appEnv twoSections = .ok r ∧ ¬ PublishPreserves appEnv twoSections r := by
  obtain ⟨r, hr⟩ : ∃ r, toRealManifest appEnv twoSections = .ok r :=
    app_accepted rfl rfl rfl rfl rfl
  refine ⟨r, hr, fun hpreserves => ?_⟩
  have hagree := (hpreserves.publishable normalizedUrls_readsUrls hr).sections
    (appSection "a") (appSection "b") [] .edition2015 rfl rfl rfl rfl
  exact absurd hagree.name (by decide)

end Cargo.Util
