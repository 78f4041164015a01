import Cargo.Util.Toml

/-!
# The targets of a package

What is built of a package: the targets that the manifest lists, and those that are inferred from
the files in its directory. Warnings are not part of the model; a target that is left out because
its file cannot be found is.

## Main definitions

* `Target` — with `libTarget`, `binTarget` and so on
* `inferredLib`, `inferredBins`, `inferFromDirectory`
* `cleanLib`, `cleanBins`, `cleanExamples`, `cleanTests`, `cleanBenches`
* `targets`
-/

set_option autoImplicit false

namespace Cargo.Util

open Cargo.Core Cargo.Math

/-! ### Targets -/

inductive LibKind
  | lib
  | rlib
  | dylib
  | procMacro
  | other (s : String)
  deriving DecidableEq

def LibKind.ofString (s : String) : LibKind :=
  if s = "lib" then lib
  else if s = "rlib" then rlib
  else if s = "dylib" then dylib
  else if s = "proc-macro" then procMacro
  else other s

inductive TargetKind
  | lib (kinds : List LibKind)
  | bin
  | test
  | bench
  | exampleLib (kinds : List LibKind)
  | exampleBin
  | customBuild
  deriving DecidableEq

inductive TargetSourcePath
  | path (p : Path)
  | metabuild

structure Target where
  kind : TargetKind
  name : String
  srcPath : TargetSourcePath
  requiredFeatures : Option (List String)
  tested : Bool
  benched : Bool
  doc : Bool
  doctest : Bool
  harness : Bool
  forHost : Bool
  edition : Edition

namespace Target

def new (srcPath : TargetSourcePath) (edition : Edition) : Target where
  kind := .bin
  name := ""
  srcPath
  requiredFeatures := none
  doc := false
  doctest := false
  harness := true
  forHost := false
  edition
  tested := true
  benched := true

def libTarget (name : String) (crateTargets : List LibKind) (srcPath : Path)
    (edition : Edition) : Target :=
  { new (.path srcPath) edition with
    kind := .lib crateTargets
    name
    doctest := true
    doc := true }

def binTarget (name : String) (srcPath : Path) (requiredFeatures : Option (List String))
    (edition : Edition) : Target :=
  { new (.path srcPath) edition with
    kind := .bin
    name
    requiredFeatures
    doc := true }

def customBuildTarget (name : String) (srcPath : Path) (edition : Edition) : Target :=
  { new (.path srcPath) edition with
    kind := .customBuild
    name
    forHost := true
    benched := false
    tested := false }

def metabuildTarget (name : String) : Target :=
  { new .metabuild .edition2015 with
    kind := .customBuild
    name
    forHost := true
    benched := false
    tested := false }

def exampleTarget (name : String) (crateTargets : List LibKind) (srcPath : Path)
    (requiredFeatures : Option (List String)) (edition : Edition) : Target :=
  { new (.path srcPath) edition with
    kind := if crateTargets = [] then .exampleBin else .exampleLib crateTargets
    name
    requiredFeatures
    tested := false
    benched := false }

def testTarget (name : String) (srcPath : Path) (requiredFeatures : Option (List String))
    (edition : Edition) : Target :=
  { new (.path srcPath) edition with
    kind := .test
    name
    requiredFeatures
    benched := false }

def benchTarget (name : String) (srcPath : Path) (requiredFeatures : Option (List String))
    (edition : Edition) : Target :=
  { new (.path srcPath) edition with
    kind := .bench
    name
    requiredFeatures
    tested := false }

end Target

/-! ### Texts -/

/-- The characters with the property `White_Space`. -/
def isWhitespace (c : Char) : Bool :=
  let n := c.toNat
  (9 ≤ n && n ≤ 13) || n = 0x20 || n = 0x85 || n = 0xA0 || n = 0x1680 ||
    (0x2000 ≤ n && n ≤ 0x200A) || n = 0x2028 || n = 0x2029 || n = 0x202F || n = 0x205F ||
    n = 0x3000

/-- `str::trim`. -/
def trim (s : String) : String :=
  String.ofList ((s.toList.dropWhile isWhitespace).reverse.dropWhile isWhitespace).reverse

/-- The stem and the extension of the name of a file. A dot at the start does not count. -/
def splitFileName (name : String) : String × Option String :=
  let (after, before) := name.toList.reverse.span (· ≠ '.')
  match before with
  | _ :: c :: stem => (String.ofList (c :: stem).reverse, some (String.ofList after.reverse))
  | _ => (name, none)

/-- `Path::file_stem`. -/
def fileStem (path : Path) : Option String :=
  match path.getLast? with
  | some (.normal name) => some (splitFileName name).1
  | _ => none

/-- A path that is written in a manifest. -/
def pathOfString (s : String) : Path :=
  let parts := s.toList.splitOn '/'
  let component (first : Bool) (part : List Char) : Option Component :=
    if part = [] then none
    else if part = ['.'] then (if first then some .curDir else none)
    else if part = ['.', '.'] then some .parentDir
    else some (.normal (String.ofList part))
  match parts with
  | [] => []
  | [] :: rest => if rest = [] then [] else .rootDir :: rest.filterMap (component false)
  | part :: rest => (component true part).toList ++ rest.filterMap (component false)

/-- A path below another one. -/
def below (path : Path) (names : List String) : Path :=
  path ++ names.map Component.normal

/-! ### What is inferred -/

section Infer

variable (layout : Layout)

def inferSubdirectory (dir : Path) (entry : DirEntry) : Option (String × Path) :=
  let main := below dir [entry.fileName, "main.rs"]
  if layout.exists_ main then some (entry.fileName, main) else none

def inferAny (dir : Path) (entry : DirEntry) : Option (String × Path) :=
  match splitFileName entry.fileName with
  | (stem, some "rs") => some (stem, below dir [entry.fileName])
  | _ => if entry.isDir then inferSubdirectory layout dir entry else none

def inferFromDirectory (directory : List String) : List (String × Path) :=
  let dir := below layout.root directory
  ((layout.readDir dir).filter fun entry => entry.fileName.toList.head? ≠ some '.').filterMap
    (inferAny layout dir)

def inferredLib : Option Path :=
  let lib := below layout.root ["src", "lib.rs"]
  if layout.exists_ lib then some lib else none

def inferredBins (packageName : String) : List (String × Path) :=
  let main := below layout.root ["src", "main.rs"]
  (if layout.exists_ main then [(packageName, main)] else []) ++
    inferFromDirectory layout ["src", "bin"]

def inferredToTomlTargets (inferred : List (String × Path)) : List TomlTarget :=
  inferred.map fun (name, path) => { name := some name, path := some path }

/-- The targets that are listed, and those that are inferred and not yet listed. -/
def tomlTargetsAndInferred (tomlTargets : Option (List TomlTarget))
    (inferred : List (String × Path)) (autodiscover : Option Bool) (edition : Edition) :
    List TomlTarget :=
  match tomlTargets with
  | none => inferredToTomlTargets inferred
  | some targets =>
    let path (target : TomlTarget) := target.path.map layout.root.join
    let remaining := (inferredToTomlTargets inferred).filter fun target =>
      target.name ∉ targets.map (·.name) ∧ path target ∉ targets.map path
    if autodiscover.getD (edition = .edition2018) then targets ++ remaining else targets

end Infer

/-! ### Checks -/

namespace TomlTarget

def crateTypes (target : TomlTarget) : Option (List String) :=
  target.crateType.or target.crateType2

def isProcMacro (target : TomlTarget) : Option Bool :=
  target.procMacro.or target.procMacro2

/-- The name, which has to be there. -/
def nameOf (target : TomlTarget) : String :=
  target.name.getD ""

end TomlTarget

def validateHasName (kindHuman kind : String) (target : TomlTarget) :
    Except ManifestError Unit :=
  match target.name with
  | some name => if trim name = "" then .error (.emptyTargetName kindHuman) else .ok ()
  | none => .error (.targetNameRequired kindHuman kind)

/-- The first name that has been seen before is reported. -/
def validateUniqueNames (kind : String) (targets : List TomlTarget) :
    Except ManifestError Unit := do
  let _ ← targets.foldlM (fun seen target =>
    if target.nameOf ∈ seen then .error (.duplicateTarget kind target.nameOf)
    else .ok (target.nameOf :: seen)) []

def parseEdition (edition : String) : Except ManifestError Edition :=
  if edition = "2015" then .ok .edition2015
  else if edition = "2018" then .ok .edition2018
  else .error (.unknownEdition edition)

def isBadArtifactName (name : String) : Bool :=
  name ∈ ["deps", "examples", "build", "native", "incremental"]

/-- The settings of a target. -/
def configure (features : Features) (toml : TomlTarget) (target : Target) :
    Except ManifestError Target :=
  let target := { target with
    tested := toml.test.getD target.tested
    doc := toml.doc.getD target.doc
    doctest := toml.doctest.getD target.doctest
    benched := toml.bench.getD target.benched
    harness := toml.harness.getD target.harness
    -- one `true` is enough, and without one a `false` is
    forHost := match toml.plugin, toml.isProcMacro with
      | none, none => target.forHost
      | some true, _ | _, some true => true
      | _, _ => false }
  match toml.edition with
  | none => .ok target
  | some edition => do
    features.require .edition
    let edition ← parseEdition edition
    return { target with edition }

/-- Where a target is. Before the 2018 edition there is one more place to look at. -/
def targetPath (layout : Layout) (kind : String) (inferred : List (String × Path))
    (edition : Edition) (legacyPath : TomlTarget → Option Path) (target : TomlTarget) :
    Except ManifestError Path :=
  match target.path with
  | some path => .ok (layout.root.join path)
  | none =>
    -- the file that was found, or else where it was in the 2015 edition
    match (inferred.filter fun (name, _) => name = target.nameOf).map (·.2) with
    | [path] => .ok path
    | _ =>
      match (if edition = .edition2015 then legacyPath target else none) with
      | some path => .ok path
      | none => .error (.noTargetPath kind target.nameOf)

/-! ### One kind of target after the other -/

section Clean

variable (layout : Layout) (features : Features) (edition : Edition)

/-- Where the library is. -/
def libPath (lib : TomlTarget) : Except ManifestError Path :=
  match lib.path, inferredLib layout with
  | some path, _ => .ok (layout.root.join path)
  | none, some path => .ok path
  | none, none =>
    let legacy := below layout.root ["src", lib.nameOf ++ ".rs"]
    if edition = .edition2015 ∧ layout.exists_ legacy then .ok legacy
    else .error (.noLibrary lib.nameOf)

def libCrateTypes (lib : TomlTarget) : Except ManifestError (List LibKind) :=
  match lib.crateTypes, lib.plugin, lib.isProcMacro with
  | _, some true, some true => .error .pluginAndProcMacro
  | some kinds, _, _ => .ok (kinds.map LibKind.ofString)
  | none, some true, _ => .ok [.dylib]
  | none, _, some true => .ok [.procMacro]
  | none, _, _ => .ok [.lib]

/-- The `lib` section, or what is inferred. -/
def tomlLib (tomlLib : Option TomlTarget) (packageName : String) :
    Except ManifestError (Option TomlTarget) :=
  match tomlLib with
  | some lib =>
    if '-' ∈ (lib.name.getD "").toList then .error (.hyphenInLibrary lib.nameOf)
    else .ok (some { lib with name := lib.name.or (some packageName) })
  | none =>
    .ok ((inferredLib layout).map fun path =>
      { name := some packageName, path := some path })

def cleanLib (toml : Option TomlTarget) (packageName : String) :
    Except ManifestError (Option Target) := do
  match ← tomlLib layout toml packageName with
  | none => return none
  | some lib =>
    validateHasName "library" "lib" lib
    let path ← libPath layout edition lib
    let crateTypes ← libCrateTypes lib
    let target ← configure features lib (.libTarget lib.nameOf crateTypes path edition)
    return some target

/-- The places where a binary was looked for before. -/
def legacyBinPath (hasLib : Bool) (bin : TomlTarget) : Option Path :=
  let named := below layout.root ["src", bin.nameOf ++ ".rs"]
  if !hasLib && layout.exists_ named then some named
  else ([["src", "main.rs"], ["src", "bin", "main.rs"]].map (below layout.root)).find?
    (layout.exists_ ·)

def checkBin (bin : TomlTarget) : Except ManifestError Unit := do
  validateHasName "binary" "bin" bin
  if isBadArtifactName bin.nameOf then .error (.forbiddenName bin.nameOf) else .ok ()

def cleanBins (tomlBins : Option (List TomlTarget)) (packageName : String)
    (autodiscover : Option Bool) (hasLib : Bool) : Except ManifestError (List Target) := do
  let inferred := inferredBins layout packageName
  let bins := tomlTargetsAndInferred layout tomlBins inferred autodiscover edition
  bins.forM checkBin
  validateUniqueNames "binary" bins
  bins.mapM fun bin => do
    let path ← targetPath layout "bin" inferred edition (legacyBinPath layout hasLib) bin
    configure features bin (.binTarget bin.nameOf path bin.requiredFeatures edition)

/-- The targets of a kind and where they are. One that cannot be found is left out. -/
def cleanTargetsWithLegacyPath (kindHuman kind : String)
    (tomlTargets : Option (List TomlTarget)) (inferred : List (String × Path))
    (autodiscover : Option Bool) (legacyPath : TomlTarget → Option Path) :
    Except ManifestError (List (Path × TomlTarget)) := do
  let targets := tomlTargetsAndInferred layout tomlTargets inferred autodiscover edition
  targets.forM (validateHasName kindHuman kind)
  validateUniqueNames kind targets
  return targets.filterMap fun target =>
    ((targetPath layout kind inferred edition legacyPath target).toOption).map (·, target)

def cleanExamples (tomlExamples : Option (List TomlTarget)) (autodiscover : Option Bool) :
    Except ManifestError (List Target) := do
  let targets ← cleanTargetsWithLegacyPath layout edition "example" "example" tomlExamples
    (inferFromDirectory layout ["examples"]) autodiscover fun _ => none
  targets.mapM fun (path, toml) =>
    configure features toml (.exampleTarget toml.nameOf
      ((toml.crateTypes.getD []).map LibKind.ofString) path toml.requiredFeatures edition)

def cleanTests (tomlTests : Option (List TomlTarget)) (autodiscover : Option Bool) :
    Except ManifestError (List Target) := do
  let targets ← cleanTargetsWithLegacyPath layout edition "test" "test" tomlTests
    (inferFromDirectory layout ["tests"]) autodiscover fun _ => none
  targets.mapM fun (path, toml) =>
    configure features toml (.testTarget toml.nameOf path toml.requiredFeatures edition)

/-- The place where a benchmark was looked for before. -/
def legacyBenchPath (bench : TomlTarget) : Option Path :=
  let legacy := below layout.root ["src", "bench.rs"]
  if bench.nameOf = "bench" ∧ layout.exists_ legacy then some legacy else none

def cleanBenches (tomlBenches : Option (List TomlTarget)) (autodiscover : Option Bool) :
    Except ManifestError (List Target) := do
  let targets ← cleanTargetsWithLegacyPath layout edition "benchmark" "bench" tomlBenches
    (inferFromDirectory layout ["benches"]) autodiscover (legacyBenchPath layout)
  targets.mapM fun (path, toml) =>
    configure features toml (.benchTarget toml.nameOf path toml.requiredFeatures edition)

/-- The build script. -/
def maybeCustomBuild (build : Option StringOrBool) : Option Path :=
  let buildRs := below layout.root ["build.rs"]
  match build with
  | some (.bool false) => none
  | some (.bool true) => some buildRs
  | some (.string s) => some (pathOfString s)
  | none => if layout.isFile buildRs then some buildRs else none

def customBuild (build : Option StringOrBool) (metabuild : Option (List String)) :
    Except ManifestError (List Target) :=
  match maybeCustomBuild layout build with
  | none => .ok []
  | some path =>
    if metabuild.isSome then .error .metabuildAndBuild
    else
      .ok [.customBuildTarget ("build-script-" ++ (fileStem path).getD "")
        (layout.root.join path) edition]

/-- The packages of `metabuild` have to be in the table with the dash. -/
def metabuildTargets (buildDependencies : Option (Table TomlDependency))
    (metabuild : Option (List String)) (name : String) : Except ManifestError (List Target) :=
  match metabuild with
  | none => .ok []
  | some names =>
    match names.find? fun n => n ∉ (buildDependencies.getD []).map (·.1) with
    | some n => .error (.metabuildDependency n)
    | none => .ok [.metabuildTarget ("metabuild-" ++ name)]

end Clean

/-- All targets of a manifest. The `package` section goes first here. -/
def targets {F : Type} (layout : Layout) (features : Features) (m : TomlManifest F)
    (packageName : String) (edition : Edition) (build : Option StringOrBool)
    (metabuild : Option (List String)) : Except ManifestError (List Target) := do
  let lib ← cleanLib layout features edition m.lib packageName
  let package ← sectionOf (m.package.or m.project)
  let bins ← cleanBins layout features edition m.bin packageName package.autobins lib.isSome
  let examples ← cleanExamples layout features edition m.example_ package.autoexamples
  let tests ← cleanTests layout features edition m.test package.autotests
  let benches ← cleanBenches layout features edition m.bench package.autobenches
  let script ← customBuild layout edition build metabuild
  let metabuild ← metabuildTargets m.buildDependencies metabuild package.name
  return lib.toList ++ bins ++ examples ++ tests ++ benches ++ script ++ metabuild

/-- The targets apart from the build script, which depend on the section for little. -/
def codeTargets {F : Type} (layout : Layout) (features : Features) (m : TomlManifest F)
    (packageName : String) (edition : Edition) (package : TomlProject) :
    Except ManifestError (List Target) := do
  let lib ← cleanLib layout features edition m.lib packageName
  let bins ← cleanBins layout features edition m.bin packageName package.autobins lib.isSome
  let examples ← cleanExamples layout features edition m.example_ package.autoexamples
  let tests ← cleanTests layout features edition m.test package.autotests
  let benches ← cleanBenches layout features edition m.bench package.autobenches
  return lib.toList ++ bins ++ examples ++ tests ++ benches

theorem targets_eq_ok {F : Type} {layout : Layout} {features : Features} {m : TomlManifest F}
    {packageName : String} {edition : Edition} {build : Option StringOrBool}
    {metabuild : Option (List String)} {ts : List Target} :
    targets layout features m packageName edition build metabuild = .ok ts ↔
      ∃ package code script metas, m.package.or m.project = some package ∧
        codeTargets layout features m packageName edition package = .ok code ∧
        customBuild layout edition build metabuild = .ok script ∧
        metabuildTargets m.buildDependencies metabuild package.name = .ok metas ∧
        ts = code ++ (script ++ metas) := by
  constructor
  · intro h
    obtain ⟨lib, hlib, h⟩ := bind_eq_ok.mp h
    obtain ⟨package, hpackage, h⟩ := bind_eq_ok.mp h
    obtain ⟨bins, hbins, h⟩ := bind_eq_ok.mp h
    obtain ⟨examples, hexamples, h⟩ := bind_eq_ok.mp h
    obtain ⟨tests, htests, h⟩ := bind_eq_ok.mp h
    obtain ⟨benches, hbenches, h⟩ := bind_eq_ok.mp h
    obtain ⟨script, hscript, h⟩ := bind_eq_ok.mp h
    obtain ⟨metas, hmetas, h⟩ := bind_eq_ok.mp h
    cases h
    refine ⟨package, _, script, metas, sectionOf_eq_ok.mp hpackage, ?_, hscript, hmetas,
      List.append_assoc _ _ _⟩
    exact bind_eq_ok.mpr ⟨lib, hlib, bind_eq_ok.mpr ⟨bins, hbins, bind_eq_ok.mpr
      ⟨examples, hexamples, bind_eq_ok.mpr ⟨tests, htests, bind_eq_ok.mpr
      ⟨benches, hbenches, rfl⟩⟩⟩⟩⟩
  · rintro ⟨package, code, script, metas, hpackage, hcode, hscript, hmetas, rfl⟩
    obtain ⟨lib, hlib, hcode⟩ := bind_eq_ok.mp hcode
    obtain ⟨bins, hbins, hcode⟩ := bind_eq_ok.mp hcode
    obtain ⟨examples, hexamples, hcode⟩ := bind_eq_ok.mp hcode
    obtain ⟨tests, htests, hcode⟩ := bind_eq_ok.mp hcode
    obtain ⟨benches, hbenches, hcode⟩ := bind_eq_ok.mp hcode
    cases hcode
    rw [← List.append_assoc]
    exact bind_eq_ok.mpr ⟨lib, hlib, bind_eq_ok.mpr ⟨package, sectionOf_eq_ok.mpr hpackage,
      bind_eq_ok.mpr ⟨bins, hbins, bind_eq_ok.mpr ⟨examples, hexamples, bind_eq_ok.mpr
      ⟨tests, htests, bind_eq_ok.mpr ⟨benches, hbenches, bind_eq_ok.mpr ⟨script, hscript,
      bind_eq_ok.mpr ⟨metas, hmetas, rfl⟩⟩⟩⟩⟩⟩⟩⟩

/-- The last targets tell whether they are a build script or made of other packages. -/
theorem scripts_inj {layout : Layout} {edition : Edition} {build build' : Option StringOrBool}
    {metabuild metabuild' : Option (List String)} {table table' : Option (Table TomlDependency)}
    {name name' : String} {script script' metas metas' : List Target}
    (hscript : customBuild layout edition build metabuild = .ok script)
    (hscript' : customBuild layout edition build' metabuild' = .ok script')
    (hmetas : metabuildTargets table metabuild name = .ok metas)
    (hmetas' : metabuildTargets table' metabuild' name' = .ok metas')
    (h : script ++ metas = script' ++ metas') : script = script' ∧ metas = metas' := by
  have hscripts {build : Option StringOrBool} {metabuild : Option (List String)}
      {script : List Target} (h : customBuild layout edition build metabuild = .ok script) :
      script = [] ∨ ∃ t p, script = [t] ∧ t.srcPath = .path p := by
    unfold customBuild at h
    split at h
    · cases h
      exact .inl rfl
    · split at h
      · cases h
      · cases h
        exact .inr ⟨_, _, rfl, rfl⟩
  have hmetabuild {table : Option (Table TomlDependency)} {metabuild : Option (List String)}
      {name : String} {metas : List Target}
      (h : metabuildTargets table metabuild name = .ok metas) :
      metas = [] ∨ ∃ t, metas = [t] ∧ t.srcPath = .metabuild := by
    unfold metabuildTargets at h
    split at h
    · cases h
      exact .inl rfl
    · split at h
      · cases h
      · cases h
        exact .inr ⟨_, rfl, rfl⟩
  rcases hscripts hscript with rfl | ⟨t, p, rfl, ht⟩ <;>
    rcases hscripts hscript' with rfl | ⟨t', p', rfl, ht'⟩ <;>
    rcases hmetabuild hmetas with rfl | ⟨u, rfl, hu⟩ <;>
    rcases hmetabuild hmetas' with rfl | ⟨u', rfl, hu'⟩ <;>
    simp_all

end Cargo.Util
