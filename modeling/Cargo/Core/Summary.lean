import Mathlib.Data.Finmap
import Mathlib.Data.Finset.Sort
import Mathlib.Data.String.Basic
import Cargo.Core.Dependency
import Cargo.Math.Iteration

/-!
# Summaries

The part of a manifest that resolution reads: the package id, the dependencies, the
features and the `links` value. `Summary.new` is the only way a manifest becomes a
summary, so what its first loop checks is carried by the type: a summary without
namespaced features has no feature with the name of a dependency, and development
dependencies are not optional.

## Main definitions

* `FeatureValue` — what a feature can enable
* `buildFeatureMap` — checks the features and parses their values
* `Summary`, `Summary.new` — summaries and their construction
-/

set_option autoImplicit false

namespace Cargo.Core

open Cargo.Math

/-- What a feature can enable: another feature, an optional dependency, or a feature of a
dependency. -/
inductive FeatureValue
  | feature (name : String)
  | crate (dep : String)
  | crateFeature (dep feat : String)
  deriving DecidableEq, Repr

/-- Parse one value of a feature. -/
def FeatureValue.build (text : String) (isFeature : String → Bool) (namespaced : Bool) :
    FeatureValue :=
  if '/' ∈ text.toList then
    .crateFeature (String.ofList (text.toList.takeWhile (· ≠ '/')))
      (String.ofList ((text.toList.dropWhile (· ≠ '/')).drop 1))
  else if namespaced then
    if "crate:".toList.isPrefixOf text.toList then .crate (String.ofList (text.toList.drop 6))
    else .feature text
  else if isFeature text then .feature text
  else .crate text

/-- The features of a package with their values. -/
abbrev FeatureMap := Finmap fun _ : String => List FeatureValue

/-- The errors of `Summary::new`. -/
inductive SummaryError
  /-- "Features and dependencies cannot have the same name". -/
  | sameName (dep : String)
  /-- "Dev-dependencies are not allowed to be optional". -/
  | optionalDev (dep : String)
  /-- The feature has the name of a dependency that is not optional. -/
  | dependencyNotOptional (feature : String)
  /-- The feature includes a name that is not a feature; `required` tells whether a
  dependency that is not optional has it. -/
  | undefinedFeature (feature value : String) (required : Bool)
  /-- The feature includes a dependency that is not optional. -/
  | requiredDependency (feature dep : String)
  /-- The feature includes what is neither a dependency nor a feature. -/
  | unknownDependency (feature dep : String)
  /-- The feature asks for a feature of what is not a dependency. -/
  | featureOfUnknown (feature dep : String)
  /-- The feature leaves the optional dependency of its name implicit. -/
  | leftImplicit (feature : String)
  deriving DecidableEq, Repr

/-- The keys of a map in ascending order. -/
def sortedKeys {β : Type} (map : Finmap fun _ : String => β) : List String :=
  map.keys.sort (· ≤ ·)

section BuildFeatureMap

variable {S R : Type}

/-- The dependencies with the name `name` in the manifest. -/
def depData (dependencies : List (Dependency S R)) (name : String) : List (Dependency S R) :=
  dependencies.filter (·.nameInToml = name)

/-- Check one value of `feature`, and define the feature that a namespaced value names
implicitly. -/
def checkValue (features : Finmap fun _ : String => List String)
    (dependencies : List (Dependency S R)) (namespaced : Bool) (feature : String)
    (map : FeatureMap) (value : FeatureValue) : Except SummaryError FeatureMap :=
  match value with
  | .feature feat =>
    -- an optional dependency defines a feature of its name
    if namespaced ∧ feat ∉ features then
      if (depData dependencies feat).any (·.optional) then .ok (map.insert feat [.crate feat])
      else .error (.undefinedFeature feature feat (depData dependencies feat ≠ []))
    else .ok map
  | .crate dep =>
    if depData dependencies dep = [] then .error (.unknownDependency feature dep)
    else if (depData dependencies dep).any (·.optional) then .ok map
    else .error (.requiredDependency feature dep)
  | .crateFeature dep _ =>
    if depData dependencies dep = [] then .error (.featureOfUnknown feature dep) else .ok map

/-- Whether the dependency named like `feature` still has to be found in its values. -/
def needsDependency (dependencies : List (Dependency S R)) (namespaced : Bool)
    (feature : String) : Except SummaryError Bool :=
  if namespaced ∧ depData dependencies feature ≠ [] then
    if (depData dependencies feature).any (·.optional) then .ok true
    else .error (.dependencyNotOptional feature)
  else .ok false

/-- Check the values of one feature and add the feature to the map. -/
def addFeature (features : Finmap fun _ : String => List String)
    (dependencies : List (Dependency S R)) (namespaced : Bool) (map : FeatureMap)
    (feature : String) : Except SummaryError FeatureMap := do
  let needed ← needsDependency dependencies namespaced feature
  let values := ((features.lookup feature).getD []).map fun text =>
    FeatureValue.build text (fun name => decide (name ∈ features)) namespaced
  let map ← values.foldlM (checkValue features dependencies namespaced feature) map
  if needed && !values.contains (.crate feature) then .error (.leftImplicit feature)
  else .ok (map.insert feature values)

/-- Check all features and parse their values. -/
def buildFeatureMap (features : Finmap fun _ : String => List String)
    (dependencies : List (Dependency S R)) (namespaced : Bool) :
    Except SummaryError FeatureMap :=
  (sortedKeys features).foldlM (addFeature features dependencies namespaced) ∅

end BuildFeatureMap

/-- What resolution knows about a package. -/
structure Summary (S R : Type) where
  packageId : PackageId S
  dependencies : List (Dependency S R)
  features : FeatureMap
  checksum : Option String
  links : Option String
  namespacedFeatures : Bool
  /-- Features and dependencies have different names. -/
  names_disjoint : namespacedFeatures = false → ∀ d ∈ dependencies, d.nameInToml ∉ features
  /-- Development dependencies are not optional. -/
  optional_transitive : ∀ d ∈ dependencies, d.optional = true → d.isTransitive = true

namespace Summary

variable {S R : Type}

/-- The first loop of `Summary::new`. -/
def checkDependency (features : Finmap fun _ : String => List String) (namespaced : Bool)
    (d : Dependency S R) : Except SummaryError Unit :=
  if ¬ namespaced ∧ d.nameInToml ∈ features then .error (.sameName d.nameInToml)
  else if d.optional ∧ ¬ d.isTransitive then .error (.optionalDev d.nameInToml)
  else .ok ()

/-- Without namespaced features no feature is defined implicitly. -/
theorem checkValue_eq {features : Finmap fun _ : String => List String}
    {dependencies : List (Dependency S R)} {feature : String} {map map' : FeatureMap}
    {value : FeatureValue}
    (h : checkValue features dependencies false feature map value = .ok map') : map' = map := by
  unfold checkValue at h
  cases value with
  | feature feat => simpa using h.symm
  | crate dep =>
    simp only at h
    split at h
    · cases h
    · split at h <;> cases h
      rfl
  | crateFeature dep feat =>
    simp only at h
    split at h <;> cases h
    rfl

/-- Without namespaced features the map defines no more features than the manifest. -/
theorem mem_of_mem_buildFeatureMap {features : Finmap fun _ : String => List String}
    {dependencies : List (Dependency S R)} {map : FeatureMap}
    (h : buildFeatureMap features dependencies false = .ok map) {name : String}
    (hname : name ∈ map) : name ∈ features := by
  refine foldlM_ok_induction (P := fun _ (m : FeatureMap) => ∀ name ∈ m, name ∈ features)
    h ?_ ?_ name hname
  · intro name hname
    exact absurd hname Finmap.notMem_empty
  · intro pre feature post m m' hl ih hstep name hname
    have hfeature : feature ∈ features := by
      have hmem : feature ∈ sortedKeys features := by rw [hl]; simp
      rw [sortedKeys, Finset.mem_sort, Finmap.mem_keys] at hmem
      exact hmem
    obtain ⟨needed, -, hstep⟩ := bind_eq_ok.mp hstep
    obtain ⟨m'', hfold, hstep⟩ := bind_eq_ok.mp hstep
    have hm'' : m'' = m :=
      foldlM_ok_induction (P := fun _ (x : FeatureMap) => x = m) hfold rfl
        (fun pre value post x x' _ hx hx' => (checkValue_eq hx').trans hx)
    split at hstep
    · cases hstep
    · cases hstep
      rcases Finmap.mem_insert.mp hname with rfl | hname
      · exact hfeature
      · exact ih name (hm'' ▸ hname)

theorem checkDependency_ok {features : Finmap fun _ : String => List String} {namespaced : Bool}
    {d : Dependency S R} {u : Unit} (h : checkDependency features namespaced d = .ok u) :
    (namespaced = false → d.nameInToml ∉ features) ∧
      (d.optional = true → d.isTransitive = true) := by
  unfold checkDependency at h
  split at h
  · cases h
  · split at h
    · cases h
    · rename_i hname hoptional
      refine ⟨fun hn hmem => hname ⟨by simp [hn], hmem⟩, fun ho => ?_⟩
      by_contra ht
      exact hoptional ⟨ho, ht⟩

/-- `Summary::new`: check the dependencies, then the features. -/
def new (packageId : PackageId S) (dependencies : List (Dependency S R))
    (features : Finmap fun _ : String => List String) (links : Option String)
    (namespacedFeatures : Bool) : Except SummaryError (Summary S R) :=
  match hdeps : dependencies.foldlM
      (fun _ d => checkDependency features namespacedFeatures d) () with
  | .error e => .error e
  | .ok _ =>
    match hmap : buildFeatureMap features dependencies namespacedFeatures with
    | .error e => .error e
    | .ok map =>
      have hchecked : ∀ d ∈ dependencies,
          (namespacedFeatures = false → d.nameInToml ∉ features) ∧
            (d.optional = true → d.isTransitive = true) :=
        foldlM_ok_induction
          (P := fun pre _ => ∀ d ∈ pre, (namespacedFeatures = false → d.nameInToml ∉ features) ∧
            (d.optional = true → d.isTransitive = true))
          hdeps (by simp) (by
            intro pre d post _ _ _ ih hd d' hd'
            rcases List.mem_append.mp hd' with hd' | hd'
            · exact ih d' hd'
            · obtain rfl := List.mem_singleton.mp hd'
              exact checkDependency_ok hd)
      .ok
        { packageId, dependencies, features := map, checksum := none, links, namespacedFeatures
          names_disjoint := by
            rintro rfl d hd hmem
            exact (hchecked d hd).1 rfl (mem_of_mem_buildFeatureMap hmap hmem)
          optional_transitive := fun d hd => (hchecked d hd).2 }

/-- A summary is what is checked, and nothing else about a manifest. -/
theorem new_eq_ok {packageId : PackageId S} {dependencies : List (Dependency S R)}
    {features : Finmap fun _ : String => List String} {links : Option String}
    {namespacedFeatures : Bool} {s : Summary S R} :
    new packageId dependencies features links namespacedFeatures = .ok s ↔
      dependencies.foldlM (fun _ d => checkDependency features namespacedFeatures d) () =
          .ok () ∧
        buildFeatureMap features dependencies namespacedFeatures = .ok s.features ∧
        s.packageId = packageId ∧ s.dependencies = dependencies ∧ s.checksum = none ∧
        s.links = links ∧ s.namespacedFeatures = namespacedFeatures := by
  unfold new
  split
  · rename_i e hdeps
    rw [hdeps]
    constructor
    · intro h
      cases h
    · rintro ⟨h, -⟩
      cases h
  · rename_i hdeps
    split
    · rename_i e hmap
      rw [hmap]
      constructor
      · intro h
        cases h
      · rintro ⟨-, h, -⟩
        cases h
    · rename_i map hmap
      constructor
      · intro h
        cases h
        exact ⟨hdeps, hmap, rfl, rfl, rfl, rfl, rfl⟩
      · rintro ⟨-, hfeatures, rfl, rfl, hchecksum, rfl, rfl⟩
        rw [hmap] at hfeatures
        cases s
        cases hfeatures
        cases hchecksum
        rfl

/-- The summary of a manifest that passes both checks. -/
theorem exists_new (packageId : PackageId S) {dependencies : List (Dependency S R)}
    {features : Finmap fun _ : String => List String} (links : Option String)
    {namespacedFeatures : Bool} {map : FeatureMap}
    (hdeps : dependencies.foldlM
      (fun _ d => checkDependency features namespacedFeatures d) () = .ok ())
    (hmap : buildFeatureMap features dependencies namespacedFeatures = .ok map) :
    ∃ s, new packageId dependencies features links namespacedFeatures = .ok s ∧
      s.features = map := by
  unfold new
  split
  · rename_i e he
    rw [hdeps] at he
    cases he
  · split
    · rename_i e he
      rw [hmap] at he
      cases he
    · rename_i map' hmap'
      rw [hmap] at hmap'
      cases hmap'
      exact ⟨_, rfl, rfl⟩

end Summary

/-! ### What is asked of a dependency -/

/-- All that a summary asks of a dependency. -/
structure SameUse {S R : Type} (d d' : Dependency S R) : Prop where
  nameInToml : d'.nameInToml = d.nameInToml
  optional : d'.optional = d.optional
  isTransitive : d'.isTransitive = d.isTransitive

section SameUse

variable {S R : Type} {deps deps' : List (Dependency S R)}

theorem depData_sameUse (h : List.Forall₂ SameUse deps deps') (name : String) :
    List.Forall₂ SameUse (depData deps name) (depData deps' name) := by
  induction h with
  | nil => exact .nil
  | cons hd _ ih =>
    unfold depData at ih ⊢
    rw [List.filter_cons, List.filter_cons, hd.nameInToml]
    split
    · exact .cons hd ih
    · exact ih

theorem any_optional_sameUse (h : List.Forall₂ SameUse deps deps') :
    deps'.any (·.optional) = deps.any (·.optional) := by
  induction h with
  | nil => rfl
  | cons hd _ ih => rw [List.any_cons, List.any_cons, hd.optional, ih]

theorem eq_nil_sameUse (h : List.Forall₂ SameUse deps deps') : deps' = [] ↔ deps = [] := by
  cases h with
  | nil => exact Iff.rfl
  | cons _ _ => simp

/-- The features are checked in the same way. -/
theorem buildFeatureMap_sameUse (h : List.Forall₂ SameUse deps deps')
    (features : Finmap fun _ : String => List String) (namespaced : Bool) :
    buildFeatureMap features deps' namespaced = buildFeatureMap features deps namespaced := by
  have hany (name : String) := any_optional_sameUse (depData_sameUse h name)
  have hnil (name : String) := eq_nil_sameUse (depData_sameUse h name)
  have hvalue : checkValue features deps' namespaced = checkValue features deps namespaced := by
    funext feature map value
    cases value <;> simp only [checkValue, hany, hnil, ne_eq]
  have hneeded : needsDependency deps' namespaced = needsDependency deps namespaced := by
    funext feature
    simp only [needsDependency, hany, hnil, ne_eq]
  have hadd : addFeature features deps' namespaced = addFeature features deps namespaced := by
    funext map feature
    simp only [addFeature, hvalue, hneeded]
  rw [buildFeatureMap, hadd, buildFeatureMap]

/-- The dependencies are checked in the same way. -/
theorem checkDependency_sameUse {d d' : Dependency S R} (h : SameUse d d')
    (features : Finmap fun _ : String => List String) (namespaced : Bool) :
    Summary.checkDependency features namespaced d' =
      Summary.checkDependency features namespaced d := by
  unfold Summary.checkDependency
  rw [h.nameInToml, h.optional, h.isTransitive]

theorem checkDependencies_sameUse (h : List.Forall₂ SameUse deps deps')
    (features : Finmap fun _ : String => List String) (namespaced : Bool) :
    deps'.foldlM (fun _ d => Summary.checkDependency features namespaced d) () =
      deps.foldlM (fun _ d => Summary.checkDependency features namespaced d) () := by
  induction h with
  | nil => rfl
  | cons hd _ ih =>
    rw [List.foldlM_cons, List.foldlM_cons, checkDependency_sameUse hd]
    congr 1
    funext u
    exact ih

/-- A manifest with other dependencies of the same use is accepted with the same features. -/
theorem Summary.new_sameUse (h : List.Forall₂ SameUse deps deps') {packageId : PackageId S}
    {features : Finmap fun _ : String => List String} {links : Option String} {namespaced : Bool}
    {s : Summary S R} (hs : Summary.new packageId deps features links namespaced = .ok s) :
    ∃ s', Summary.new packageId deps' features links namespaced = .ok s' ∧
      s'.features = s.features := by
  obtain ⟨hdeps, hmap, -⟩ := Summary.new_eq_ok.mp hs
  rw [← checkDependencies_sameUse h] at hdeps
  rw [← buildFeatureMap_sameUse h] at hmap
  exact Summary.exists_new packageId links hdeps hmap

end SameUse

end Cargo.Core
