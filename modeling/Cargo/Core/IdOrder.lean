import Cargo.Core.SourceId
import Cargo.Math.Comparison

/-!
# How ids compare

The order of source ids and of package ids is a total order, and equal ids hash alike. The
order and the equality disagree on one kind of pair only: git sources of one reference whose
urls differ and have the same canonical url. These are equal, while the order tells them
apart.

## Main definitions

* `SourceId.Split`, `PackageId.Split` — equal ids that the order tells apart

## Main results

* `ids_coherent_iff` — over a set of ids, order, equality and hash fit together exactly when
  no two of them are split
-/

set_option autoImplicit false

open Std
open Cargo.Math

namespace Cargo.Core

/-! ### Versions -/

instance : TransCmp Identifier.cmp where
  eq_swap {a b} := by
    cases a <;> cases b <;>
      first | exact OrientedOrd.eq_swap | rfl
  isLE_trans {a b c} hab hbc := by
    cases a <;> cases b <;> cases c <;>
      first | exact TransOrd.isLE_trans hab hbc | rfl | simp [Identifier.cmp] at hab hbc

instance : LawfulEqCmp Identifier.cmp where
  compare_self {a} := by
    cases a <;> exact ReflOrd.compare_self
  eq_of_compare {a b} h := by
    cases a <;> cases b <;>
      first | exact congrArg _ (LawfulEqOrd.eq_of_compare h) | cases h

theorem Identifier.cmpList_eq_compareLex (p q : List Identifier) :
    Identifier.cmpList p q = List.compareLex Identifier.cmp p q := by
  induction p generalizing q with
  | nil => cases q <;> rfl
  | cons a p ih =>
    cases q with
    | nil => rfl
    | cons b q =>
      rw [Identifier.cmpList, ih, List.compareLex_cons_cons]

instance : TransCmp Identifier.cmpList := by
  have h : Identifier.cmpList = List.compareLex Identifier.cmp := by
    funext p q
    exact Identifier.cmpList_eq_compareLex p q
  rw [h]
  infer_instance

instance : LawfulEqCmp Identifier.cmpList := by
  have h : Identifier.cmpList = List.compareLex Identifier.cmp := by
    funext p q
    exact Identifier.cmpList_eq_compareLex p q
  rw [h]
  infer_instance

/-- A release comes after its pre-releases: the order of pre-releases, with the empty list
made the last. -/
def preCmp : List Identifier → List Identifier → Ordering :=
  compareLex (compareOn List.isEmpty) Identifier.cmpList

theorem Version.cmp_eq (a b : Version) :
    a.cmp b = compareLex (compareOn Version.major) (compareLex (compareOn Version.minor)
      (compareLex (compareOn Version.patch) fun a b => preCmp a.pre b.pre)) a b := by
  obtain ⟨_, _, _, p⟩ := a
  obtain ⟨_, _, _, q⟩ := b
  cases p <;> cases q <;> rfl

instance : TransCmp preCmp :=
  inferInstanceAs (TransCmp (compareLex _ _))

theorem preCmp_eq_iff (p q : List Identifier) : preCmp p q = .eq ↔ p = q := by
  constructor
  · intro h
    exact LawfulEqCmp.eq_of_compare (Ordering.then_eq_eq.mp h).2
  · rintro rfl
    exact ReflCmp.compare_self

instance transCmp_pre : TransCmp fun a b : Version => preCmp a.pre b.pre where
  eq_swap := OrientedCmp.eq_swap
  isLE_trans := TransCmp.isLE_trans

instance : TransCmp Version.cmp := by
  have h : Version.cmp = compareLex (compareOn Version.major)
      (compareLex (compareOn Version.minor)
        (compareLex (compareOn Version.patch) fun a b => preCmp a.pre b.pre)) := by
    funext a b
    exact Version.cmp_eq a b
  rw [h]
  infer_instance

theorem Version.cmp_eq_iff (a b : Version) : a.cmp b = .eq ↔ a = b := by
  rw [Version.cmp_eq]
  obtain ⟨M, m, t, p⟩ := a
  obtain ⟨M', m', t', p'⟩ := b
  simp [compareLex, compareOn, Ordering.then_eq_eq, preCmp_eq_iff]

/-! ### Kinds -/

theorem GitReference.cmp_eq_iff (a b : GitReference) : a.cmp b = .eq ↔ a = b := by
  cases a <;> cases b <;>
    simp [GitReference.cmp, GitReference.variant, GitReference.name, Ordering.then_eq_eq]

/-- The reference of a git source, and an arbitrary one for other kinds. -/
def Kind.reference : Kind → GitReference
  | .git r => r
  | _ => .tag []

theorem Kind.cmp_eq (a b : Kind) :
    a.cmp b = compareLex (compareOn Kind.variant)
      (compareLex (compareOn fun k => k.reference.variant)
        (compareOn fun k => k.reference.name)) a b := by
  cases a <;> cases b <;> rfl

instance : TransCmp Kind.cmp := by
  have h : Kind.cmp = compareLex (compareOn Kind.variant)
      (compareLex (compareOn fun k => k.reference.variant)
        (compareOn fun k => k.reference.name)) := by
    funext a b
    exact Kind.cmp_eq a b
  rw [h]
  infer_instance

theorem Kind.cmp_eq_iff (a b : Kind) : a.cmp b = .eq ↔ a = b := by
  cases a <;> cases b <;> simp [Kind.cmp, Kind.variant, GitReference.cmp_eq_iff]

instance : TransCmp Url.cmp :=
  inferInstanceAs (TransCmp (compareOn Url.asStr))

theorem Url.cmp_eq_iff (u v : Url) : u.cmp v = .eq ↔ u = v := by
  obtain ⟨s⟩ := u
  obtain ⟨t⟩ := v
  simp [Url.cmp]

/-! ### Source ids -/

variable {crate : UrlCrate}

namespace SourceId

/-- Equal git sources that the order tells apart: one reference, one canonical url, two
urls. -/
def Split (a b : SourceId crate) : Prop :=
  a.gitReference.isSome ∧ a.kind = b.kind ∧ a.canonicalUrl = b.canonicalUrl ∧ a.url ≠ b.url

/-- What the order compares last. -/
def canonicalText (s : SourceId crate) : Text :=
  if s.gitReference.isSome then s.canonicalUrl.asStr else []

instance transCmp_kind : TransCmp fun a b : SourceId crate => a.kind.cmp b.kind where
  eq_swap := OrientedCmp.eq_swap
  isLE_trans := TransCmp.isLE_trans

instance transCmp_url : TransCmp fun a b : SourceId crate => a.url.cmp b.url where
  eq_swap := OrientedCmp.eq_swap
  isLE_trans := TransCmp.isLE_trans

theorem cmp_eq (a b : SourceId crate) :
    a.cmp b = compareLex (fun a b => a.kind.cmp b.kind)
      (compareLex (fun a b => a.url.cmp b.url)
        (compareLex (fun a b => a.kind.cmp b.kind) (compareOn canonicalText))) a b := by
  obtain ⟨u, c, k, _, _, _⟩ := a
  obtain ⟨u', c', k', _, _, _⟩ := b
  cases k <;> cases k' <;> rfl

instance : TransCmp (@cmp crate) := by
  have h : @cmp crate = compareLex (fun a b => a.kind.cmp b.kind)
      (compareLex (fun a b => a.url.cmp b.url)
        (compareLex (fun a b => a.kind.cmp b.kind) (compareOn canonicalText))) := by
    funext a b
    exact cmp_eq a b
  rw [h]
  infer_instance

theorem gitReference_congr {a b : SourceId crate} (h : a.kind = b.kind) :
    a.gitReference = b.gitReference := by
  unfold gitReference
  rw [h]

/-- The order ties exactly the sources with one kind and one url. -/
theorem cmp_eq_iff (a b : SourceId crate) :
    a.cmp b = .eq ↔ a.kind = b.kind ∧ a.url = b.url := by
  rw [cmp_eq]
  simp only [compareLex, compareOn, Ordering.then_eq_eq, Kind.cmp_eq_iff, Url.cmp_eq_iff]
  constructor
  · rintro ⟨hk, hu, -⟩
    exact ⟨hk, hu⟩
  · rintro ⟨hk, hu⟩
    -- one url has one canonical url
    have hc : a.canonicalText = b.canonicalText := by
      rw [canonicalText, canonicalText, gitReference_congr hk, canonicalUrl_eq_of_url_eq hu]
    rw [hc]
    exact ⟨hk, hu, hk, ReflOrd.compare_self⟩

theorem eq_iff (a b : SourceId crate) :
    a.eq b ↔ a.kind = b.kind ∧
      (a.url = b.url ∨ a.gitReference.isSome ∧ a.canonicalUrl = b.canonicalUrl) := by
  obtain ⟨u, c, k, _, _, _⟩ := a
  obtain ⟨u', c', k', _, _, _⟩ := b
  cases k with
  | git r =>
    cases k' with
    | git r' =>
      simp only [eq, gitReference]
      grind
    | _ => simp [eq]
  | _ => cases k' <;> simp [eq, gitReference]

theorem eq_refl (a : SourceId crate) : a.eq a :=
  (eq_iff a a).mpr ⟨rfl, .inl rfl⟩

theorem eq_symm {a b : SourceId crate} (h : a.eq b) : b.eq a := by
  obtain ⟨hk, hu⟩ := (eq_iff a b).mp h
  rw [gitReference_congr hk] at hu
  exact (eq_iff b a).mpr ⟨hk.symm, hu.imp Eq.symm fun hc => ⟨hc.1, hc.2.symm⟩⟩

theorem eq_trans {a b c : SourceId crate} (h : a.eq b) (h' : b.eq c) : a.eq c := by
  obtain ⟨hk, hu⟩ := (eq_iff a b).mp h
  obtain ⟨hk', hu'⟩ := (eq_iff b c).mp h'
  refine (eq_iff a c).mpr ⟨hk.trans hk', ?_⟩
  rcases hu with hu | ⟨hgit, hc⟩
  · rcases hu' with hu' | ⟨hgit, hc'⟩
    · exact .inl (hu.trans hu')
    · rw [gitReference_congr hk]
      exact .inr ⟨hgit, (canonicalUrl_eq_of_url_eq hu).trans hc'⟩
  · refine .inr ⟨hgit, hc.trans ?_⟩
    rcases hu' with hu' | ⟨-, hc'⟩
    · exact canonicalUrl_eq_of_url_eq hu'
    · exact hc'

/-- Equal sources hash alike. -/
theorem hash_eq_of_eq {a b : SourceId crate} (h : a.eq b) : a.hash = b.hash := by
  obtain ⟨hk, hu⟩ := (eq_iff a b).mp h
  have hc : a.gitReference.isSome → a.canonicalUrl = b.canonicalUrl := by
    intro _
    rcases hu with hu | ⟨_, hc⟩
    · exact canonicalUrl_eq_of_url_eq hu
    · exact hc
  unfold hash
  rw [← hk]
  cases hkind : a.kind with
  | git r => simp [hc (by simp [gitReference, hkind])]
  | _ =>
    rcases hu with hu | ⟨hg, _⟩
    · simp [hu]
    · simp [gitReference, hkind] at hg

/-- Sources are equal when they hash alike. -/
theorem eq_of_hash_eq {a b : SourceId crate} (h : a.hash = b.hash) : a.eq b := by
  have hkind : ∀ s : SourceId crate, s.hash.1 = s.kind := by
    intro s
    unfold hash
    cases hk : s.kind <;> simp
  have hk : a.kind = b.kind := by rw [← hkind a, ← hkind b, h]
  have htext := congrArg Prod.snd h
  unfold hash at htext
  rw [← hk] at htext
  rw [eq_iff]
  refine ⟨hk, ?_⟩
  cases hkind : a.kind with
  | git r =>
    rw [hkind] at htext
    refine .inr ⟨by simp [gitReference, hkind], ?_⟩
    exact (Url.cmp_eq_iff _ _).mp (by simpa [Url.cmp] using htext)
  | _ =>
    rw [hkind] at htext
    exact .inl ((Url.cmp_eq_iff _ _).mp (by simpa [Url.cmp] using htext))

/-- Order and equality agree on two sources exactly when these are not split. -/
theorem cmp_eq_iff_eq_iff (a b : SourceId crate) :
    (a.cmp b = .eq ↔ a.eq b) ↔ ¬ a.Split b := by
  rw [cmp_eq_iff, eq_iff, Split]
  grind

end SourceId

/-! ### Package ids -/

namespace PackageId

/-- Packages of one name and version from sources that are split. -/
def Split (a b : PackageId (SourceId crate)) : Prop :=
  a.name = b.name ∧ a.version = b.version ∧ a.sourceId.Split b.sourceId

instance transCmp_version :
    TransCmp fun a b : PackageId (SourceId crate) => a.version.cmp b.version where
  eq_swap := OrientedCmp.eq_swap
  isLE_trans := TransCmp.isLE_trans

instance transCmp_sourceId :
    TransCmp fun a b : PackageId (SourceId crate) => a.sourceId.cmp b.sourceId where
  eq_swap := OrientedCmp.eq_swap
  isLE_trans := TransCmp.isLE_trans

instance : TransCmp (@cmp crate) :=
  inferInstanceAs (TransCmp (compareLex (compareOn PackageId.name)
    (compareLex (fun a b => a.version.cmp b.version)
      fun a b : PackageId (SourceId crate) => a.sourceId.cmp b.sourceId)))

theorem cmp_eq_iff (a b : PackageId (SourceId crate)) :
    a.cmp b = .eq ↔
      a.name = b.name ∧ a.version = b.version ∧ a.sourceId.cmp b.sourceId = .eq := by
  simp [cmp, Ordering.then_eq_eq, Version.cmp_eq_iff]

theorem eq_iff (a b : PackageId (SourceId crate)) :
    a.eq b ↔ a.name = b.name ∧ a.version = b.version ∧ a.sourceId.eq b.sourceId := by
  simp [eq]

theorem hash_eq_of_eq {a b : PackageId (SourceId crate)} (h : a.eq b) : a.hash = b.hash := by
  obtain ⟨hn, hv, hs⟩ := (eq_iff a b).mp h
  simp [hash, hn, hv, SourceId.hash_eq_of_eq hs]

theorem cmp_eq_iff_eq_iff (a b : PackageId (SourceId crate)) :
    (a.cmp b = .eq ↔ a.eq b) ↔ ¬ a.Split b := by
  have hs := SourceId.cmp_eq_iff_eq_iff a.sourceId b.sourceId
  rw [cmp_eq_iff, eq_iff, Split]
  grind

end PackageId

/-! ### Sets of ids -/

/-- Over a set of source ids, the order is a total order that ties exactly the equal ids,
equal ids hash alike, and maps hold one entry per id and never miss one, exactly when no two
of the ids are split; and the same over a set of package ids. -/
theorem ids_coherent_iff :
    (∀ K : Set (SourceId crate),
      (Coherent SourceId.cmp SourceId.eq SourceId.hash K ∧
        WellKeyed SourceId.cmp SourceId.eq SourceId.hash K) ↔
      ∀ a ∈ K, ∀ b ∈ K, ¬ a.Split b) ∧
    (∀ K : Set (PackageId (SourceId crate)),
      (Coherent PackageId.cmp PackageId.eq PackageId.hash K ∧
        WellKeyed PackageId.cmp PackageId.eq PackageId.hash K) ↔
      ∀ a ∈ K, ∀ b ∈ K, ¬ a.Split b) := by
  constructor
  · intro K
    have hiff := coherent_iff SourceId.cmp SourceId.eq
      (fun _ _ => SourceId.hash_eq_of_eq) K
    simp only [SourceId.cmp_eq_iff_eq_iff] at hiff
    rw [← hiff]
    exact ⟨And.left, fun h => ⟨h, h.wellKeyed⟩⟩
  · intro K
    have hiff := coherent_iff PackageId.cmp PackageId.eq
      (fun _ _ => PackageId.hash_eq_of_eq) K
    simp only [PackageId.cmp_eq_iff_eq_iff] at hiff
    rw [← hiff]
    exact ⟨And.left, fun h => ⟨h, h.wellKeyed⟩⟩

/-- The url crate on urls that are normalized already. -/
abbrev plainUrls : UrlCrate := .plain fun t => .ok ⟨t⟩

/-- The master branch of a repository, named by its https url. -/
def barOverHttps : SourceId plainUrls where
  url := ⟨"https://github.com/foo/bar".toList⟩
  canonicalUrl := ⟨"https://github.com/foo/bar".toList⟩
  kind := .git (.branch "master".toList)
  precise := none
  name := none
  canonical_eq := by decide

/-- The same branch of the same repository, named by its git url. -/
def barOverGit : SourceId plainUrls where
  url := ⟨"git://github.com/foo/bar".toList⟩
  canonicalUrl := ⟨"https://github.com/foo/bar".toList⟩
  kind := .git (.branch "master".toList)
  precise := none
  name := none
  canonical_eq := by decide

/-- The sources of one repository under two urls are equal, and the order tells them
apart. -/
theorem github_sources_split :
    SourceId.forGit ⟨"https://github.com/foo/bar".toList⟩ (.branch "master".toList) =
        .ok barOverHttps ∧
      SourceId.forGit ⟨"git://github.com/foo/bar".toList⟩ (.branch "master".toList) =
        .ok barOverGit ∧
      barOverHttps.eq barOverGit = true ∧ barOverHttps.cmp barOverGit = .gt ∧
      ¬ ∀ a b : SourceId plainUrls, a.cmp b = .eq ↔ a.eq b := by
  have heq : barOverHttps.eq barOverGit = true := by decide
  have hcmp : barOverHttps.cmp barOverGit = .gt := by decide
  refine ⟨rfl, rfl, heq, hcmp, ?_⟩
  intro h
  have htie := (h barOverHttps barOverGit).mpr heq
  rw [hcmp] at htie
  cases htie

end Cargo.Core
