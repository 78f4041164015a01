import Cargo.Core.PackageIdSpec.RoundTrip
import Cargo.Core.IdOrder
import Cargo.Math.Iteration

/-!
# Advice for ambiguous specs

The advice for a package is its name and version if that version occurs once among the
packages that match, and its url with name and version otherwise. The short form is looked up
among all packages, so others of that name and version are in its way; the long form has no
place for what tells two sources with one url apart.

## Main definitions

* `PackageIds` — distinct packages whose urls and versions were read by the crates
* `SpecEnv.Selects` — a text that names a package among these
* `SpecEnv.ShortWorks`, `SpecEnv.LongWorks` — when the two forms do

## Main results

* `advice_selects_iff` — when the advice works
-/

set_option autoImplicit false

open Cargo.Math

namespace Cargo.Core

/-- Distinct packages. Their urls and versions are values of the crates. -/
structure PackageIds (env : SpecEnv Version) where
  ids : List (PackageId (SourceId env.crate))
  distinct : ids.Pairwise fun a b => a.eq b = false
  urls : ∀ id ∈ ids, ∃ t, env.crate.parse t = .ok id.sourceId.url
  versions : ∀ id ∈ ids, env.IsVersion id.version

theorem PackageId.eq_self {crate : UrlCrate} (id : PackageId (SourceId crate)) : id.eq id := by
  simp [PackageId.eq, SourceId.eq_refl]

theorem PackageIds.nodup {env : SpecEnv Version} (ids : PackageIds env) : ids.ids.Nodup := by
  refine ids.distinct.imp ?_
  rintro a b hdistinct rfl
  rw [PackageId.eq_self] at hdistinct
  cases hdistinct

/-- One of several different things is all that is left if it is the only one that fits. -/
theorem filter_eq_singleton_iff {α : Type} {l : List α} (hl : l.Nodup) {p : α → Bool} {a : α}
    (ha : a ∈ l) : l.filter p = [a] ↔ p a ∧ ∀ b ∈ l, p b → b = a := by
  constructor
  · intro h
    have hmem : ∀ b, b ∈ l ∧ p b ↔ b = a := by
      intro b
      rw [← List.mem_filter, h, List.mem_singleton]
    exact ⟨((hmem a).mpr rfl).2, fun b hb hpb => (hmem b).mp ⟨hb, hpb⟩⟩
  · rintro ⟨hpa, honly⟩
    apply List.perm_singleton.mp
    rw [List.perm_ext_iff_of_nodup (hl.filter p) (List.nodup_singleton a)]
    intro b
    rw [List.mem_filter, List.mem_singleton]
    constructor
    · rintro ⟨hb, hpb⟩
      exact honly b hb hpb
    · rintro rfl
      exact ⟨ha, hpa⟩

theorem PackageIdSpec.matches_iff {crate : UrlCrate} {spec : PackageIdSpec Version}
    {id : PackageId (SourceId crate)} :
    spec.matches id ↔ spec.name = id.name.toList ∧ (∀ v ∈ spec.version, v = id.version) ∧
      ∀ u ∈ spec.url, u = id.sourceId.url := by
  cases spec with
  | mk name version url =>
    unfold PackageIdSpec.«matches»
    cases version <;> cases url <;> simp

namespace SpecEnv

variable {env : SpecEnv Version}

theorem query_eq_ok_iff {spec : PackageIdSpec Version}
    {i : List (PackageId (SourceId env.crate))} {id : PackageId (SourceId env.crate)} :
    env.query spec i = .ok id ↔ i.filter spec.matches = [id] := by
  unfold query
  split
  · rename_i hnil
    rw [hnil]
    split <;> simp
  · rename_i id' hone
    rw [hone]
    simp
  · rename_i ids hnil hone
    have hne : i.filter spec.matches ≠ [id] := hone id
    refine iff_of_false ?_ hne
    split <;> simp

/-- Used as a spec over these packages, the text selects exactly this one. -/
def Selects (ids : PackageIds env) (text : Text) (id : PackageId (SourceId env.crate)) : Prop :=
  ∃ spec, env.parse text = .ok spec ∧ env.query spec ids.ids = .ok id

/-- The short form works: the name is one that can be written as a spec, and no other package
has this name and this version. -/
structure ShortWorks (ids : PackageIds env) (id : PackageId (SourceId env.crate)) : Prop where
  chars : ∀ c ∈ id.name.toList, env.nameChar c
  unique : ∀ other ∈ ids.ids, other.name = id.name → other.version = id.version → other = id

/-- The url, with the name and a version in its fragment if need be, is read as it is: it has
no query and no fragment, loses nothing when it is printed, and a name other than the last
segment of its path can be told from the version. -/
structure LongReads (env : SpecEnv Version) (id : PackageId (SourceId env.crate)) : Prop where
  query : id.sourceId.url.query = none
  fragment : id.sourceId.url.fragment = none
  printsBack : env.PrintsBack id.sourceId.url
  colon : env.crate.pathName id.sourceId.url ≠ some id.name.toList → ':' ∉ id.name.toList
  printable : env.crate.pathName id.sourceId.url ≠ some id.name.toList →
    ∀ c ∈ id.name.toList, 0x20 ≤ c.toNat ∧ c.toNat ≤ 0x7E

/-- The long form works: it is read as it is, and no other package has this name, this
version and a source with this url. -/
structure LongWorks (ids : PackageIds env) (id : PackageId (SourceId env.crate)) : Prop extends
    env.LongReads id where
  unique : ∀ other ∈ ids.ids, other.name = id.name → other.version = id.version →
    other.sourceId.url = id.sourceId.url → other = id

/-- A text that is read as some spec selects a package if this is the only one that matches. -/
theorem selects_iff {ids : PackageIds env} {text : Text} {spec : PackageIdSpec Version}
    {id : PackageId (SourceId env.crate)} (hparse : env.parse text = .ok spec)
    (hid : id ∈ ids.ids) :
    env.Selects ids text id ↔
      spec.matches id ∧ ∀ other ∈ ids.ids, spec.matches other → other = id := by
  rw [← filter_eq_singleton_iff ids.nodup hid, ← query_eq_ok_iff]
  constructor
  · rintro ⟨spec', hparse', hquery⟩
    rw [hparse] at hparse'
    cases hparse'
    exact hquery
  · exact fun hquery => ⟨spec, hparse, hquery⟩

/-- A text that selects a package is read as a spec that matches it. -/
theorem matches_of_selects {ids : PackageIds env} {text : Text}
    {id : PackageId (SourceId env.crate)} (hselects : env.Selects ids text id) :
    ∃ spec, env.parse text = .ok spec ∧ spec.matches id := by
  obtain ⟨spec, hparse, hquery⟩ := hselects
  refine ⟨spec, hparse, ?_⟩
  rw [query_eq_ok_iff] at hquery
  have hmem : id ∈ ids.ids.filter spec.matches := by
    rw [hquery]
    exact List.mem_singleton_self id
  exact (List.mem_filter.mp hmem).2

/-! ### Fragments take a mark -/

theorem count_percentEncode_le (t : Text) :
    (percentEncode encodedInFragment t).count '#' ≤ t.count '#' := by
  have hsep : Separates encodedInFragment '#' := ⟨by decide, by decide, by decide⟩
  induction t with
  | nil => exact Nat.le_refl 0
  | cons c t ih =>
    rw [percentEncode_cons, List.count_append]
    by_cases hc : c = '#'
    · subst hc
      have hself : ['#'].count '#' = 1 := by decide
      rw [if_neg (by decide), hself, List.count_cons_self]
      omega
    · rw [List.count_eq_zero_of_not_mem fun hmem => ne_of_mem_encoding hsep hc hmem rfl,
        List.count_cons_of_ne (by simpa using hc)]
      omega

theorem count_encodeFragment_le (t : Text) : (encodeFragment t).count '#' ≤ t.count '#' :=
  (count_percentEncode_le _).trans (List.filter_sublist.count_le '#')

/-- The mark in front of a fragment is not in it. -/
theorem count_fragment_lt (h : env.Documented) {t f : Text} {u : Url}
    (hparse : env.crate.parse t = .ok u) (hf : u.fragment = some f) :
    f.count '#' < t.count '#' := by
  rw [h.fragment_eq t u hparse] at hf
  obtain ⟨g, hg, rfl⟩ := Option.map_eq_some_iff.mp hf
  obtain ⟨c, hc⟩ : ∃ c, t.dropWhile (· ≠ '#') = c :: g := by
    cases hdrop : t.dropWhile (· ≠ '#') with
    | nil =>
      rw [hdrop] at hg
      cases hg
    | cons c rest =>
      rw [hdrop] at hg
      cases hg
      exact ⟨c, rfl⟩
  have hmark : c = '#' := by
    have hhead := List.head?_dropWhile_not (fun c => decide (c ≠ '#')) t
    rw [hc] at hhead
    simpa using hhead
  subst hmark
  have hle : (encodeFragment (stripped g)).count '#' ≤ g.count '#' :=
    (count_encodeFragment_le _).trans ((stripped_sublist g).count_le '#')
  have hsub : ('#' :: g).count '#' ≤ t.count '#' := by
    rw [← hc]
    exact (List.dropWhile_suffix _).sublist.count_le '#'
  rw [List.count_cons_self] at hsub
  omega

/-! ### The short form -/

section Short

variable {id : PackageId (SourceId env.crate)}

theorem name_of_nameAndVersion {fragment : Option Text} {segment name : Text}
    {version : Option Version}
    (hfound : env.nameAndVersion fragment segment = .ok (name, version)) :
    name = segment ∨ ∃ f, fragment = some f ∧ name <+: f := by
  cases fragment with
  | none =>
    cases hfound
    exact .inl rfl
  | some f =>
    have hne : f ≠ [] := by
      rintro rfl
      cases hfound
    rw [nameAndVersion_some env hne segment] at hfound
    cases htext : env.versionText f with
    | none =>
      simp only [htext] at hfound
      cases hfound
      exact .inr ⟨_, rfl, List.prefix_refl _⟩
    | some part =>
      cases hv : env.toSemver part with
      | error e =>
        simp only [htext, hv] at hfound
        cases hfound
      | ok v =>
        simp only [htext, hv] at hfound
        cases hfound
        rcases nameText_cases f segment with hcase | ⟨-, hpre⟩
        · exact .inl hcase
        · exact .inr ⟨f, rfl, hpre⟩

/-- The name that a url gives has no slash, or it is the beginning of a fragment. -/
theorem name_of_fromUrl (h : env.Documented) {u : Url} {p : PackageIdSpec Version}
    (hp : env.fromUrl u = .ok p) : '/' ∉ p.name ∨ ∃ f, u.fragment = some f ∧ p.name <+: f := by
  obtain ⟨-, -, segment, hsegment, hfound⟩ := fromUrl_ok hp
  rcases name_of_nameAndVersion hfound with hname | hpre
  · left
    rw [hname]
    unfold UrlCrate.pathName at hsegment
    split_ifs at hsegment
    cases hsegment
    exact h.slash_not_mem_lastSegment _
  · exact .inr hpre

/-- If the short form is read as a spec of the package, it is not read as a url. -/
theorem chars_of_short (h : env.Documented) (hv : env.IsVersion id.version)
    {spec : PackageIdSpec Version}
    (hparse : env.parse (id.name.toList ++ ':' :: env.versionStr id.version) = .ok spec)
    (hmatches : spec.matches id) : ∀ c ∈ id.name.toList, env.nameChar c := by
  have hname := (PackageIdSpec.matches_iff.mp hmatches).1
  unfold parse at hparse
  cases hread : env.readUrl (id.name.toList ++ ':' :: env.versionStr id.version) with
  | none =>
    rw [hread] at hparse
    exact hname ▸ (parseName_ok hparse).2.2.1
  | some u =>
    rw [hread] at hparse
    exfalso
    -- read as a url, the text has a slash, which can only be in the name
    have hslash : '/' ∈ id.name.toList := by
      have hmem : '/' ∈ id.name.toList ++ ':' :: env.versionStr id.version := by
        by_contra hnot
        rw [readUrl, if_neg hnot] at hread
        cases hread
      rcases List.mem_append.mp hmem with hmem | hmem
      · exact hmem
      · rcases List.mem_cons.mp hmem with hmem | hmem
        · exact absurd hmem (by decide)
        · exact absurd hmem (slash_not_mem_versionStr h hv)
    rcases name_of_fromUrl h hparse with hnot | ⟨f, hf, hpre⟩
    · exact hnot (hname ▸ hslash)
    · -- the fragment has fewer marks than the name that was taken from it
      have hcount : (env.versionStr id.version).count '#' = 0 :=
        List.count_eq_zero_of_not_mem fun hmem => (versionStr_char h hv hmem).2.2.2.1 rfl
      have htext : ∀ scheme : Text, scheme.count '#' = 0 →
          (scheme ++ (id.name.toList ++ ':' :: env.versionStr id.version)).count '#' =
            id.name.toList.count '#' := by
        intro scheme hscheme
        rw [List.count_append, List.count_append, List.count_cons_of_ne (by decide), hscheme,
          hcount]
        omega
      have hlt : f.count '#' < id.name.toList.count '#' := by
        rcases parse_of_readUrl hread with hspec | hcargo
        · have hlt := count_fragment_lt h hspec hf
          rwa [← List.nil_append (id.name.toList ++ _), htext [] rfl] at hlt
        · have hlt := count_fragment_lt h hcargo hf
          rwa [htext _ (by decide)] at hlt
      rw [← hname] at hlt
      exact absurd (hpre.sublist.count_le '#') (Nat.not_le.mpr hlt)

/-- The short form selects its package if and only if it works. -/
theorem short_iff (h : env.Documented) (ids : PackageIds env) (hid : id ∈ ids.ids) :
    env.Selects ids (id.name.toList ++ ':' :: env.versionStr id.version) id ↔
      ShortWorks ids id := by
  have hv := ids.versions id hid
  have hread : (∀ c ∈ id.name.toList, env.nameChar c) →
      env.parse (id.name.toList ++ ':' :: env.versionStr id.version) =
        .ok { name := id.name.toList, version := some id.version, url := none } := by
    intro hchars
    have hsome : ∀ v ∈ some id.version, env.IsVersion v := by
      rintro _ ⟨⟩
      exact hv
    exact parse_nameVersion h hchars hsome
  have hmatches : ∀ other : PackageId (SourceId env.crate),
      (PackageIdSpec.mk id.name.toList (some id.version) none).matches other ↔
        other.name = id.name ∧ other.version = id.version := by
    intro other
    rw [PackageIdSpec.matches_iff]
    simp [String.toList_inj, eq_comm]
  constructor
  · intro hselects
    obtain ⟨spec, hparse, hspec⟩ := matches_of_selects hselects
    have hchars := chars_of_short h hv hparse hspec
    rw [selects_iff (hread hchars) hid] at hselects
    exact ⟨hchars, fun other hother hname hversion =>
      hselects.2 other hother ((hmatches other).mpr ⟨hname, hversion⟩)⟩
  · intro hworks
    rw [selects_iff (hread hworks.chars) hid]
    refine ⟨(hmatches id).mpr ⟨rfl, rfl⟩, ?_⟩
    intro other hother hspec
    obtain ⟨hname, hversion⟩ := (hmatches other).mp hspec
    exact hworks.unique other hother hname hversion

end Short

/-! ### The long form -/

/-- What starts with a url is not the name of a package. -/
theorem parseName_url_ne_ok (h : env.Documented) {t : Text} {u : Url}
    (hparse : env.crate.parse t = .ok u) (hslash : '/' ∈ t) (y : Text)
    (p : PackageIdSpec Version) : env.parseName (t ++ y) ≠ .ok p := by
  intro hp
  obtain ⟨a, b, hab, ha⟩ := List.eq_append_cons_of_mem (h.parse_scheme t u hparse).1
  have hdrop : '/' ∈ t.dropWhile (· ≠ '/') := by
    rw [← List.takeWhile_append_dropWhile (p := fun c => decide (c ≠ '/')) (l := t)] at hslash
    exact (List.mem_append.mp hslash).resolve_left fun hmem => ne_of_mem_takeWhile hmem rfl
  have hparts : t ++ y = a ++ ':' :: (b ++ t.dropWhile (· ≠ '/') ++ y) := by
    conv_lhs => rw [← List.takeWhile_append_dropWhile (p := fun c => decide (c ≠ '/')) (l := t),
      hab]
    simp only [List.append_assoc, List.cons_append]
  -- the slashes stand behind the first colon, where a version should be
  have hversion := (parseName_ok hp).2.2.2
  rw [hparts, splitColon_append ha] at hversion
  obtain ⟨v, hv, -⟩ := hversion
  exact h.slash_not_mem_version _ v hv
    (List.mem_append_left _ (List.mem_append_right _ hdrop))

theorem encodeFragment_append (a b : Text) :
    encodeFragment (a ++ b) = encodeFragment a ++ encodeFragment b := by
  rw [encodeFragment, encodeFragment, encodeFragment, List.filter_append, percentEncode,
    List.flatMap_append]
  rfl

/-- How a name is seen in a fragment. -/
def seenName (name : Text) : Text := encodeFragment (name.filter fun c => !tabOrNewline c)

theorem colon_not_mem_seenName {name : Text} (hcolon : ':' ∉ name) : ':' ∉ seenName name := by
  have hsep : Separates encodedInFragment ':' := ⟨by decide, by decide, by decide⟩
  intro hmem
  obtain ⟨c, hc, hx⟩ := List.mem_flatMap.mp hmem
  have hc' : c ∈ name := List.mem_of_mem_filter (List.mem_of_mem_filter hc)
  exact ne_of_mem_encoding hsep (ne_of_mem_of_not_mem hc' hcolon) hx rfl

theorem seen_nameVersion (h : env.Documented) {v : Version} (hv : env.IsVersion v) (name : Text) :
    seen (some (name ++ ':' :: env.versionStr v)) =
      some (seenName name ++ ':' :: env.versionStr v) := by
  have hself : encodeFragment (stripped (env.versionStr v)) = env.versionStr v :=
    (encodeFragment_stripped_eq_iff _).mpr (safePrecise_versionStr h hv)
  have hcolon : encodeFragment [':'] = [':'] := by decide
  rw [seen, Option.map_some, stripped_append_cons (by decide), encodeFragment_append,
    ← List.singleton_append (l := stripped _), encodeFragment_append, hself, hcolon, seenName]
  rfl

/-- The name in front of a colon. -/
theorem name_eq_of_colon {f segment name : Text} {version : Option Version} (hcolon : ':' ∈ f)
    (hfound : env.nameAndVersion (some f) segment = .ok (name, version)) :
    name = (splitColon f).1 := by
  cases hrest : (splitColon f).2 with
  | none =>
    have hcolon' := colon_not_mem_splitColon f
    rw [splitColon_none hrest] at hcolon'
    exact absurd hcolon hcolon'
  | some part =>
    have hsplit : splitColon f = ((splitColon f).1, some part) := by rw [← hrest]
    rw [nameAndVersion, hsplit] at hfound
    cases hv : env.toSemver part with
    | error e =>
      simp only [hv, bind, Except.bind] at hfound
      cases hfound
    | ok v =>
      simp only [hv, bind, Except.bind] at hfound
      cases hfound
      rfl

section Long

variable {id : PackageId (SourceId env.crate)} {text : Text}

/-- The long form, taken apart. -/
theorem toStr_long (htext : env.toStr (.fromPackageId id) = .ok text) :
    ∃ urlText segment, env.urlStr id.sourceId.url = .ok urlText ∧
      env.crate.pathName id.sourceId.url = some segment ∧
      text = urlText ++
        marked '#' (env.printedFragment id.name.toList (some id.version) segment) := by
  cases hurl : env.urlStr id.sourceId.url with
  | error e =>
    simp only [toStr, PackageIdSpec.fromPackageId, hurl, bind, Except.bind] at htext
    cases htext
  | ok urlText =>
    cases hsegment : env.crate.pathName id.sourceId.url with
    | none =>
      simp only [toStr, PackageIdSpec.fromPackageId, hurl, hsegment, bind, Except.bind] at htext
      cases htext
    | some segment =>
      rw [PackageIdSpec.fromPackageId, toStr_of_url hurl hsegment] at htext
      cases htext
      exact ⟨urlText, segment, rfl, rfl, rfl⟩

theorem parse_source (h : env.Documented)
    (hurl : ∃ t, env.crate.parse t = .ok id.sourceId.url) :
    env.crate.parse id.sourceId.url.asStr = .ok id.sourceId.url := by
  obtain ⟨t, ht⟩ := hurl
  exact h.parse_asStr t _ ht (cannotBeABase_of_canonicalizeUrl id.sourceId.canonical_eq)

theorem isRooted_source (h : env.Documented)
    (hurl : ∃ t, env.crate.parse t = .ok id.sourceId.url)
    (hquery : id.sourceId.url.query = none) (hfragment : id.sourceId.url.fragment = none)
    {segment : Text} (hsegment : env.crate.pathName id.sourceId.url = some segment) :
    env.IsRooted id.sourceId.url where
  parse := parse_source h hurl
  suffix := (Url.suffix_eq_nil_iff _).mpr ⟨hquery, hfragment⟩
  base := cannotBeABase_of_canonicalizeUrl id.sourceId.canonical_eq
  rooted := pathName_isSome_iff.mp (by rw [hsegment]; rfl)

/-- A long form that is read as it is, is the spec of its package. -/
theorem parse_long (h : env.Documented) (hurl : ∃ t, env.crate.parse t = .ok id.sourceId.url)
    (hv : env.IsVersion id.version) (htext : env.toStr (.fromPackageId id) = .ok text)
    (hreads : env.LongReads id) : env.parse text = .ok (.fromPackageId id) := by
  obtain ⟨urlText, segment, -, hsegment, -⟩ := toStr_long htext
  have hu := isRooted_source h hurl hreads.query hreads.fragment hsegment
  have hname : segment ≠ id.name.toList →
      env.crate.pathName id.sourceId.url ≠ some id.name.toList := by
    intro hne heq
    rw [hsegment, Option.some.injEq] at heq
    exact hne heq
  have hfrom : env.FromFragment id.name.toList (some id.version) segment := by
    refine ⟨fun hne => hreads.colon (hname hne), fun hne => hreads.printable (hname hne),
      fun _ hnone => (by cases hnone), ?_⟩
    rintro _ ⟨⟩
    exact hv
  obtain ⟨text', htext', hback⟩ := (parse_url_back_iff h hu hsegment hfrom).mpr hreads.printsBack
  rw [PackageIdSpec.fromPackageId, htext'] at htext
  cases htext
  exact hback

/-- A long form that is read as some spec of its package is read as a url. -/
theorem readUrl_long (h : env.Documented) (hurl : ∃ t, env.crate.parse t = .ok id.sourceId.url)
    (htext : env.toStr (.fromPackageId id) = .ok text) {spec : PackageIdSpec Version}
    (hparse : env.parse text = .ok spec) :
    ∃ w, env.readUrl text = some w ∧ env.fromUrl w = .ok spec := by
  obtain ⟨urlText, segment, hurlText, hsegment, rfl⟩ := toStr_long htext
  have hself := parse_source h hurl
  have hrooted : (env.crate.path id.sourceId.url).head? = some '/' :=
    pathName_isSome_iff.mp (by rw [hsegment]; rfl)
  unfold parse at hparse
  cases hread : env.readUrl (urlText ++
      marked '#' (env.printedFragment id.name.toList (some id.version) segment)) with
  | some w =>
    rw [hread] at hparse
    exact ⟨w, rfl, hparse⟩
  | none =>
    rw [hread] at hparse
    exfalso
    unfold urlStr at hurlText
    split_ifs at hurlText
    · cases hhost : env.crate.hostStr id.sourceId.url with
      | none =>
        rw [hhost] at hurlText
        cases hurlText
      | some host =>
        rw [hhost] at hurlText
        cases hurlText
        exact parseName_cargo_ne_ok h hself hrooted hhost _ _ hparse
    · cases hurlText
      have hslash : '/' ∈ id.sourceId.url.asStr :=
        (h.path_infix _ _ hself).subset (List.mem_of_mem_head? hrooted)
      exact parseName_url_ne_ok h hself hslash _ _ hparse

/-- The url that a long form is read as, and that it loses nothing. -/
theorem readUrl_long_eq (h : env.Documented) (hu : env.IsRooted id.sourceId.url)
    {urlText segment : Text} (hurlText : env.urlStr id.sourceId.url = .ok urlText) {w : Url}
    (hread : env.readUrl (urlText ++
      marked '#' (env.printedFragment id.name.toList (some id.version) segment)) = some w)
    (hw : w.withoutFragment = id.sourceId.url) :
    env.PrintsBack id.sourceId.url ∧
      w.fragment = seen (env.printedFragment id.name.toList (some id.version) segment) := by
  unfold urlStr at hurlText
  -- a spec of the scheme `cargo` is printed without it
  split_ifs at hurlText with hscheme
  · cases hhost : env.crate.hostStr id.sourceId.url with
    | none =>
      rw [hhost] at hurlText
      cases hurlText
    | some host =>
      rw [hhost] at hurlText
      cases hurlText
      obtain ⟨-, hsuffix, -⟩ := h.parse_cargo _ _ host hu.parse hscheme hhost hu.rooted
      rw [readUrl_cargo h hu hscheme hhost] at hread
      split_ifs at hread with hhas
      cases hread
      rw [Url.withoutFragment_withMark hsuffix] at hw
      refine ⟨fun _ => ⟨host, hhost, hw.symm, fun hpath => hhas ?_⟩,
        Url.fragment_withMark hsuffix⟩
      exact hpath.trans ⟨host, _, rfl⟩
  · cases hurlText
    have hparse := parse_withMark h hu.parse hu.suffix hu.base
      (env.printedFragment id.name.toList (some id.version) segment)
    have hslash := List.mem_append_left
      (marked '#' (env.printedFragment id.name.toList (some id.version) segment))
      (slash_mem_of_rooted h hu)
    rw [readUrl_of_parse hslash hparse, Option.some.injEq] at hread
    rw [← hread]
    exact ⟨fun hcargo => absurd hcargo hscheme, Url.fragment_withMark hu.suffix⟩

/-- A long form that is read as some spec of its package is read as it is. -/
theorem reads_of_long (h : env.Documented) (hurl : ∃ t, env.crate.parse t = .ok id.sourceId.url)
    (hv : env.IsVersion id.version) (htext : env.toStr (.fromPackageId id) = .ok text)
    {spec : PackageIdSpec Version} (hparse : env.parse text = .ok spec)
    (hmatches : spec.matches id) : env.LongReads id := by
  obtain ⟨w, hread, hfrom⟩ := readUrl_long h hurl htext hparse
  obtain ⟨urlText, segment, hurlText, hsegment, rfl⟩ := toStr_long htext
  obtain ⟨hquery, hspec, segment', hsegment', hfound⟩ := fromUrl_ok hfrom
  obtain ⟨hname, -, hmatch⟩ := PackageIdSpec.matches_iff.mp hmatches
  have hw : w.withoutFragment = id.sourceId.url := hmatch _ hspec
  have hquery' : id.sourceId.url.query = none := by rw [← hw, Url.query_withoutFragment, hquery]
  have hfragment' : id.sourceId.url.fragment = none := by rw [← hw, Url.fragment_withoutFragment]
  have hu := isRooted_source h hurl hquery' hfragment' hsegment
  obtain ⟨hprintsBack, hfragment⟩ := readUrl_long_eq h hu hurlText hread hw
  rw [hw, hsegment, Option.some.injEq] at hsegment'
  subst hsegment'
  have hseen : env.crate.pathName id.sourceId.url ≠ some id.name.toList →
      ':' ∉ id.name.toList ∧ seenName id.name.toList = id.name.toList := by
    intro hne
    have hne' : segment ≠ id.name.toList := fun heq => hne (by rw [hsegment, heq])
    rw [printedFragment, if_pos hne', seen_nameVersion h hv] at hfragment
    rw [hfragment] at hfound
    have hsplit := name_eq_of_colon (List.mem_append_right _ List.mem_cons_self) hfound
    have hcolon : ':' ∉ id.name.toList := by
      rw [← hname, hsplit]
      exact colon_not_mem_splitColon _
    rw [splitColon_append (colon_not_mem_seenName hcolon), hname] at hsplit
    exact ⟨hcolon, hsplit.symm⟩
  refine ⟨hquery', hfragment', hprintsBack, fun hne => (hseen hne).1, ?_⟩
  intro hne c hc
  rw [← (hseen hne).2] at hc
  exact range_of_mem_encodeFragment hc

/-- The long form selects its package if and only if it works. -/
theorem long_iff (h : env.Documented) (ids : PackageIds env) (hid : id ∈ ids.ids)
    (htext : env.toStr (.fromPackageId id) = .ok text) :
    env.Selects ids text id ↔ LongWorks ids id := by
  have hurl := ids.urls id hid
  have hv := ids.versions id hid
  have hmatches : ∀ other : PackageId (SourceId env.crate),
      (PackageIdSpec.fromPackageId id).matches other ↔
        other.name = id.name ∧ other.version = id.version ∧
          other.sourceId.url = id.sourceId.url := by
    intro other
    rw [PackageIdSpec.matches_iff]
    simp [PackageIdSpec.fromPackageId, String.toList_inj, eq_comm]
  constructor
  · intro hselects
    obtain ⟨spec, hparse, hspec⟩ := matches_of_selects hselects
    have hreads := reads_of_long h hurl hv htext hparse hspec
    rw [selects_iff (parse_long h hurl hv htext hreads) hid] at hselects
    exact ⟨hreads, fun other hother hname hversion hsource =>
      hselects.2 other hother ((hmatches other).mpr ⟨hname, hversion, hsource⟩)⟩
  · intro hworks
    rw [selects_iff (parse_long h hurl hv htext hworks.toLongReads) hid]
    refine ⟨(hmatches id).mpr ⟨rfl, rfl, rfl⟩, ?_⟩
    intro other hother hspec
    obtain ⟨hname, hversion, hsource⟩ := (hmatches other).mp hspec
    exact hworks.unique other hother hname hversion hsource

end Long

/-! ### The advice -/

/-- Does the version of a package occur once among those that match the spec? -/
def Once (ids : PackageIds env) (spec : PackageIdSpec Version)
    (id : PackageId (SourceId env.crate)) : Prop :=
  ((ids.ids.filter spec.matches).filter fun other => other.version = id.version).length = 1

/-- The advice of a query is the list of suggestions for the packages that match. -/
theorem advice_of_query {ids : List (PackageId (SourceId env.crate))}
    {spec : PackageIdSpec Version} {name text : Text}
    {advice : List (PackageId (SourceId env.crate) × Text)}
    (hquery : env.query spec ids = .error (.ambiguous name text advice)) :
    env.minimize spec (ids.filter spec.matches) = .ok advice := by
  unfold query at hquery
  split at hquery
  · split at hquery <;> cases hquery
  · cases hquery
  · split at hquery
    · rename_i hminimize
      cases hquery
      exact hminimize
    · cases hquery

/-- The suggestions of an ambiguous query select the packages they are for if and only if,
for each package that matches, the form that is suggested works. -/
theorem advice_selects_iff (h : env.Documented) (ids : PackageIds env)
    (spec : PackageIdSpec Version) (name text : Text)
    (advice : List (PackageId (SourceId env.crate) × Text))
    (hquery : env.query spec ids.ids = .error (.ambiguous name text advice)) :
    (∀ line ∈ advice, env.Selects ids line.2 line.1) ↔
      ∀ id ∈ ids.ids, spec.matches id →
        (Once ids spec id → ShortWorks ids id) ∧ (¬Once ids spec id → LongWorks ids id) := by
  have hadvice := advice_of_query hquery
  have hline : ∀ id ∈ ids.ids, spec.matches id → ∀ text,
      env.suggestion spec (ids.ids.filter spec.matches) id = .ok text →
      (env.Selects ids text id ↔
        (Once ids spec id → ShortWorks ids id) ∧ (¬Once ids spec id → LongWorks ids id)) := by
    intro id hid hspec text htext
    have hname := (PackageIdSpec.matches_iff.mp hspec).1
    unfold suggestion at htext
    split_ifs at htext with honce
    · replace honce : Once ids spec id := honce
      rw [hname] at htext
      cases htext
      rw [short_iff h ids hid]
      simp [honce]
    · replace honce : ¬Once ids spec id := honce
      rw [long_iff h ids hid htext]
      simp [honce]
  constructor
  · intro hall id hid hspec
    obtain ⟨line, hmem, hturn⟩ := exists_of_mapM_ok hadvice (List.mem_filter.mpr ⟨hid, hspec⟩)
    obtain ⟨text, htext, hpair⟩ := bind_eq_ok.mp hturn
    cases hpair
    exact (hline id hid hspec text htext).mp (hall _ hmem)
  · intro hworks line hmem
    obtain ⟨id, hid, hturn⟩ := (mem_of_mapM_ok hadvice line).mp hmem
    obtain ⟨text, htext, hpair⟩ := bind_eq_ok.mp hturn
    cases hpair
    obtain ⟨hid, hspec⟩ := List.mem_filter.mp hid
    exact (hline id hid hspec text htext).mpr (hworks id hid hspec)

/-! ### Two registries -/

/-- A registry. -/
def indexSource : SourceId normalizedSpecs.crate where
  url := ⟨"https://example.com/index".toList⟩
  canonicalUrl := ⟨"https://example.com/index".toList⟩
  kind := .registry
  precise := none
  name := none
  canonical_eq := by decide

/-- Another registry. -/
def mirrorSource : SourceId normalizedSpecs.crate where
  url := ⟨"https://example.com/mirror".toList⟩
  canonicalUrl := ⟨"https://example.com/mirror".toList⟩
  kind := .registry
  precise := none
  name := none
  canonical_eq := by decide

/-- A version of `foo` from a registry. -/
def fooFrom (source : SourceId normalizedSpecs.crate) (major : ℕ) :
    PackageId (SourceId normalizedSpecs.crate) := ⟨"foo", ⟨major, 0, 0, []⟩, source⟩

/-- Two versions of `foo` from one registry. -/
def twoVersions : PackageIds normalizedSpecs where
  ids := [fooFrom indexSource 1, fooFrom indexSource 2]
  distinct := by decide
  urls := by
    intro id hid
    have hsource : id.sourceId = indexSource := by
      rcases List.mem_pair.mp hid with rfl | rfl <;> rfl
    rw [hsource]
    exact ⟨"https://example.com/index".toList, by decide⟩
  versions := by
    intro id hid
    rcases List.mem_pair.mp hid with rfl | rfl
    · exact ⟨"1.0.0".toList, by decide⟩
    · exact ⟨"2.0.0".toList, by decide⟩

/-- The spec `foo` is answered with the two versions, and either is found by its advice. -/
theorem two_versions_advised : ∃ name text advice,
    normalizedSpecs.query ⟨"foo".toList, none, none⟩ twoVersions.ids =
        .error (.ambiguous name text advice) ∧
      ∀ line ∈ advice, normalizedSpecs.Selects twoVersions line.2 line.1 := by
  have hquery : normalizedSpecs.query ⟨"foo".toList, none, none⟩ twoVersions.ids =
      .error (.ambiguous "foo".toList "foo".toList [(fooFrom indexSource 1, "foo:1.0.0".toList),
        (fooFrom indexSource 2, "foo:2.0.0".toList)]) := by decide
  refine ⟨_, _, _, hquery, ?_⟩
  refine (advice_selects_iff normalizedSpecs_documented _ _ _ _ _ hquery).mpr ?_
  intro id hid _
  have honce : Once twoVersions ⟨"foo".toList, none, none⟩ id := by
    rcases List.mem_pair.mp hid with rfl | rfl <;> (unfold Once; decide)
  refine ⟨fun _ => ⟨?_, ?_⟩, fun hmany => absurd honce hmany⟩
  · rcases List.mem_pair.mp hid with rfl | rfl <;> exact List.all_eq_true.mp (by decide)
  · rcases List.mem_pair.mp hid with rfl | rfl <;> decide

/-- The same with the first version from another registry as well. -/
def threePackages : PackageIds normalizedSpecs where
  ids := [fooFrom indexSource 1, fooFrom indexSource 2, fooFrom mirrorSource 1]
  distinct := by decide
  urls := by
    intro id hid
    simp only [List.mem_cons, List.not_mem_nil, or_false] at hid
    rcases hid with rfl | rfl | rfl
    · exact ⟨"https://example.com/index".toList, by decide⟩
    · exact ⟨"https://example.com/index".toList, by decide⟩
    · exact ⟨"https://example.com/mirror".toList, by decide⟩
  versions := by
    intro id hid
    simp only [List.mem_cons, List.not_mem_nil, or_false] at hid
    rcases hid with rfl | rfl | rfl
    · exact ⟨"1.0.0".toList, by decide⟩
    · exact ⟨"2.0.0".toList, by decide⟩
    · exact ⟨"1.0.0".toList, by decide⟩

/-- A query for `foo` of the first registry is answered with `foo:1.0.0`, which fits the
package of the other registry as well. -/
theorem two_registries_misadvised : normalizedSpecs.Documented ∧ ∃ name text advice,
    normalizedSpecs.query ⟨"foo".toList, none, some indexSource.url⟩ threePackages.ids =
        .error (.ambiguous name text advice) ∧
      ¬∀ line ∈ advice, normalizedSpecs.Selects threePackages line.2 line.1 := by
  have hquery : normalizedSpecs.query ⟨"foo".toList, none, some indexSource.url⟩
      threePackages.ids = .error (.ambiguous "foo".toList
        "https://example.com/index#foo".toList [(fooFrom indexSource 1, "foo:1.0.0".toList),
          (fooFrom indexSource 2, "foo:2.0.0".toList)]) := by decide
  refine ⟨normalizedSpecs_documented, _, _, _, hquery, ?_⟩
  intro hall
  obtain ⟨spec, hparse, hselects⟩ := hall _ List.mem_cons_self
  have hread : normalizedSpecs.parse "foo:1.0.0".toList =
      .ok ⟨"foo".toList, some ⟨1, 0, 0, []⟩, none⟩ := by decide
  rw [hread] at hparse
  cases hparse
  rw [query_eq_ok_iff] at hselects
  exact absurd hselects (by decide)

end SpecEnv

end Cargo.Core
