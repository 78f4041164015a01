import Cargo.Core.IdOrder
import Cargo.Math.Iteration
import Cargo.Core.SourceId.Normalized

/-!
# Reading back what was written

Registry sources are read back as they were written. A git source is read back exactly when
its url has no query and no fragment of its own and its reference and precise revision have
none of the characters that the url parser and the form decoder change.

## Main definitions

* `ReadsBack`, `SourceId.RoundTrips`, `EncodablePackageId.RoundTrips`
* `SafeReference`, `Printable` — what git sources have to be like

## Main results

* `round_trips_iff_printable` — which sources and package ids are read back
-/

set_option autoImplicit false

open Cargo.Math

namespace Cargo.Core

variable {crate : UrlCrate}

/-! ### What is written so that it is read back -/

/-- A reference that a query holds as it is. With nothing behind it, it must not end in a
control character or a space. -/
structure SafeReference (name : Text) (last : Bool) : Prop where
  no_special : ∀ c ∈ name, c ≠ '&' ∧ c ≠ '#' ∧ c ≠ '+' ∧ tabOrNewline c = false
  no_escape : HasEscape name = false
  no_space : last → ∀ c ∈ name.getLast?, c0OrSpace c = false

/-- A git source that is written so that it is read back. -/
structure Printable (url : Url) (reference : GitReference) (precise : Option Text) : Prop where
  query : url.query = none
  fragment : url.fragment = none
  reference : reference ≠ .branch "master".toList → SafeReference reference.name precise.isNone
  precise : ∀ t ∈ precise, SafePrecise t

/-- One source is the other as it was read back: equal, with the same git reference and, for
git, with the same precise revision. -/
structure ReadsBack (s s' : SourceId crate) : Prop where
  eq : s'.eq s
  gitReference : s'.gitReference = s.gitReference
  precise : s.gitReference.isSome → s'.precise = s.precise

/-- A source that is read back from its text. -/
def SourceId.RoundTrips (s : SourceId crate) : Prop :=
  ∃ s', SourceId.fromUrl s.toUrl = .ok s' ∧ ReadsBack s s'

/-- A package id that is read back from its text. -/
def EncodablePackageId.RoundTrips (id : EncodablePackageId crate) : Prop :=
  ∃ id', fromStr id.display = .ok id' ∧ id'.name = id.name ∧
    id'.version = id.version ∧
    ∀ s ∈ id.source, ∃ s', id'.source = some s' ∧ ReadsBack s s'

/-! ### The suffix of a git source -/

/-- The part of a reference's name that the parser sees before it looks for a fragment. -/
def prepared (name : Text) (last : Bool) : Text :=
  if last then stripped name else name.filter fun c => !tabOrNewline c

theorem prepared_sublist (name : Text) (last : Bool) : (prepared name last).Sublist name := by
  unfold prepared
  split
  · exact stripped_sublist name
  · exact List.filter_sublist

theorem prepared_eq_self_iff (name : Text) (last : Bool) :
    prepared name last = name ↔ (∀ c ∈ name, tabOrNewline c = false) ∧
      (last → ∀ c ∈ name.getLast?, c0OrSpace c = false) := by
  cases last with
  | true => simpa [prepared] using stripped_eq_self_iff name
  | false => simp [prepared, List.filter_eq_self]

theorem filter_key (r : GitReference) :
    (r.key.filter fun c => !tabOrNewline c) = r.key := by
  cases r <;> rfl

/-- What the parser sees of a reference and a precise revision. -/
theorem stripped_suffix (r : GitReference) (precise : Option Text) :
    stripped (marked '?' (some (r.key ++ '=' :: r.name)) ++ marked '#' precise) =
      marked '?' (some (r.key ++ '=' :: prepared r.name precise.isNone)) ++
        marked '#' (precise.map stripped) := by
  cases precise with
  | none =>
    have h := stripped_append_cons (x := '?' :: r.key) (y := r.name)
      (show c0OrSpace '=' = false by decide)
    rw [List.filter_cons_of_pos (by decide), filter_key] at h
    simpa [marked, prepared] using h
  | some t =>
    have h := stripped_append_cons (x := '?' :: (r.key ++ '=' :: r.name)) (y := t)
      (show c0OrSpace '#' = false by decide)
    rw [List.filter_cons_of_pos (by decide), List.filter_append,
      List.filter_cons_of_pos (by decide), filter_key] at h
    simpa [marked, prepared] using h

/-- What is written behind the url of a git source. -/
def gitSuffix (reference : GitReference) (precise : Option Text) : Text :=
  marked '?' reference.prettyRef ++ marked '#' precise

/-- The query that the parser makes of a suffix. -/
def seenQuery (t : Text) : Option Text :=
  ((stripped t).takeWhile (· ≠ '#')).tail?.map (percentEncode encodedInQuery)

/-- The fragment that the parser makes of a suffix. -/
def seenFragment (t : Text) : Option Text :=
  ((stripped t).dropWhile (· ≠ '#')).tail?.map encodeFragment

theorem hash_not_mem_seenQuery {t q : Text} (h : q ∈ seenQuery t) : '#' ∉ q := by
  intro hmem
  obtain ⟨x, -, rfl⟩ := Option.mem_map.mp h
  rcases mem_percentEncode hmem with h | h | h <;> exact absurd h (by decide)

/-- A git source's own reference is seen whole up to the first `#` in it. -/
theorem seenQuery_gitSuffix {r : GitReference} (hr : r ≠ .branch "master".toList)
    (precise : Option Text) :
    seenQuery (gitSuffix r precise) = some (percentEncode encodedInQuery
      (r.key ++ '=' :: (prepared r.name precise.isNone).takeWhile (· ≠ '#'))) := by
  have hkey : ∀ c ∈ '?' :: (r.key ++ ['=']), decide (c ≠ '#') = true := by
    intro c hc
    simp only [List.mem_cons, List.mem_append, List.not_mem_nil, or_false] at hc
    rcases hc with rfl | hc | rfl
    · decide
    · simpa using ne_of_mem_of_not_mem hc r.key_separate.2.2
    · decide
  have htail : ∀ x : Text, (x ++ marked '#' (precise.map stripped)).takeWhile (· ≠ '#') =
      x.takeWhile (· ≠ '#') := by
    intro x
    induction x with
    | nil => cases precise <;> simp [marked]
    | cons c x ih =>
      by_cases hc : c = '#'
      · simp [hc]
      · rw [List.cons_append, List.takeWhile_cons_of_pos (by simpa using hc), ih,
          List.takeWhile_cons_of_pos (by simpa using hc)]
  rw [seenQuery, gitSuffix, GitReference.prettyRef_eq, if_neg hr, stripped_suffix, htail]
  rw [show marked '?' (some (r.key ++ '=' :: prepared r.name precise.isNone)) =
      '?' :: (r.key ++ ['=']) ++ prepared r.name precise.isNone by simp [marked],
    List.takeWhile_append_of_pos hkey]
  simp

/-- If a reference is seen as it is, then so is the fragment. -/
theorem seenFragment_gitSuffix (r : GitReference) (precise : Option Text)
    (h : r ≠ .branch "master".toList → prepared r.name precise.isNone = r.name ∧ '#' ∉ r.name) :
    seenFragment (gitSuffix r precise) = precise.map fun t => encodeFragment (stripped t) := by
  rw [seenFragment, gitSuffix, GitReference.prettyRef_eq]
  split_ifs with hr
  · cases precise with
    | none => rfl
    | some t =>
      have hstrip := stripped_append_cons (x := []) (y := t) (show c0OrSpace '#' = false by decide)
      simp only [List.nil_append, List.filter_nil] at hstrip
      simp [marked, hstrip]
  · obtain ⟨hprepared, hhash⟩ := h hr
    have hmem : '#' ∉ marked '?' (some (r.key ++ '=' :: r.name)) := by
      simp [marked, r.key_separate.2.2, hhash]
    rw [stripped_suffix, hprepared, dropWhile_append_marked hmem, tail?_marked, Option.map_map]
    rfl

theorem takeWhile_prepared_eq_iff (name : Text) (last : Bool) :
    (prepared name last).takeWhile (· ≠ '#') = name ↔ prepared name last = name ∧ '#' ∉ name := by
  constructor
  · intro h
    have hle : name.length ≤ (prepared name last).length := by
      calc name.length = ((prepared name last).takeWhile (· ≠ '#')).length := by rw [h]
        _ ≤ (prepared name last).length := (List.takeWhile_sublist _).length_le
    have hprepared := (prepared_sublist name last).eq_of_length_le hle
    refine ⟨hprepared, ?_⟩
    rw [hprepared] at h
    intro hmem
    rw [← h] at hmem
    simpa using List.mem_takeWhile_imp hmem
  · rintro ⟨hprepared, hhash⟩
    rw [hprepared, List.takeWhile_eq_self_iff]
    intro c hc
    simpa using ne_of_mem_of_not_mem hc hhash

/-- Reference and precise revision are read back exactly when they are safe. -/
theorem seen_iff_safe (r : GitReference) (precise : Option Text) :
    (GitReference.ofQuery (seenQuery (gitSuffix r precise)) = r ∧
        seenFragment (gitSuffix r precise) = precise) ↔
      (r ≠ .branch "master".toList → SafeReference r.name precise.isNone) ∧
        ∀ t ∈ precise, SafePrecise t := by
  have hprecise : (precise.map fun t => encodeFragment (stripped t)) = precise ↔
      ∀ t ∈ precise, SafePrecise t := by
    cases precise with
    | none => simp
    | some t => simp [encodeFragment_stripped_eq_iff]
  by_cases hr : r = .branch "master".toList
  -- the branch master is not written, and nothing is read as that branch
  · have hquery : seenQuery (gitSuffix r precise) = none := by
      rw [seenQuery, gitSuffix, GitReference.prettyRef_eq, if_pos hr]
      cases precise with
      | none => rfl
      | some t =>
        have hstrip := stripped_append_cons (x := []) (y := t)
          (show c0OrSpace '#' = false by decide)
        simp only [List.nil_append, List.filter_nil] at hstrip
        simp [marked, hstrip]
    have hfragment := seenFragment_gitSuffix r precise fun h => absurd hr h
    rw [hquery, hfragment, hprecise]
    simp [hr, GitReference.ofQuery, formPairs, pieces]
  -- what is seen of the name is a part of it, so that it is the name if nothing is lost
  · have hsub : ((prepared r.name precise.isNone).takeWhile (· ≠ '#')).Sublist r.name :=
      (List.takeWhile_sublist _).trans (prepared_sublist _ _)
    rw [seenQuery_gitSuffix hr, GitReference.ofQuery_eq_iff hr hsub, takeWhile_prepared_eq_iff]
    constructor
    · rintro ⟨⟨⟨hprepared, hhash⟩, hand, hplus, hescape⟩, hfragment⟩
      rw [seenFragment_gitSuffix r precise fun _ => ⟨hprepared, hhash⟩, hprecise] at hfragment
      obtain ⟨htab, hspace⟩ := (prepared_eq_self_iff _ _).mp hprepared
      refine ⟨fun _ => ⟨?_, hescape, hspace⟩, hfragment⟩
      intro c hc
      exact ⟨ne_of_mem_of_not_mem hc hand, ne_of_mem_of_not_mem hc hhash,
        ne_of_mem_of_not_mem hc hplus, htab c hc⟩
    · rintro ⟨hsafe, hfragment⟩
      obtain ⟨hspecial, hescape, hspace⟩ := hsafe hr
      have hprepared : prepared r.name precise.isNone = r.name :=
        (prepared_eq_self_iff _ _).mpr ⟨fun c hc => (hspecial c hc).2.2.2, hspace⟩
      have hhash : '#' ∉ r.name := fun h => (hspecial _ h).2.1 rfl
      rw [seenFragment_gitSuffix r precise fun _ => ⟨hprepared, hhash⟩, hprecise]
      exact ⟨⟨⟨hprepared, hhash⟩, fun h => (hspecial _ h).1 rfl,
        fun h => (hspecial _ h).2.2.1 rfl, hescape⟩, hfragment⟩

/-! ### Git sources -/

/-- The parser's reading of a git source's url and suffix. -/
theorem parseUrl_gitSuffix (h : crate.ReadsUrls) {u : Url} (hparse : crate.parse u.asStr = .ok u)
    (hbase : crate.cannotBeABase u = false) (hu : u.suffix = []) (r : GitReference)
    (precise : Option Text) :
    parseUrl crate (u.asStr ++ gitSuffix r precise) =
      .ok ⟨u.asStr ++ marked '?' (seenQuery (gitSuffix r precise)) ++
        marked '#' (seenFragment (gitSuffix r precise))⟩ := by
  have hshape : gitSuffix r precise = [] ∨
      ∃ c t, gitSuffix r precise = c :: t ∧ (c = '?' ∨ c = '#') := by
    unfold gitSuffix
    cases r.prettyRef <;> cases precise <;> simp [marked]
  have hread : crate.parse (u.asStr ++ gitSuffix r precise) =
      .ok ⟨u.asStr ++ encodeSuffix (stripped (gitSuffix r precise))⟩ := by
    rcases hshape with hnil | hmark
    · rw [hnil, List.append_nil, hparse]
      simp [encodeSuffix, stripped, marked]
    · exact h.parse_suffix u _ hparse hbase hu hmark
  have hparts : u.asStr ++ marked '?' (seenQuery (gitSuffix r precise)) ++
      marked '#' (seenFragment (gitSuffix r precise)) =
      u.asStr ++ encodeSuffix (stripped (gitSuffix r precise)) := List.append_assoc _ _ _
  rw [hparts, parseUrl, hread]
  rfl

/-- The reading of a git source without a query or a fragment of its own. -/
theorem fromUrl_toUrl_git (h : crate.ReadsUrls) {s : SourceId crate} {r : GitReference}
    (hkind : s.kind = .git r) (hparse : crate.parse s.url.asStr = .ok s.url)
    (hu : s.url.suffix = []) :
    (SourceId.fromUrl s.toUrl : Except Text (SourceId crate)) =
      (SourceId.forGit s.url (.ofQuery (seenQuery (gitSuffix r s.precise)))).map
        (·.withPrecise (seenFragment (gitSuffix r s.precise))) := by
  have hbase := cannotBeABase_of_canonicalizeUrl s.canonical_eq
  have hplain : ∀ c ∈ s.url.asStr, inBase c := by
    simpa [Url.suffix, List.dropWhile_eq_nil_iff] using hu
  have hurl : s.toUrl = "git+".toList ++ (s.url.asStr ++ gitSuffix r s.precise) := by
    simp [SourceId.toUrl, hkind, gitSuffix]
  have hread := parseUrl_gitSuffix h hparse hbase hu r s.precise
  have hquery : ∀ q ∈ seenQuery (gitSuffix r s.precise), '#' ∉ q :=
    fun q hq => hash_not_mem_seenQuery hq
  rw [hurl]
  change (do
    let url ← parseUrl crate (s.url.asStr ++ gitSuffix r s.precise)
    let source ← SourceId.forGit ⟨url.base⟩ (.ofQuery url.query)
    return source.withPrecise url.fragment : Except Text (SourceId crate)) = _
  rw [hread]
  simp only [bind, Except.bind, base_of_parts hplain, query_of_parts hplain hquery,
    fragment_of_parts hplain hquery]
  cases SourceId.forGit s.url (.ofQuery (seenQuery (gitSuffix r s.precise))) <;> rfl

/-- Whatever a git text is read as has neither a query nor a fragment. -/
theorem suffix_of_fromUrl_git {t : Text} {s' : SourceId crate}
    (h : SourceId.fromUrl ("git+".toList ++ t) = .ok s') : s'.url.suffix = [] := by
  change (do
    let url ← parseUrl crate t
    let source ← SourceId.forGit ⟨url.base⟩ (.ofQuery url.query)
    return source.withPrecise url.fragment : Except Text (SourceId crate)) = _ at h
  cases hparse : parseUrl crate t with
  | error e =>
    rw [hparse] at h
    cases h
  | ok url =>
    rw [hparse] at h
    simp only [bind, Except.bind] at h
    cases hnew : (SourceId.forGit ⟨url.base⟩ (.ofQuery url.query) :
        Except Text (SourceId crate)) with
    | error e =>
      rw [hnew] at h
      cases h
    | ok source =>
      rw [hnew] at h
      cases h
      change source.url.suffix = []
      rw [(SourceId.new_ok hnew).1, Url.suffix, List.dropWhile_eq_nil_iff]
      intro c hc
      exact url.inBase_of_mem_base hc

/-- Equal sources have the same query and fragment. -/
theorem suffix_eq_of_eq {a b : SourceId crate} (h : a.eq b) : a.url.suffix = b.url.suffix := by
  rcases ((SourceId.eq_iff a b).mp h).2 with hurl | ⟨-, hcanonical⟩
  · rw [hurl]
  · rw [← suffix_of_canonicalizeUrl a.canonical_eq, hcanonical,
      suffix_of_canonicalizeUrl b.canonical_eq]

/-- A git source that was made of a url the parser gave is read back exactly when it is
printable. -/
theorem roundTrips_git_iff (h : crate.ReadsUrls) {t : Text} {u : Url}
    (hparse : crate.parse t = .ok u) {r : GitReference} {s : SourceId crate}
    (hs : SourceId.forGit u r = .ok s) (precise : Option Text) :
    (s.withPrecise precise).RoundTrips ↔ Printable u r precise := by
  obtain ⟨hurl, hkind, -, -⟩ := SourceId.new_ok hs
  have hcanonical := s.canonical_eq
  have hbase := cannotBeABase_of_canonicalizeUrl hcanonical
  rw [hurl] at hbase
  have hprints := h.parse_asStr t u hparse hbase
  have hgit : (s.withPrecise precise).gitReference = some r := by
    simp [SourceId.gitReference, SourceId.withPrecise, hkind]
  by_cases hu : u.suffix = []
  -- the url adds nothing, so that query and fragment are those of reference and revision
  · have hread := fromUrl_toUrl_git h (s := s.withPrecise precise) hkind
      (by rw [← hurl] at hprints; exact hprints) (by rw [← hurl] at hu; exact hu)
    change SourceId.fromUrl _ = (SourceId.forGit s.url
      (.ofQuery (seenQuery (gitSuffix r precise)))).map _ at hread
    obtain ⟨source, hnew, hsource, hsourceKind⟩ := SourceId.exists_new
      (.git (.ofQuery (seenQuery (gitSuffix r precise)))) hcanonical
    rw [show SourceId.forGit s.url _ = Except.ok source from hnew] at hread
    have hprintable : Printable u r precise ↔
        (r ≠ .branch "master".toList → SafeReference r.name precise.isNone) ∧
          ∀ t ∈ precise, SafePrecise t := by
      obtain ⟨hquery, hfragment⟩ := u.suffix_eq_nil_iff.mp hu
      exact ⟨fun h => ⟨h.reference, h.precise⟩, fun h => ⟨hquery, hfragment, h.1, h.2⟩⟩
    rw [hprintable, ← seen_iff_safe]
    constructor
    · rintro ⟨s', hs', hback⟩
      rw [hread] at hs'
      cases hs'
      have hreference := hback.gitReference
      have hprecise := hback.precise (by simp [hgit])
      rw [hgit] at hreference
      simp only [SourceId.gitReference, SourceId.withPrecise, hsourceKind,
        Option.some.injEq] at hreference
      exact ⟨hreference, hprecise⟩
    · rintro ⟨hreference, hfragment⟩
      refine ⟨_, hread, ?_, ?_, ?_⟩
      · rw [SourceId.eq_iff]
        simp only [SourceId.withPrecise, hsourceKind, hkind, hreference, hsource]
        exact ⟨trivial, .inl trivial⟩
      · simp [SourceId.gitReference, SourceId.withPrecise, hsourceKind, hkind, hreference]
      · intro _
        exact hfragment
  · -- the query or fragment of the url itself is lost
    constructor
    · rintro ⟨s', hs', hback⟩
      have hurl' : (s.withPrecise precise).toUrl =
          "git+".toList ++ (s.url.asStr ++ gitSuffix r precise) := by
        simp [SourceId.toUrl, SourceId.withPrecise, hkind, gitSuffix]
      rw [hurl'] at hs'
      have hsuffix := suffix_eq_of_eq hback.eq
      rw [suffix_of_fromUrl_git hs'] at hsuffix
      change [] = s.url.suffix at hsuffix
      rw [hurl] at hsuffix
      exact absurd hsuffix.symm hu
    · intro hprintable
      exact absurd (u.suffix_eq_nil_iff.mpr ⟨hprintable.query, hprintable.fragment⟩) hu

/-! ### Registry sources and packages -/

/-- A registry source is read back. -/
theorem roundTrips_registry (h : crate.ReadsUrls) {t : Text} {u : Url}
    (hparse : crate.parse t = .ok u) {s : SourceId crate}
    (hs : SourceId.forRegistry u = .ok s) : s.RoundTrips := by
  obtain ⟨hurl, hkind, -, -⟩ := SourceId.new_ok hs
  have hbase := cannotBeABase_of_canonicalizeUrl s.canonical_eq
  rw [hurl] at hbase
  have hprints := h.parse_asStr t u hparse hbase
  refine ⟨s.withPrecise (some "locked".toList), ?_, ?_, rfl, ?_⟩
  · have hwrite : s.toUrl = "registry+".toList ++ u.asStr := by
      simp [SourceId.toUrl, hkind, hurl]
    rw [hwrite]
    change (do
      let url ← parseUrl crate u.asStr
      let source ← SourceId.new .registry url
      return source.withPrecise (some "locked".toList) : Except Text (SourceId crate)) = _
    rw [parseUrl, hprints]
    change (do
      let source ← SourceId.new .registry u
      return source.withPrecise (some "locked".toList) : Except Text (SourceId crate)) = _
    rw [show SourceId.new .registry u = Except.ok s from hs]
    rfl
  · rw [SourceId.eq_iff]
    exact ⟨rfl, .inl rfl⟩
  · intro hgit
    simp [SourceId.gitReference, hkind] at hgit

namespace EncodablePackageId

theorem space_not_mem_firstWord (t : Text) : ' ' ∉ firstWord t := by
  intro h
  simpa using List.mem_takeWhile_imp h

theorem firstWord_append {w : Text} (hw : ' ' ∉ w) (t : Text) :
    firstWord (w ++ ' ' :: t) = w :=
  takeWhile_append_marked hw (some t)

theorem afterWord_append {w : Text} (hw : ' ' ∉ w) (t : Text) :
    ((w ++ ' ' :: t).dropWhile (· ≠ ' ')).tail? = some t := by
  rw [show w ++ ' ' :: t = w ++ marked ' ' (some t) from rfl, dropWhile_append_marked hw]
  rfl

/-- What is read has no spaces in its name and its version. -/
theorem words_of_fromStr {t : Text} {id : EncodablePackageId crate} (h : fromStr t = .ok id) :
    ' ' ∉ id.name ∧ ' ' ∉ id.version := by
  unfold fromStr at h
  split at h
  · cases h
  next rest _ =>
    split at h
    · cases h
      exact ⟨space_not_mem_firstWord t, space_not_mem_firstWord rest⟩
    next source _ =>
      split_ifs at h
      obtain ⟨s, -, rfl⟩ := map_eq_ok.mp h
      exact ⟨space_not_mem_firstWord t, space_not_mem_firstWord rest⟩

/-- Reading a package id that was written reads its source. -/
theorem fromStr_display {id : EncodablePackageId crate} (hname : ' ' ∉ id.name)
    (hversion : ' ' ∉ id.version) {s : SourceId crate} (hs : id.source = some s) :
    (fromStr id.display : Except Text (EncodablePackageId crate)) =
      (SourceId.fromUrl s.toUrl).map fun s' =>
        { name := id.name, version := id.version, source := some s' } := by
  have hdisplay : id.display =
      id.name ++ ' ' :: (id.version ++ ' ' :: ('(' :: (s.toUrl ++ [')']))) := by
    simp [display, hs]
  rw [hdisplay, fromStr, afterWord_append hname]
  simp only [afterWord_append hversion, firstWord_append hname, firstWord_append hversion]
  rw [if_pos]
  · simp only [List.tail_cons, List.dropLast_concat]
  · exact ⟨rfl, by simp [List.getLast?_cons]⟩

/-- A package id is read back exactly when its source is, and its name and its version have no
spaces. -/
theorem roundTrips_iff {id : EncodablePackageId crate} {s : SourceId crate}
    (hs : id.source = some s) :
    id.RoundTrips ↔ (' ' ∉ id.name ∧ ' ' ∉ id.version) ∧ s.RoundTrips := by
  constructor
  · rintro ⟨id', hread, hname, hversion, hsource⟩
    have hwords := words_of_fromStr hread
    rw [hname, hversion] at hwords
    refine ⟨hwords, ?_⟩
    obtain ⟨s', hs', hback⟩ := hsource s hs
    rw [fromStr_display hwords.1 hwords.2 hs] at hread
    obtain ⟨s'', hurl, rfl⟩ := map_eq_ok.mp hread
    cases hs'
    exact ⟨s', hurl, hback⟩
  · rintro ⟨⟨hname, hversion⟩, s', hread, hback⟩
    refine ⟨⟨id.name, id.version, some s'⟩, ?_, rfl, rfl, ?_⟩
    · rw [fromStr_display hname hversion hs, hread]
      rfl
    · intro s₀ hs₀
      rw [hs] at hs₀
      cases hs₀
      exact ⟨s', rfl, hback⟩

end EncodablePackageId

/-- Of the sources that are made of urls the parser gave, registry sources are always read
back from their text, and a git source exactly when it is printable: its url has no query
and no fragment, and its reference and precise revision are safe. The package ids of such
sources are read back in the same cases, if there is no space in the name or the version. -/
theorem round_trips_iff_printable (h : crate.ReadsUrls) (t : Text) (u : Url)
    (hparse : crate.parse t = .ok u) :
    (∀ (r : GitReference) (s : SourceId crate), SourceId.forGit u r = .ok s →
      ∀ precise : Option Text,
        ((s.withPrecise precise).RoundTrips ↔ Printable u r precise) ∧
        ∀ id : EncodablePackageId crate, id.source = some (s.withPrecise precise) →
          (id.RoundTrips ↔ (' ' ∉ id.name ∧ ' ' ∉ id.version) ∧ Printable u r precise)) ∧
    (∀ s : SourceId crate, SourceId.forRegistry u = .ok s → s.RoundTrips ∧
      ∀ id : EncodablePackageId crate, id.source = some s →
        (id.RoundTrips ↔ ' ' ∉ id.name ∧ ' ' ∉ id.version)) := by
  constructor
  · intro r s hs precise
    have hgit := roundTrips_git_iff h hparse hs precise
    refine ⟨hgit, ?_⟩
    intro id hid
    rw [EncodablePackageId.roundTrips_iff hid, hgit]
  · intro s hs
    have hregistry := roundTrips_registry h hparse hs
    refine ⟨hregistry, ?_⟩
    intro id hid
    rw [EncodablePackageId.roundTrips_iff hid]
    exact and_iff_left hregistry

/-! ### Two repositories -/

/-- The url of a repository. -/
def repoUrl : Url := ⟨"https://example.com/repo".toList⟩

/-- A branch of the repository as a source, with nothing precise. -/
def repoBranch (name : Text) : SourceId normalizedUrls where
  url := repoUrl
  canonicalUrl := repoUrl
  kind := .git (.branch name)
  precise := none
  name := none
  canonical_eq := by decide

/-- The tag `v1.0` of a repository is read back, with the revision it was found at, and so is a
package from there if there is no space at the end of its name. -/
theorem round_trips_of_tag :
    normalizedUrls.parse "https://example.com/repo".toList = .ok repoUrl ∧
      ∃ s, SourceId.forGit repoUrl (.tag "v1.0".toList) = .ok s ∧
        Printable repoUrl (.tag "v1.0".toList) (some "0a1b2c".toList) ∧
        (s.withPrecise (some "0a1b2c".toList) : SourceId normalizedUrls).RoundTrips ∧
        EncodablePackageId.RoundTrips
          ⟨"foo".toList, "1.0.0".toList, some (s.withPrecise (some "0a1b2c".toList))⟩ ∧
        ¬ EncodablePackageId.RoundTrips
          ⟨"foo ".toList, "1.0.0".toList, some (s.withPrecise (some "0a1b2c".toList))⟩ := by
  have hparse : normalizedUrls.parse "https://example.com/repo".toList = .ok repoUrl := by
    decide
  have hcanonical : canonicalizeUrl normalizedUrls repoUrl = .ok repoUrl := by decide
  obtain ⟨s, hs, -, -⟩ := SourceId.exists_new (.git (.tag "v1.0".toList)) hcanonical
  have hprintable : Printable repoUrl (.tag "v1.0".toList) (some "0a1b2c".toList) := by
    have hname : SafeReference "v1.0".toList false := by
      refine ⟨?_, by decide, fun h => absurd h (by decide)⟩
      intro c hc
      change c ∈ ['v', '1', '.', '0'] at hc
      simp only [List.mem_cons, List.not_mem_nil, or_false] at hc
      rcases hc with rfl | rfl | rfl | rfl <;> decide
    have hprecise : SafePrecise "0a1b2c".toList := by
      refine ⟨?_, by decide⟩
      intro c hc
      change c ∈ ['0', 'a', '1', 'b', '2', 'c'] at hc
      simp only [List.mem_cons, List.not_mem_nil, or_false] at hc
      rcases hc with rfl | rfl | rfl | rfl | rfl | rfl <;> decide
    refine ⟨by decide, by decide, fun _ => hname, ?_⟩
    rintro _ ⟨⟩
    exact hprecise
  have hiff := (round_trips_iff_printable normalizedUrls_readsUrls _ _ hparse).1 _ s hs
    (some "0a1b2c".toList)
  refine ⟨hparse, s, hs, hprintable, hiff.1.mpr hprintable, ?_, ?_⟩
  · have hname : ' ' ∉ "foo".toList := by decide
    have hversion : ' ' ∉ "1.0.0".toList := by decide
    exact (hiff.2 _ rfl).mpr ⟨⟨hname, hversion⟩, hprintable⟩
  · intro hback
    have hname : ' ' ∉ "foo ".toList := ((hiff.2 _ rfl).mp hback).1.1
    exact absurd hname (by decide)

/-- The branch `c++` is read back as a branch whose name has two spaces. -/
theorem branch_with_plus_misread :
    normalizedUrls.parse "https://example.com/repo".toList = .ok repoUrl ∧
      SourceId.forGit repoUrl (.branch "c++".toList) = .ok (repoBranch "c++".toList) ∧
      SourceId.fromUrl (repoBranch "c++".toList).toUrl = .ok (repoBranch "c  ".toList) ∧
      ¬ (repoBranch "c++".toList).RoundTrips := by
  have hread : SourceId.fromUrl (repoBranch "c++".toList).toUrl =
      .ok (repoBranch "c  ".toList) := by rfl
  refine ⟨by decide, rfl, hread, ?_⟩
  rintro ⟨s', hs', hback⟩
  rw [hread] at hs'
  cases hs'
  exact absurd hback.gitReference (by decide)

end Cargo.Core
