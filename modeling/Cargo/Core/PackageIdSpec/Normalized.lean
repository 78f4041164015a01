import Cargo.Core.PackageIdSpec
import Cargo.Core.SourceId.Normalized

/-!
# Specs with normalized urls

Specs whose urls are of the form `scheme://host/path`, normalized already, with nothing else
between the scheme and the path. Queries and fragments are taken as the url crate does, and
versions have three numbers of one digit.

## Main definitions

* `parseSpecUrl`, `parseDigits`, `normalizedSpecs`

## Main results

* `normalizedSpecs_documented` — what is documented of the crates holds of these
-/

set_option autoImplicit false

open Cargo.Math

namespace Cargo.Core

/-! ### Urls -/

/-- Is the text a normalized base with nothing but a host between the scheme and the path? -/
def isSpecUrl (b : Text) : Bool :=
  isNormalized b && (UrlCrate.cut b).1.all Char.isAlphanum &&
    (UrlCrate.cut b).1.head?.any Char.isAlpha && !(UrlCrate.cut b).2.1.contains ':'

/-- The url crate's reading of a text that starts with such a base. -/
def parseSpecUrl (t : Text) : Except Text Url :=
  if isSpecUrl (t.takeWhile inBase) then
    .ok ⟨t.takeWhile inBase ++ encodeSuffix (stripped (t.dropWhile inBase))⟩
  else .error "relative URL without a base".toList

/-- The parts of a base that is normalized. -/
structure SpecBase (b : Text) : Prop where
  normalized : isNormalized b
  inBase : ∀ c ∈ b, Core.inBase c
  scheme : ∀ c ∈ (UrlCrate.cut b).1, c.isAlphanum
  head : ∃ c, (UrlCrate.cut b).1.head? = some c ∧ c.isAlpha
  host : ':' ∉ (UrlCrate.cut b).2.1
  parts : b = (UrlCrate.cut b).1 ++ "://".toList ++ (UrlCrate.cut b).2.1 ++ (UrlCrate.cut b).2.2

theorem specBase_of_isSpecUrl {b : Text} (h : isSpecUrl b) : SpecBase b := by
  simp only [isSpecUrl, Bool.and_eq_true, List.all_eq_true, Bool.not_eq_true',
    List.contains_eq_mem, decide_eq_false_iff_not] at h
  obtain ⟨⟨⟨hnormalized, hscheme⟩, hhead⟩, hhost⟩ := h
  refine ⟨hnormalized, fun c hc => (isNormalized_char hnormalized hc).1, hscheme, ?_, hhost, ?_⟩
  · cases hc : (UrlCrate.cut b).1.head? with
    | none =>
      rw [hc] at hhead
      cases hhead
    | some c =>
      rw [hc] at hhead
      exact ⟨c, rfl, hhead⟩
  · have hmark : "://".toList <+: b.dropWhile (· ≠ ':') := by
      simp only [isNormalized, Bool.and_eq_true] at hnormalized
      exact List.isPrefixOf_iff_prefix.mp hnormalized.2
    obtain ⟨rest, hrest⟩ := hmark
    have hdrop : rest = (b.dropWhile (· ≠ ':')).drop 3 := by
      rw [← hrest]
      have hleft : ("://".toList ++ rest).drop "://".toList.length = rest := List.drop_left
      exact hleft.symm
    calc b = b.takeWhile (· ≠ ':') ++ b.dropWhile (· ≠ ':') :=
          (List.takeWhile_append_dropWhile).symm
      _ = b.takeWhile (· ≠ ':') ++ ("://".toList ++
            (rest.takeWhile (· ≠ '/') ++ rest.dropWhile (· ≠ '/'))) := by
          rw [List.takeWhile_append_dropWhile (p := fun c => decide (c ≠ '/')) (l := rest), hrest]
      _ = _ := by
          rw [hdrop]
          simp only [UrlCrate.cut, List.append_assoc]

theorem isSpecUrl_of_specBase {b : Text} (h : SpecBase b) : isSpecUrl b := by
  obtain ⟨c, hc, halpha⟩ := h.head
  simp [isSpecUrl, h.normalized, hc, halpha, h.host, List.all_eq_true]
  exact h.scheme

/-- A base and whatever follows it. -/
theorem parseSpecUrl_append {b y : Text} (hb : SpecBase b)
    (hy : y = [] ∨ ∃ c t, y = c :: t ∧ ¬ inBase c) :
    parseSpecUrl (b ++ y) = .ok ⟨b ++ encodeSuffix (stripped y)⟩ := by
  have htake : (b ++ y).takeWhile inBase = b := by
    rw [List.takeWhile_append_of_pos hb.inBase]
    rcases hy with rfl | ⟨c, t, rfl, hc⟩
    · simp
    · rw [List.takeWhile_cons_of_neg hc, List.append_nil]
  have hdrop : (b ++ y).dropWhile inBase = y := by
    rw [List.dropWhile_append_of_pos hb.inBase]
    rcases hy with rfl | ⟨c, t, rfl, hc⟩
    · rfl
    · rw [List.dropWhile_cons_of_neg hc]
  rw [parseSpecUrl, htake, hdrop, if_pos (isSpecUrl_of_specBase hb)]

/-- What the parser gives is the base that the text starts with and an encoded suffix. -/
theorem parseSpecUrl_ok {t : Text} {u : Url} (h : parseSpecUrl t = .ok u) :
    ∃ b y, SpecBase b ∧ t = b ++ y ∧ (y = [] ∨ ∃ c r, y = c :: r ∧ ¬ inBase c) ∧
      u = ⟨b ++ encodeSuffix (stripped y)⟩ := by
  unfold parseSpecUrl at h
  split_ifs at h with hb
  cases h
  refine ⟨_, _, specBase_of_isSpecUrl hb, (List.takeWhile_append_dropWhile).symm, ?_, rfl⟩
  exact Url.suffix_eq_nil_or ⟨t⟩

/-! ### Versions -/

/-- The digit of a number. -/
def digit (n : ℕ) : Char := Char.ofNat (48 + n % 10)

/-- `1.2.3`, of three digits. -/
def parseDigits (t : Text) : Except Text Version :=
  match t with
  | [a, '.', b, '.', c] =>
    if a.isDigit && b.isDigit && c.isDigit then
      .ok { major := a.toNat - 48, minor := b.toNat - 48, patch := c.toNat - 48, pre := [] }
    else .error "expected number".toList
  | _ => .error "expected number".toList

/-- Prints the numbers of a version. -/
def digitsStr (v : Version) : Text := [digit v.major, '.', digit v.minor, '.', digit v.patch]

theorem digit_of_isDigit {c : Char} (h : c.isDigit) : digit (c.toNat - 48) = c := by
  have hrange : 48 ≤ c.toNat ∧ c.toNat ≤ 57 := by
    simpa [Char.isDigit, UInt32.le_iff_toNat_le] using h
  have hmod : 48 + (c.toNat - 48) % 10 = c.toNat := by omega
  rw [digit, hmod, Char.ofNat_toNat]

theorem parseDigits_ok {t : Text} {v : Version} (h : parseDigits t = .ok v) :
    ∃ a b c : Char, a.isDigit ∧ b.isDigit ∧ c.isDigit ∧ t = [a, '.', b, '.', c] ∧
      digitsStr v = t := by
  unfold parseDigits at h
  split at h
  · rename_i a b c
    split_ifs at h with hdigits
    cases h
    simp only [Bool.and_eq_true] at hdigits
    obtain ⟨⟨ha, hb⟩, hc⟩ := hdigits
    refine ⟨a, b, c, ha, hb, hc, rfl, ?_⟩
    rw [digitsStr, digit_of_isDigit ha, digit_of_isDigit hb, digit_of_isDigit hc]
  · cases h

/-! ### The crates -/

/-- Specs with urls that are normalized already and versions of three digits, where letters
are those of ASCII. -/
def normalizedSpecs : SpecEnv Version where
  crate := .plain parseSpecUrl
  parseVersion := parseDigits
  versionStr := digitsStr
  isAlphabetic := Char.isAlpha
  isAlphanumeric := Char.isAlphanum

section Parsed

variable {b y : Text}

theorem base_parsed (hb : SpecBase b) (t : Text) : Url.base ⟨b ++ encodeSuffix t⟩ = b := by
  rw [Url.base, List.takeWhile_append_of_pos hb.inBase]
  rcases encodeSuffix_eq_nil_or t with h | ⟨c, r, h, hc⟩
  · rw [h, List.takeWhile_nil, List.append_nil]
  · rw [h, List.takeWhile_cons_of_neg hc, List.append_nil]

/-- The scheme of a url that was read, and what follows it. -/
theorem dropWhile_colon (hb : SpecBase b) (t : Text) :
    (b ++ t).dropWhile (· ≠ ':') =
      "://".toList ++ (UrlCrate.cut b).2.1 ++ (UrlCrate.cut b).2.2 ++ t := by
  have hscheme : ':' ∉ (UrlCrate.cut b).1 := fun h => absurd (hb.scheme _ h) (by decide)
  conv_lhs => rw [hb.parts]
  have hcut := dropWhile_append_marked hscheme
    (some ("//".toList ++ (UrlCrate.cut b).2.1 ++ (UrlCrate.cut b).2.2 ++ t))
  have hmark : ∀ x : Text, "://".toList ++ x = ':' :: ("//".toList ++ x) := fun _ => rfl
  simp only [marked] at hcut
  simpa only [List.append_assoc, List.cons_append, hmark] using hcut

theorem not_cannotBeABase (hb : SpecBase b) (t : Text) :
    normalizedSpecs.crate.cannotBeABase ⟨b ++ t⟩ = false := by
  change decide (((b ++ t).dropWhile (· ≠ ':')).tail.head? ≠ some '/') = false
  rw [dropWhile_colon hb]
  rfl

/-- The query of a url that was read, as it stands in its text. -/
theorem withoutFragment_parsed (hb : SpecBase b) (t : Text) :
    Url.withoutFragment ⟨b ++ encodeSuffix t⟩ = ⟨b ++ encodeSuffix (t.takeWhile (· ≠ '#'))⟩ := by
  have hall : ∀ c ∈ t.takeWhile (· ≠ '#'), decide (c ≠ '#') = true :=
    fun c hc => decide_eq_true (ne_of_mem_takeWhile hc)
  have hhash := hash_not_mem (q := (t.takeWhile (· ≠ '#')).tail?.map
    (percentEncode encodedInQuery)) hb.inBase (by
      intro q hq hmem
      obtain ⟨x, -, rfl⟩ := Option.mem_map.mp hq
      rcases mem_percentEncode hmem with h | h | h <;> exact absurd h (by decide))
  rw [Url.withoutFragment, encodeSuffix, ← List.append_assoc, takeWhile_append_marked hhash,
    encodeSuffix, List.takeWhile_eq_self_iff.mpr hall, List.dropWhile_eq_nil_iff.mpr hall]
  simp [marked]

theorem fragment_parsed (hb : SpecBase b) (t : Text) :
    Url.fragment ⟨b ++ encodeSuffix t⟩ = (t.dropWhile (· ≠ '#')).tail?.map encodeFragment := by
  rw [encodeSuffix, ← List.append_assoc]
  apply fragment_of_parts hb.inBase
  intro q hq hmem
  obtain ⟨x, -, rfl⟩ := Option.mem_map.mp hq
  rcases mem_percentEncode hmem with h | h | h <;> exact absurd h (by decide)

/-- A query alone is not stripped of anything. -/
theorem stripped_query (t : Text) :
    stripped (encodeSuffix (t.takeWhile (· ≠ '#'))) = encodeSuffix (t.takeWhile (· ≠ '#')) := by
  have hall : ∀ c ∈ t.takeWhile (· ≠ '#'), decide (c ≠ '#') = true :=
    fun c hc => decide_eq_true (ne_of_mem_takeWhile hc)
  have hchar : ∀ c ∈ encodeSuffix (t.takeWhile (· ≠ '#')), c0OrSpace c = false := by
    intro c hc
    rw [encodeSuffix, List.takeWhile_eq_self_iff.mpr hall, List.dropWhile_eq_nil_iff.mpr hall,
      List.tail?_nil, Option.map_none, marked, List.append_nil] at hc
    cases hq : (t.takeWhile (· ≠ '#')).tail? with
    | none =>
      rw [hq] at hc
      cases hc
    | some q =>
      rw [hq] at hc
      rcases List.mem_cons.mp hc with rfl | hc
      · decide
      · exact not_c0OrSpace_of_mem_query hc
  rw [stripped_eq_self_iff]
  exact ⟨fun c hc => not_tab_of_not_c0OrSpace (hchar c hc),
    fun c hc => hchar c (List.mem_of_mem_getLast? hc)⟩

/-- Stripping leaves the first mark where it is. -/
theorem dropWhile_stripped (t : Text) :
    ((stripped t).dropWhile (· ≠ '#')).tail? = (t.dropWhile (· ≠ '#')).tail?.map stripped := by
  by_cases hmem : '#' ∈ t
  · obtain ⟨x, z, rfl, hx⟩ := List.eq_append_cons_of_mem hmem
    have hx' : '#' ∉ x.filter fun c => !tabOrNewline c := fun h => hx (List.mem_of_mem_filter h)
    have hdrop := dropWhile_append_marked hx (some z)
    have hdrop' := dropWhile_append_marked hx' (some (stripped z))
    simp only [marked] at hdrop hdrop'
    rw [stripped_append_cons (by decide), hdrop, hdrop']
    rfl
  · have hnone : ∀ s : Text, '#' ∉ s → s.dropWhile (· ≠ '#') = [] := by
      intro s hs
      rw [List.dropWhile_eq_nil_iff]
      exact fun c hc => decide_eq_true (ne_of_mem_of_not_mem hc hs)
    rw [hnone t hmem, hnone _ fun h => hmem ((stripped_sublist t).subset h)]
    rfl

/-- The parts that the crate sees of a url that was read. -/
theorem hostStr_parsed (hb : SpecBase b) (t : Text) :
    normalizedSpecs.crate.hostStr ⟨b ++ encodeSuffix t⟩ = some (UrlCrate.cut b).2.1 := by
  change some (UrlCrate.cut (Url.base ⟨b ++ encodeSuffix t⟩)).2.1 = _
  rw [base_parsed hb]

theorem path_parsed (hb : SpecBase b) (t : Text) :
    normalizedSpecs.crate.path ⟨b ++ encodeSuffix t⟩ = (UrlCrate.cut b).2.2 := by
  change (UrlCrate.cut (Url.base ⟨b ++ encodeSuffix t⟩)).2.2 = _
  rw [base_parsed hb]

end Parsed

/-- What is documented of the url parser holds of this one. -/
theorem normalizedSpecs_readsUrls : normalizedSpecs.crate.ReadsUrls where
  parse_asStr := by
    intro t u hparse _
    obtain ⟨b, y, hb, rfl, hy, rfl⟩ := parseSpecUrl_ok hparse
    have h := parseSpecUrl_append hb (encodeSuffix_eq_nil_or (stripped y))
    rwa [stripped_encodeSuffix fun _ => getLast?_stripped, encodeSuffix_encodeSuffix] at h
  parse_suffix := by
    rintro u t hparse _ hu ⟨c, r, rfl, hc⟩
    obtain ⟨b, y, hb, htext, hy, hurl⟩ := parseSpecUrl_ok hparse
    have hbase : u.asStr = b := by
      have hall := (Url.suffix_eq_nil_iff u).mp hu
      have hself := u.base_append_suffix
      rw [hu, List.append_nil] at hself
      rw [← hself, hurl, base_parsed hb]
    rw [hbase]
    apply parseSpecUrl_append hb
    refine .inr ⟨c, r, rfl, ?_⟩
    rcases hc with rfl | rfl <;> decide

/-- What is documented of the crates and of characters holds of these. -/
theorem normalizedSpecs_documented : normalizedSpecs.Documented where
  toReadsUrls := normalizedSpecs_readsUrls
  fragment_eq := by
    intro t u hparse
    obtain ⟨b, y, hb, rfl, hy, rfl⟩ := parseSpecUrl_ok hparse
    have hall : ∀ c ∈ b, decide (c ≠ '#') = true := by
      intro c hc
      have hbase := hb.inBase c hc
      simp only [inBase, decide_eq_true_eq] at hbase
      exact decide_eq_true hbase.2
    rw [fragment_parsed hb, dropWhile_stripped, List.dropWhile_append_of_pos hall,
      Option.map_map]
    rfl
  parse_withoutFragment := by
    intro t u hparse _
    obtain ⟨b, y, hb, rfl, hy, rfl⟩ := parseSpecUrl_ok hparse
    have hself := parseSpecUrl_append hb
      (encodeSuffix_eq_nil_or ((stripped y).takeWhile (· ≠ '#')))
    rw [stripped_query, encodeSuffix_encodeSuffix] at hself
    rw [withoutFragment_parsed hb]
    exact hself
  parse_scheme := by
    intro t u hparse
    obtain ⟨b, y, hb, rfl, hy, rfl⟩ := parseSpecUrl_ok hparse
    have hslash : '/' ∉ (UrlCrate.cut b).1 := fun h => absurd (hb.scheme _ h) (by decide)
    obtain ⟨c, hc, halpha⟩ := hb.head
    obtain ⟨rest, hrest⟩ := List.head?_eq_some_iff.mp hc
    constructor
    · rw [hb.parts, List.append_assoc, List.append_assoc, List.append_assoc,
        List.takeWhile_append_of_pos fun d hd => decide_eq_true (ne_of_mem_of_not_mem hd hslash)]
      exact List.mem_append_right _ List.mem_cons_self
    · rw [hb.parts, hrest]
      intro hbracket
      cases hbracket
      exact absurd halpha (by decide)
  rooted := by
    intro t u hparse _
    obtain ⟨b, y, hb, rfl, hy, rfl⟩ := parseSpecUrl_ok hparse
    rw [withoutFragment_parsed hb]
    exact ⟨not_cannotBeABase hb _, not_cannotBeABase hb _⟩
  path_infix := by
    intro t u hparse
    obtain ⟨b, y, hb, rfl, hy, rfl⟩ := parseSpecUrl_ok hparse
    rw [path_parsed hb]
    have hsuffix : (UrlCrate.cut b).2.2 <:+ b := by
      conv_rhs => rw [hb.parts]
      exact List.suffix_append _ _
    exact hsuffix.isInfix.trans (List.prefix_append _ _).isInfix
  slash_not_mem_lastSegment := by
    intro u hmem
    exact ne_of_mem_takeWhile (List.mem_reverse.mp hmem) rfl
  host := by
    intro t u host hparse hhost
    obtain ⟨b, y, hb, rfl, hy, rfl⟩ := parseSpecUrl_ok hparse
    rw [hostStr_parsed hb, Option.some.injEq] at hhost
    subst hhost
    refine ⟨fun hmem => ne_of_mem_takeWhile hmem rfl, ?_, fun hcolon => absurd hcolon hb.host⟩
    exact fun hlast => hb.host (List.mem_of_getLast? hlast)
  parse_cargo := by
    intro t u host hparse hscheme hhost _
    obtain ⟨b, y, hb, rfl, hy, rfl⟩ := parseSpecUrl_ok hparse
    rw [hostStr_parsed hb, Option.some.injEq] at hhost
    subst hhost
    have hcolon : ':' ∉ (UrlCrate.cut b).1 := fun h => absurd (hb.scheme _ h) (by decide)
    have hcut : (UrlCrate.cut b).1 = "cargo".toList := by
      rw [← hscheme, Url.scheme]
      conv_rhs => rw [hb.parts]
      rw [List.append_assoc, List.append_assoc, List.append_assoc]
      exact (takeWhile_append_marked hcolon (some _)).symm
    have hurl : cargoUrl (UrlCrate.cut b).2.1 (UrlCrate.cut b).2.2 = ⟨b⟩ := by
      conv_rhs => rw [hb.parts, hcut]
      rfl
    rw [path_parsed hb, hurl]
    refine ⟨?_, List.dropWhile_eq_nil_iff.mpr hb.inBase, ?_⟩
    · have hself := parseSpecUrl_append hb (.inl rfl)
      rwa [List.append_nil, show encodeSuffix (stripped []) = [] from rfl,
        List.append_nil] at hself
    · have hbase := not_cannotBeABase hb []
      rwa [List.append_nil] at hbase
  parse_versionStr := by
    intro t v hv
    obtain ⟨a, b, c, ha, hb, hc, rfl, hstr⟩ := parseDigits_ok hv
    change parseDigits (digitsStr v) = .ok v
    rw [hstr]
    exact hv
  slash_not_mem_version := by
    intro t v hv
    obtain ⟨a, b, c, ha, hb, hc, rfl, -⟩ := parseDigits_ok hv
    have hslash : ∀ d : Char, d.isDigit → '/' ≠ d := by
      rintro d hd rfl
      exact absurd hd (by decide)
    simp [hslash a ha, hslash b hb, hslash c hc]
  versionStr_chars := by
    intro t v hv d hd
    obtain ⟨a, b, c, ha, hb, hc, rfl, hstr⟩ := parseDigits_ok hv
    change d ∈ digitsStr v at hd
    rw [hstr] at hd
    simp only [List.mem_cons, List.not_mem_nil, or_false] at hd
    rcases hd with rfl | rfl | rfl | rfl | rfl
    · exact .inl (by simp [Char.isAlphanum, ha])
    · exact .inr (.inl rfl)
    · exact .inl (by simp [Char.isAlphanum, hb])
    · exact .inr (.inl rfl)
    · exact .inl (by simp [Char.isAlphanum, hc])
  versionStr_head := by
    intro t v hv
    obtain ⟨a, b, c, ha, hb, hc, rfl, hstr⟩ := parseDigits_ok hv
    refine ⟨a, ?_, ha⟩
    change (digitsStr v).head? = some a
    rw [hstr]
    rfl
  isAlphabetic_ascii := fun _ _ => rfl
  isAlphanumeric_ascii := fun _ _ => rfl

end Cargo.Core
