import Cargo.Core.PackageIdSpec.Normalized

/-!
# Specs that are read back

A spec that is no url is read back as it was printed. A spec with a url is read back unless
the url loses something when it is printed: urls of the scheme `cargo` are printed without
their scheme, so a user or a port gets lost, and a path with `://` in it keeps the scheme
from being put in front again. An empty fragment is a panic.

## Main definitions

* `SpecEnv.RoundTrips` — a text is read without a panic, and what was read is read back
* `SpecEnv.PrintsBack`, `SpecEnv.Reprintable` — what the url of a spec has to be like

## Main results

* `roundTrips_iff_reprintable` — which texts are read back
-/

set_option autoImplicit false

namespace Cargo.Core

/-! ### Urls and their fragments -/

namespace Url

theorem query_withoutFragment (u : Url) : u.withoutFragment.query = u.query := by
  have hall : ∀ c ∈ u.asStr.takeWhile (· ≠ '#'), decide (c ≠ '#') = true :=
    fun c hc => decide_eq_true (ne_of_mem_takeWhile hc)
  rw [query, query, withoutFragment, List.takeWhile_eq_self_iff.mpr hall]

theorem fragment_withoutFragment (u : Url) : u.withoutFragment.fragment = none := by
  have hall : ∀ c ∈ u.asStr.takeWhile (· ≠ '#'), decide (c ≠ '#') = true :=
    fun c hc => decide_eq_true (ne_of_mem_takeWhile hc)
  rw [fragment, withoutFragment, List.dropWhile_eq_nil_iff.mpr hall]
  rfl

/-- Without query and fragment only the base is left. -/
theorem suffix_withoutFragment {u : Url} (h : u.query = none) : u.withoutFragment.suffix = [] := by
  rw [suffix_eq_nil_iff, query_withoutFragment, h]
  exact ⟨rfl, u.fragment_withoutFragment⟩

theorem inBase_of_suffix {u : Url} (h : u.suffix = []) : ∀ c ∈ u.asStr, inBase c := by
  simpa [suffix, List.dropWhile_eq_nil_iff] using h

/-- A base with a fragment behind it. -/
def withMark (u : Url) (f : Option Text) : Url := ⟨u.asStr ++ marked '#' f⟩

variable {u : Url} {f : Option Text}

theorem hash_not_mem_of_suffix (h : u.suffix = []) : '#' ∉ u.asStr :=
  fun hmem => absurd (inBase_of_suffix h _ hmem) (by decide)

theorem fragment_withMark (h : u.suffix = []) : (u.withMark f).fragment = f := by
  rw [fragment, withMark, dropWhile_append_marked (hash_not_mem_of_suffix h), tail?_marked]

theorem withoutFragment_withMark (h : u.suffix = []) : (u.withMark f).withoutFragment = u := by
  rw [withoutFragment, withMark, takeWhile_append_marked (hash_not_mem_of_suffix h)]

theorem query_withMark (h : u.suffix = []) : (u.withMark f).query = none := by
  rw [← query_withoutFragment, withoutFragment_withMark h]
  exact ((suffix_eq_nil_iff u).mp h).1

end Url

/-! ### Texts with `://` -/

/-- A text has `://` in it. -/
def HasScheme (t : Text) : Prop := "://".toList <:+: t

theorem hasScheme_cons (c : Char) (t : Text) :
    HasScheme (c :: t) ↔ "://".toList <+: c :: t ∨ HasScheme t := List.infix_cons_iff

theorem mem_of_hasScheme {t : Text} (h : HasScheme t) : ':' ∈ t ∧ '/' ∈ t :=
  ⟨h.subset (by decide), h.subset (by decide)⟩

/-- What stands in front of the colon does not matter. -/
theorem hasScheme_append_of_colon {a : Text} (h : ':' ∉ a) (b : Text) :
    HasScheme (a ++ b) ↔ HasScheme b := by
  induction a with
  | nil => exact Iff.rfl
  | cons c a ih =>
    rw [List.mem_cons, not_or] at h
    rw [List.cons_append, hasScheme_cons, ih h.2]
    constructor
    · rintro (hpre | hb)
      · exact absurd (List.cons_prefix_cons.mp hpre).1 h.1
      · exact hb
    · exact .inr

/-- A text with no slash that does not end in a colon does not matter either. -/
theorem hasScheme_append_of_slash {a : Text} (h : '/' ∉ a) (hlast : a.getLast? ≠ some ':')
    (b : Text) : HasScheme (a ++ b) ↔ HasScheme b := by
  induction a with
  | nil => exact Iff.rfl
  | cons c a ih =>
    rw [List.mem_cons, not_or] at h
    cases a with
    | nil =>
      have hc : ':' ∉ [c] := by
        rw [List.mem_singleton]
        rintro rfl
        exact hlast rfl
      exact hasScheme_append_of_colon hc b
    | cons d a =>
      rw [List.getLast?_cons_cons] at hlast
      rw [List.cons_append, hasScheme_cons, ih h.2 hlast]
      constructor
      · rintro (hpre | hb)
        · -- the character behind the colon would be a slash
          have hd := (List.cons_prefix_cons.mp (List.cons_prefix_cons.mp hpre).2).1
          exact absurd (hd ▸ List.mem_cons_self) h.2
        · exact hb
      · exact .inr

/-- A mark divides the places where `://` can stand. -/
theorem hasScheme_append_mark (a b : Text) :
    HasScheme (a ++ '#' :: b) ↔ HasScheme a ∨ HasScheme b := by
  induction a with
  | nil =>
    rw [List.nil_append, hasScheme_cons]
    constructor
    · rintro (hpre | hb)
      · exact absurd (List.cons_prefix_cons.mp hpre).1 (by decide)
      · exact .inr hb
    · rintro (ha | hb)
      · exact absurd (mem_of_hasScheme ha).1 List.not_mem_nil
      · exact .inr hb
  | cons c a ih =>
    rw [List.cons_append, hasScheme_cons, ih, hasScheme_cons, or_assoc]
    have hpre : "://".toList <+: c :: (a ++ '#' :: b) ↔ "://".toList <+: c :: a := by
      constructor
      · intro h
        have hlength : ("://".toList).length ≤ (c :: a).length := by
          by_contra hshort
          -- the mark would be one of the three characters
          have hmem : '#' ∈ "://".toList := by
            have hc : (c :: a) ++ ['#'] <+: "://".toList := by
              have hfront : (c :: a) ++ ['#'] <+: c :: (a ++ '#' :: b) := ⟨b, by simp⟩
              refine List.prefix_of_prefix_length_le hfront h ?_
              simp only [List.length_append, List.length_singleton]
              omega
            exact hc.subset (by simp)
          exact absurd hmem (by decide)
        have hback : c :: a <+: c :: (a ++ '#' :: b) := ⟨'#' :: b, by simp⟩
        exact List.prefix_of_prefix_length_le h hback hlength
      · intro h
        exact h.trans ⟨'#' :: b, by simp⟩
    rw [hpre]

/-! ### Names and fragments -/

theorem splitColon_of_not_mem {t : Text} (h : ':' ∉ t) : splitColon t = (t, none) := by
  have hall : ∀ c ∈ t, decide (c ≠ ':') = true :=
    fun c hc => decide_eq_true (ne_of_mem_of_not_mem hc h)
  rw [splitColon, List.takeWhile_eq_self_iff.mpr hall, List.dropWhile_eq_nil_iff.mpr hall]
  rfl

theorem splitColon_append {t : Text} (h : ':' ∉ t) (part : Text) :
    splitColon (t ++ ':' :: part) = (t, some part) := by
  have hcut := takeWhile_append_marked h (some part)
  have hrest := dropWhile_append_marked h (some part)
  simp only [marked] at hcut hrest
  rw [splitColon, hcut, hrest]
  rfl

theorem splitColon_none {t : Text} (h : (splitColon t).2 = none) : (splitColon t).1 = t := by
  have hdrop : t.dropWhile (· ≠ ':') = [] := Url.nil_of_tail?_eq_none h
  rw [List.dropWhile_eq_nil_iff] at hdrop
  exact List.takeWhile_eq_self_iff.mpr hdrop

namespace SpecEnv

variable {V : Type} {env : SpecEnv V}

/-- A version that was read from some text. -/
def IsVersion (env : SpecEnv V) (v : V) : Prop := ∃ t, env.parseVersion t = .ok v

theorem isAlphanum_lt {c : Char} (h : c.isAlphanum) : c.toNat < 128 := by
  delta Char.isAlphanum Char.isAlpha Char.isUpper Char.isLower Char.isDigit at h
  simp only [Bool.or_eq_true, Bool.and_eq_true, decide_eq_true_eq, UInt32.le_iff_toNat_le] at h
  have hval : c.toNat = c.val.toNat := rfl
  have hZ : 'Z'.val.toNat = 90 := rfl
  have hz : 'z'.val.toNat = 122 := rfl
  have h9 : '9'.val.toNat = 57 := rfl
  omega

/-- The characters of versions are printable, and not the ones that divide specs. -/
theorem versionStr_char (h : env.Documented) {v : V} (hv : env.IsVersion v) {c : Char}
    (hc : c ∈ env.versionStr v) :
    (0x20 ≤ c.toNat ∧ c.toNat ≤ 0x7E) ∧ c ≠ ':' ∧ c ≠ '/' ∧ c ≠ '#' ∧ c ≠ ' ' := by
  obtain ⟨t, ht⟩ := hv
  rcases h.versionStr_chars t v ht c hc with halnum | rfl | rfl | rfl
  · exact Math.forall_ascii (P := fun c => c.isAlphanum →
      (0x20 ≤ c.toNat ∧ c.toNat ≤ 0x7E) ∧ c ≠ ':' ∧ c ≠ '/' ∧ c ≠ '#' ∧ c ≠ ' ')
      (by decide +kernel) (isAlphanum_lt halnum) halnum
  · decide
  · decide
  · decide

theorem colon_not_mem_versionStr (h : env.Documented) {v : V} (hv : env.IsVersion v) :
    ':' ∉ env.versionStr v := fun hmem => (versionStr_char h hv hmem).2.1 rfl

theorem slash_not_mem_versionStr (h : env.Documented) {v : V} (hv : env.IsVersion v) :
    '/' ∉ env.versionStr v := fun hmem => (versionStr_char h hv hmem).2.2.1 rfl

theorem versionStr_head (h : env.Documented) {v : V} (hv : env.IsVersion v) :
    ∃ c, (env.versionStr v).head? = some c ∧ c.isDigit := by
  obtain ⟨t, ht⟩ := hv
  exact h.versionStr_head t v ht

theorem toSemver_versionStr (h : env.Documented) {v : V} (hv : env.IsVersion v) :
    env.toSemver (env.versionStr v) = .ok v := by
  obtain ⟨t, ht⟩ := hv
  rw [toSemver, h.parse_versionStr t v ht]

theorem toSemver_ok {part : Text} {v : V} (hv : env.toSemver part = .ok v) :
    env.parseVersion part = .ok v := by
  unfold toSemver at hv
  cases hparse : env.parseVersion part with
  | ok v' =>
    rw [hparse] at hv
    cases hv
    rfl
  | error e =>
    rw [hparse] at hv
    cases hv

/-- The fragment that is printed for a name and a version, behind a path that ends in
`segment`. -/
def printedFragment (env : SpecEnv V) (name : Text) (version : Option V) (segment : Text) :
    Option Text :=
  if segment ≠ name then
    some (name ++ match version with | some v => ':' :: env.versionStr v | none => [])
  else version.map env.versionStr

theorem toStr_of_url {u : Url} {name text segment : Text} {version : Option V}
    (htext : env.urlStr u = .ok text) (hsegment : env.crate.pathName u = some segment) :
    env.toStr { name := name, version := version, url := some u } =
      .ok (text ++ marked '#' (env.printedFragment name version segment)) := by
  simp only [toStr, htext, hsegment, bind, Except.bind, printedFragment]
  by_cases h : segment ≠ name
  · cases version <;> simp [h, versionPart, marked]
  · cases version <;> simp [h, versionPart, marked]

/-- A name and a version that a fragment can give, behind a path that ends in `segment`. -/
structure FromFragment (env : SpecEnv V) (name : Text) (version : Option V) (segment : Text) :
    Prop where
  colon : segment ≠ name → ':' ∉ name
  printable : segment ≠ name → ∀ c ∈ name, 0x20 ≤ c.toNat ∧ c.toNat ≤ 0x7E
  alone : segment ≠ name → version = none → name.getLast? ≠ some ' ' ∧
    ∃ c, name.head? = some c ∧ env.isAlphabetic c
  version : ∀ v ∈ version, env.IsVersion v

theorem not_isAlphabetic_of_isDigit (h : env.Documented) {c : Char} (hc : c.isDigit) :
    env.isAlphabetic c = false := by
  have hlt : c.toNat < 128 := isAlphanum_lt (by simp [Char.isAlphanum, hc])
  rw [h.isAlphabetic_ascii c hlt]
  exact Math.forall_ascii (P := fun c => c.isDigit → c.isAlpha = false) (by decide +kernel) hlt hc

/-- What was printed of a name and a version is read as these. -/
theorem nameAndVersion_printedFragment (h : env.Documented) {name segment : Text}
    {version : Option V} (hfrom : env.FromFragment name version segment) :
    env.nameAndVersion (env.printedFragment name version segment) segment =
      .ok (name, version) := by
  unfold printedFragment
  split_ifs with hname
  · cases version with
    | some v =>
      simp only [nameAndVersion, splitColon_append (hfrom.colon hname),
        toSemver_versionStr h (hfrom.version v rfl)]
      rfl
    | none =>
      obtain ⟨-, c, hc, halpha⟩ := hfrom.alone hname rfl
      simp only [nameAndVersion, List.append_nil, splitColon_of_not_mem (hfrom.colon hname), hc,
        halpha, if_true]
  · cases version with
    | some v =>
      -- a version alone: it does not start with a letter
      have hv := hfrom.version v rfl
      obtain ⟨c, hc, hdigit⟩ := versionStr_head h hv
      simp only [Option.map_some, nameAndVersion,
        splitColon_of_not_mem (colon_not_mem_versionStr h hv), hc,
        not_isAlphabetic_of_isDigit h hdigit, Bool.false_eq_true, if_false,
        toSemver_versionStr h hv]
      rw [not_not.mp hname]
      rfl
    | none =>
      rw [not_not.mp hname]
      rfl

theorem safePrecise_versionStr (h : env.Documented) {v : V} (hv : env.IsVersion v) :
    SafePrecise (env.versionStr v) :=
  ⟨fun _ hc => (versionStr_char h hv hc).1,
    fun hlast => (versionStr_char h hv (List.mem_of_getLast? hlast)).2.2.2.2 rfl⟩

/-- A fragment holds what is printed of a name and a version as it is. -/
theorem safePrecise_printedFragment (h : env.Documented) {name segment : Text}
    {version : Option V} (hfrom : env.FromFragment name version segment) :
    ∀ g ∈ env.printedFragment name version segment, SafePrecise g := by
  intro g hg
  unfold printedFragment at hg
  split_ifs at hg with hname
  · cases hg
    cases version with
    | none =>
      rw [List.append_nil]
      exact ⟨hfrom.printable hname, (hfrom.alone hname rfl).1⟩
    | some v =>
      have hsafe := safePrecise_versionStr h (hfrom.version v rfl)
      refine ⟨?_, ?_⟩
      · intro c hc
        rcases List.mem_append.mp hc with hc | hc
        · exact hfrom.printable hname c hc
        · rcases List.mem_cons.mp hc with rfl | hc
          · decide
          · exact hsafe.1 c hc
      · rw [List.getLast?_append_of_ne_nil _ (List.cons_ne_nil _ _), List.getLast?_cons]
        cases hlast : (env.versionStr v).getLast? with
        | none => exact fun hspace => absurd (Option.some.inj hspace) (by decide)
        | some c =>
          rw [Option.getD_some, ← hlast]
          exact hsafe.2
  · obtain ⟨v, hv, rfl⟩ := Option.mem_map.mp hg
    exact safePrecise_versionStr h (hfrom.version v hv)

/-- Nor does it have `://` in it. -/
theorem not_hasScheme_printedFragment (h : env.Documented) {name segment : Text}
    {version : Option V} (hfrom : env.FromFragment name version segment) :
    ∀ g ∈ env.printedFragment name version segment, ¬HasScheme g := by
  intro g hg hscheme
  unfold printedFragment at hg
  split_ifs at hg with hname
  · cases hg
    rw [hasScheme_append_of_colon (hfrom.colon hname)] at hscheme
    cases version with
    | none => exact absurd (mem_of_hasScheme hscheme).1 List.not_mem_nil
    | some v =>
      rcases List.mem_cons.mp (mem_of_hasScheme hscheme).2 with hslash | hslash
      · exact absurd hslash (by decide)
      · exact slash_not_mem_versionStr h (hfrom.version v rfl) hslash
  · obtain ⟨v, hv, rfl⟩ := Option.mem_map.mp hg
    exact slash_not_mem_versionStr h (hfrom.version v hv) (mem_of_hasScheme hscheme).2

/-! ### What fragments give -/

/-- The fragment of a url that was read is printable and does not end in a space. -/
theorem safePrecise_fragment (h : env.Documented) {t : Text} {u : Url}
    (hparse : env.crate.parse t = .ok u) : ∀ f ∈ u.fragment, SafePrecise f := by
  intro f hf
  rw [h.fragment_eq t u hparse] at hf
  obtain ⟨x, -, rfl⟩ := Option.mem_map.mp hf
  refine ⟨fun c hc => range_of_mem_encodeFragment hc, ?_⟩
  intro hlast
  exact absurd (getLast?_encodeFragment (fun _ => getLast?_stripped) hlast) (by decide)

/-- The part of a fragment that has to be a version. -/
def versionText (env : SpecEnv V) (fragment : Text) : Option Text :=
  match splitColon fragment with
  | (_, some part) => some part
  | (nameOrVersion, none) =>
    if nameOrVersion.head?.any env.isAlphabetic then none else some nameOrVersion

/-- If there is a version in the fragment, it can be read. -/
def Legible (env : SpecEnv V) (fragment : Option Text) : Prop :=
  ∀ f ∈ fragment, ∀ t ∈ env.versionText f, ∃ v, env.parseVersion t = .ok v

/-- The name that goes with a version in a fragment: what stands in front of a colon, or the
last segment of the path. -/
def nameText (fragment segment : Text) : Text :=
  if (splitColon fragment).2.isSome then (splitColon fragment).1 else segment

theorem nameText_cases (fragment segment : Text) :
    nameText fragment segment = segment ∨
      ':' ∉ nameText fragment segment ∧ nameText fragment segment <+: fragment := by
  unfold nameText
  split_ifs
  · exact .inr ⟨colon_not_mem_splitColon fragment, List.takeWhile_prefix _⟩
  · exact .inl rfl

/-- A fragment with no version in it is a name. -/
theorem versionText_eq_none {fragment : Text} (hnone : env.versionText fragment = none) :
    ':' ∉ fragment ∧ ∃ c, fragment.head? = some c ∧ env.isAlphabetic c := by
  unfold versionText at hnone
  cases hsplit : splitColon fragment with
  | mk name rest =>
    rw [hsplit] at hnone
    cases rest with
    | some part => cases hnone
    | none =>
      have hwhole : name = fragment := by
        have hfst := splitColon_none (t := fragment) (by rw [hsplit])
        rwa [hsplit] at hfst
      have hcolon := colon_not_mem_splitColon fragment
      rw [hsplit] at hcolon
      subst hwhole
      dsimp only at hnone hcolon
      split_ifs at hnone with halpha
      cases hhead : name.head? with
      | none =>
        rw [hhead] at halpha
        cases halpha
      | some c =>
        rw [hhead] at halpha
        exact ⟨hcolon, c, rfl, halpha⟩

/-- Name and version of a fragment that is not empty. -/
theorem nameAndVersion_some (env : SpecEnv V) {f : Text} (hne : f ≠ []) (segment : Text) :
    env.nameAndVersion (some f) segment =
      match env.versionText f with
      | some part => (env.toSemver part).map fun v => (nameText f segment, some v)
      | none => .ok (f, none) := by
  cases hsplit : splitColon f with
  | mk name rest =>
    cases rest with
    | some part =>
      simp only [nameAndVersion, versionText, nameText, hsplit, Option.isSome_some, if_true]
      cases env.toSemver part <;> rfl
    | none =>
      have hwhole : name = f := by
        have hfst := splitColon_none (t := f) (by rw [hsplit])
        rwa [hsplit] at hfst
      subst hwhole
      obtain ⟨c, rest, rfl⟩ := List.exists_cons_of_ne_nil hne
      by_cases halpha : env.isAlphabetic c
      · simp [nameAndVersion, versionText, hsplit, halpha]
      · simp only [nameAndVersion, versionText, nameText, hsplit, List.head?_cons, halpha,
          Option.any_some, Option.isSome_none, Bool.false_eq_true, if_false]
        cases env.toSemver (c :: rest) <;> rfl

/-- The three ways to take a fragment: an empty one is a panic, one whose version cannot be
read an error, and any other gives a name and perhaps a version. -/
theorem nameAndVersion_cases (env : SpecEnv V) (fragment : Option Text) (segment : Text)
    (hsafe : ∀ f ∈ fragment, SafePrecise f) :
    (fragment = some [] ∧ env.nameAndVersion fragment segment = .error .panic) ∨
    (fragment ≠ some [] ∧ ¬env.Legible fragment ∧
      ∃ part, env.nameAndVersion fragment segment = .error (.semver part)) ∨
    (fragment ≠ some [] ∧ env.Legible fragment ∧ ∃ name version,
      env.nameAndVersion fragment segment = .ok (name, version) ∧
        env.FromFragment name version segment) := by
  cases fragment with
  | none =>
    -- the name is the last segment of the path
    refine .inr (.inr ⟨by simp, by simp [Legible], segment, none, rfl, ?_⟩)
    exact ⟨fun hne => absurd rfl hne, fun hne => absurd rfl hne, fun hne => absurd rfl hne,
      by simp⟩
  | some f =>
    have hf := hsafe f rfl
    by_cases hnil : f = []
    · subst hnil
      exact .inl ⟨rfl, rfl⟩
    have hne : some f ≠ some [] := fun heq => hnil (Option.some.inj heq)
    rw [nameAndVersion_some env hnil segment]
    cases htext : env.versionText f with
    | none =>
      obtain ⟨hcolon, halone⟩ := versionText_eq_none htext
      -- nothing in the fragment looks like a version, so that all of it is the name
      refine .inr (.inr ⟨hne, ?_, f, none, rfl, ?_⟩)
      · rintro _ ⟨⟩ t ht
        rw [htext] at ht
        cases ht
      · exact ⟨fun _ => hcolon, fun _ => hf.1, fun _ _ => ⟨hf.2, halone⟩, by simp⟩
    | some part =>
      cases hversion : env.parseVersion part with
      | error e =>
        refine .inr (.inl ⟨hne, ?_, part, by simp only [toSemver, hversion]; rfl⟩)
        intro hlegible
        obtain ⟨v, hv⟩ := hlegible f rfl part htext
        rw [hversion] at hv
        cases hv
      | ok v =>
        refine .inr (.inr ⟨hne, ?_, nameText f segment, some v,
          by simp only [toSemver, hversion]; rfl, ?_⟩)
        · rintro _ ⟨⟩ t ht
          rw [htext] at ht
          cases ht
          exact ⟨v, hversion⟩
        · have hname := nameText_cases f segment
          refine ⟨?_, ?_, fun _ hnone => (by cases hnone), ?_⟩
          · intro hsegment
            exact (hname.resolve_left (Ne.symm hsegment)).1
          · intro hsegment c hc
            exact hf.1 c ((hname.resolve_left (Ne.symm hsegment)).2.subset hc)
          · rintro _ ⟨⟩
            exact ⟨part, hversion⟩

/-! ### Printing and reading urls -/

/-- A url as specs have it: read from its text, with neither query nor fragment, and with
segments. -/
structure IsRooted (env : SpecEnv V) (u : Url) : Prop where
  parse : env.crate.parse u.asStr = .ok u
  suffix : u.suffix = []
  base : env.crate.cannotBeABase u = false
  rooted : (env.crate.path u).head? = some '/'

theorem pathName_isSome_iff {u : Url} :
    (env.crate.pathName u).isSome ↔ (env.crate.path u).head? = some '/' := by
  unfold UrlCrate.pathName
  split_ifs with h <;> simp [h]

theorem isRooted_withoutFragment (h : env.Documented) {t : Text} {u : Url}
    (hparse : env.crate.parse t = .ok u) (hquery : u.query = none)
    (hpath : (env.crate.pathName u.withoutFragment).isSome) : env.IsRooted u.withoutFragment where
  parse := h.parse_withoutFragment t u hparse (h.rooted t u hparse (pathName_isSome_iff.mp hpath)).1
  suffix := Url.suffix_withoutFragment hquery
  base := (h.rooted t u hparse (pathName_isSome_iff.mp hpath)).2
  rooted := pathName_isSome_iff.mp hpath

/-- What the parser makes of a fragment. -/
def seen (f : Option Text) : Option Text := f.map fun g => encodeFragment (stripped g)

theorem seen_eq_self {f : Option Text} (hsafe : ∀ g ∈ f, SafePrecise g) : seen f = f := by
  cases f with
  | none => rfl
  | some g => rw [seen, Option.map_some, (encodeFragment_stripped_eq_iff g).mpr (hsafe g rfl)]

/-- A url is read with a fragment behind it. -/
theorem parse_withMark (h : env.Documented) {u : Url} (hself : env.crate.parse u.asStr = .ok u)
    (hsuffix : u.suffix = []) (hbase : env.crate.cannotBeABase u = false) (f : Option Text) :
    env.crate.parse (u.withMark f).asStr = .ok (u.withMark (seen f)) := by
  cases f with
  | none =>
    simp only [Url.withMark, seen, Option.map_none, marked, List.append_nil]
    exact hself
  | some g =>
    have hstripped := stripped_append_cons (x := []) (y := g) (c := '#') (by decide)
    rw [List.filter_nil, List.nil_append, List.nil_append] at hstripped
    have hread := h.parse_suffix u ('#' :: g) hself hbase hsuffix ⟨'#', g, rfl, .inr rfl⟩
    rw [hstripped] at hread
    exact hread

theorem slash_mem_of_rooted (h : env.Documented) {u : Url} (hu : env.IsRooted u) :
    '/' ∈ u.asStr :=
  (h.path_infix _ u hu.parse).subset (List.mem_of_mem_head? hu.rooted)

theorem readUrl_of_parse {t : Text} {u : Url} (hslash : '/' ∈ t)
    (hparse : env.crate.parse t = .ok u) : env.readUrl t = some u := by
  rw [readUrl, if_pos hslash, hparse]

/-- The text that a url was read from. -/
theorem parse_of_readUrl {spec : Text} {u : Url} (hread : env.readUrl spec = some u) :
    env.crate.parse spec = .ok u ∨ env.crate.parse ("cargo://".toList ++ spec) = .ok u := by
  unfold readUrl at hread
  cases hspec : env.crate.parse spec with
  | ok url =>
    simp only [hspec] at hread
    split_ifs at hread with hslash
    exact .inl (congrArg Except.ok (Option.some.inj hread))
  | error e =>
    simp only [hspec] at hread
    split_ifs at hread with hslash hscheme
    cases hcargo : env.crate.parse ("cargo://".toList ++ spec) with
    | ok url =>
      rw [hcargo] at hread
      exact .inr (congrArg Except.ok (Option.some.inj hread))
    | error e =>
      rw [hcargo] at hread
      cases hread

/-- What was read of a url. -/
theorem fromUrl_ok {u : Url} {p : PackageIdSpec V} (hp : env.fromUrl u = .ok p) :
    u.query = none ∧ p.url = some u.withoutFragment ∧
      ∃ segment, env.crate.pathName u.withoutFragment = some segment ∧
        env.nameAndVersion u.fragment segment = .ok (p.name, p.version) := by
  unfold fromUrl at hp
  split_ifs at hp with hquery
  cases hsegment : env.crate.pathName u.withoutFragment with
  | none =>
    rw [hsegment] at hp
    cases hp
  | some segment =>
    simp only [hsegment] at hp
    cases hfound : env.nameAndVersion u.fragment segment with
    | error e =>
      rw [hfound] at hp
      cases hp
    | ok found =>
      rw [hfound] at hp
      cases hp
      exact ⟨by simpa using hquery, rfl, segment, rfl, hfound⟩

/-- Behind a url that is rooted, the fragment decides what is read. -/
theorem fromUrl_withMark {u : Url} (hu : env.IsRooted u) {segment : Text}
    (hsegment : env.crate.pathName u = some segment) (f : Option Text) :
    env.fromUrl (u.withMark f) = (env.nameAndVersion f segment).map fun found =>
      { name := found.1, version := found.2, url := some u } := by
  have hquery : (u.withMark f).query.isSome = false := by
    rw [Url.query_withMark hu.suffix]
    rfl
  simp only [fromUrl, hquery, Bool.false_eq_true, if_false,
    Url.withoutFragment_withMark hu.suffix, hsegment, Url.fragment_withMark hu.suffix]
  cases env.nameAndVersion f segment <;> rfl

/-! ### The scheme that is left out -/

/-- Nothing is lost when the url of a spec is printed. -/
def PrintsBack (env : SpecEnv V) (u : Url) : Prop :=
  u.scheme = "cargo".toList → ∃ host, env.crate.hostStr u = some host ∧
    u = cargoUrl host (env.crate.path u) ∧ ¬HasScheme (env.crate.path u)

section Cargo

variable {u : Url} {host : Text}

theorem asStr_withMark_cargoUrl (host path : Text) (f : Option Text) :
    ((cargoUrl host path).withMark f).asStr =
      "cargo://".toList ++ (host ++ path ++ marked '#' f) := by
  unfold Url.withMark cargoUrl
  generalize "cargo://".toList = scheme
  simp only [List.append_assoc]

/-- In front of the first slash there is no colon, or a bracket in front of it. -/
theorem parse_hostless (h : env.Documented) (hself : env.crate.parse u.asStr = .ok u)
    (hrooted : (env.crate.path u).head? = some '/') (hhost : env.crate.hostStr u = some host)
    (y : Text) :
    ∃ e, env.crate.parse (host ++ env.crate.path u ++ y) = .error e := by
  cases hparse : env.crate.parse (host ++ env.crate.path u ++ y) with
  | error e => exact ⟨e, rfl⟩
  | ok w =>
    exfalso
    obtain ⟨hcolon, hbracket⟩ := h.parse_scheme _ w hparse
    obtain ⟨hslash, -, haddress⟩ := h.host _ u host hself hhost
    obtain ⟨rest, hrest⟩ := List.head?_eq_some_iff.mp hrooted
    rw [hrest, List.append_assoc, List.cons_append] at hcolon hbracket
    have hcut := takeWhile_append_marked hslash (some (rest ++ y))
    rw [marked] at hcut
    rw [hcut] at hcolon
    rw [List.head?_append, haddress hcolon] at hbracket
    exact hbracket rfl

/-- What is printed of a url without its scheme is read as a url only if the scheme is put in
front again. -/
theorem readUrl_cargo (h : env.Documented) (hu : env.IsRooted u)
    (hscheme : u.scheme = "cargo".toList) (hhost : env.crate.hostStr u = some host)
    (f : Option Text) :
    env.readUrl (host ++ env.crate.path u ++ marked '#' f) =
      if "://".toList <:+: host ++ env.crate.path u ++ marked '#' f then none
      else some ((cargoUrl host (env.crate.path u)).withMark (seen f)) := by
  have hslash : '/' ∈ host ++ env.crate.path u ++ marked '#' f :=
    List.mem_append_left _ (List.mem_append_right _ (List.mem_of_mem_head? hu.rooted))
  obtain ⟨e, herror⟩ := parse_hostless h hu.parse hu.rooted hhost (marked '#' f)
  obtain ⟨hself, hsuffix, hbase⟩ := h.parse_cargo _ u host hu.parse hscheme hhost hu.rooted
  have hparse : env.crate.parse ("cargo://".toList ++
      (host ++ env.crate.path u ++ marked '#' f)) =
      .ok ((cargoUrl host (env.crate.path u)).withMark (seen f)) := by
    rw [← asStr_withMark_cargoUrl]
    exact parse_withMark h hself hsuffix hbase f
  rw [readUrl, if_pos hslash, herror]
  simp only [hparse]

theorem nameChar_ascii (h : env.Documented) {c : Char} (hc : c.toNat < 128) :
    env.nameChar c = (c.isAlphanum || c = '_' || c = '-') := by
  rw [nameChar, h.isAlphanumeric_ascii c hc]

/-- The characters of the name that is read from a text that is no url. -/
theorem parseName_ok {spec : Text} {p : PackageIdSpec V} (hp : env.parseName spec = .ok p) :
    p.name = (splitColon spec).1 ∧ p.url = none ∧ (∀ c ∈ p.name, env.nameChar c) ∧
      match (splitColon spec).2 with
      | some part => ∃ v, env.parseVersion part = .ok v ∧ p.version = some v
      | none => p.version = none := by
  have hfind : ∀ name : Text, (name.find? fun c => !env.nameChar c) = none →
      ∀ c ∈ name, env.nameChar c := by
    intro name hnone c hc
    simpa using List.find?_eq_none.mp hnone c hc
  unfold parseName at hp
  cases hrest : (splitColon spec).2 with
  | none =>
    simp only [hrest, bind, Except.bind] at hp
    split at hp
    · cases hp
    · rename_i hnone
      cases hp
      exact ⟨rfl, rfl, hfind _ hnone, rfl⟩
  | some part =>
    simp only [hrest, bind, Except.bind] at hp
    cases hversion : env.parseVersion part with
    | error e =>
      simp only [hversion] at hp
      cases hp
    | ok v =>
      simp only [hversion] at hp
      split at hp
      · cases hp
      · rename_i hnone
        cases hp
        exact ⟨rfl, rfl, hfind _ hnone, v, hversion, rfl⟩

/-- What is printed without its scheme is not the name of a package. -/
theorem parseName_cargo_ne_ok (h : env.Documented) (hself : env.crate.parse u.asStr = .ok u)
    (hrooted : (env.crate.path u).head? = some '/') (hhost : env.crate.hostStr u = some host)
    (y : Text) (p : PackageIdSpec V) :
    env.parseName (host ++ env.crate.path u ++ y) ≠ .ok p := by
  intro hp
  obtain ⟨hname, -, hchars, -⟩ := parseName_ok hp
  obtain ⟨hslash, -, haddress⟩ := h.host _ u host hself hhost
  have hbad : ∀ c, c = '/' ∨ c = '[' → ¬env.nameChar c := by
    rintro c (rfl | rfl) <;> rw [nameChar_ascii h (by decide)] <;> decide
  by_cases hcolon : ':' ∈ host
  · -- the name starts with the bracket of an address
    obtain ⟨rest, hrest⟩ := List.head?_eq_some_iff.mp (haddress hcolon)
    refine hbad '[' (.inr rfl) (hchars '[' ?_)
    rw [hname, splitColon, hrest, List.cons_append, List.cons_append,
      List.takeWhile_cons_of_pos (by decide)]
    exact List.mem_cons_self
  · -- the name goes on into the path
    obtain ⟨rest, hrest⟩ := List.head?_eq_some_iff.mp hrooted
    refine hbad '/' (.inl rfl) (hchars '/' ?_)
    have hall : ∀ c ∈ host, decide (c ≠ ':') = true :=
      fun c hc => decide_eq_true (ne_of_mem_of_not_mem hc hcolon)
    rw [hname, splitColon, hrest, List.append_assoc, List.takeWhile_append_of_pos hall,
      List.cons_append, List.takeWhile_cons_of_pos (by decide)]
    exact List.mem_append_right _ List.mem_cons_self

end Cargo

/-! ### Which specs are read back -/

/-- The text is read without a panic, and what was read is printed and read back. -/
def RoundTrips (env : SpecEnv V) (spec : Text) : Prop :=
  env.parse spec ≠ .error .panic ∧
    ∀ p, env.parse spec = .ok p → ∃ text, env.toStr p = .ok text ∧ env.parse text = .ok p

/-- A text that, if it is read as a url with a path, has a fragment that is not empty; and if
that gives a name and a version, a url that loses nothing when it is printed. -/
def Reprintable (env : SpecEnv V) (spec : Text) : Prop :=
  ∀ u, env.readUrl spec = some u → u.query = none →
    (env.crate.pathName u.withoutFragment).isSome →
    u.fragment ≠ some [] ∧ (env.Legible u.fragment → env.PrintsBack u.withoutFragment)

theorem separator_not_mem (h : env.Documented) {name : Text}
    (hchars : ∀ c ∈ name, env.nameChar c) : ':' ∉ name ∧ '/' ∉ name := by
  constructor <;> intro hmem
  · have hchar := hchars ':' hmem
    rw [nameChar_ascii h (by decide)] at hchar
    exact absurd hchar (by decide)
  · have hchar := hchars '/' hmem
    rw [nameChar_ascii h (by decide)] at hchar
    exact absurd hchar (by decide)

/-- A name and perhaps a version, as they are printed, are read. -/
theorem parse_nameVersion (h : env.Documented) {name : Text}
    (hchars : ∀ c ∈ name, env.nameChar c) {version : Option V}
    (hversion : ∀ v ∈ version, env.IsVersion v) :
    env.parse (name ++ env.versionPart true version) =
      .ok { name := name, version := version, url := none } := by
  obtain ⟨hcolon, hslash⟩ := separator_not_mem h hchars
  have hfind : (name.find? fun c => !env.nameChar c) = none := by
    rw [List.find?_eq_none]
    intro c hc
    simpa using hchars c hc
  cases version with
  | none =>
    rw [versionPart, List.append_nil, parse, readUrl, if_neg hslash]
    simp [parseName, splitColon_of_not_mem hcolon, hfind, bind, Except.bind]
  | some v =>
    have hv := hversion v rfl
    have hread := toSemver_ok (toSemver_versionStr h hv)
    have hslash' : '/' ∉ name ++ ':' :: env.versionStr v := by
      rw [List.mem_append, List.mem_cons, not_or, not_or]
      exact ⟨hslash, by decide, slash_not_mem_versionStr h hv⟩
    rw [versionPart, if_pos rfl, parse, readUrl, if_neg hslash']
    simp [parseName, splitColon_append hcolon, hread, hfind, bind, Except.bind]

/-- A spec without a url is read back. -/
theorem parse_name_back (h : env.Documented) {spec : Text} {p : PackageIdSpec V}
    (hp : env.parseName spec = .ok p) :
    ∃ text, env.toStr p = .ok text ∧ env.parse text = .ok p := by
  obtain ⟨hname, hurl, hchars, hversion⟩ := parseName_ok hp
  have hread : ∀ v ∈ p.version, env.IsVersion v := by
    intro v hv
    cases hrest : (splitColon spec).2 with
    | none =>
      rw [hrest] at hversion
      rw [hversion] at hv
      cases hv
    | some part =>
      rw [hrest] at hversion
      obtain ⟨v', hv', heq⟩ := hversion
      rw [heq] at hv
      cases hv
      exact ⟨part, hv'⟩
  refine ⟨p.name ++ env.versionPart true p.version, by rw [toStr, hurl], ?_⟩
  rw [parse_nameVersion h hchars hread, ← hurl]

/-- A spec with a url is read back if and only if the url loses nothing. -/
theorem parse_url_back_iff (h : env.Documented) {u : Url} (hu : env.IsRooted u) {segment : Text}
    (hsegment : env.crate.pathName u = some segment) {name : Text} {version : Option V}
    (hfrom : env.FromFragment name version segment) :
    (∃ text, env.toStr { name := name, version := version, url := some u } = .ok text ∧
      env.parse text = .ok { name := name, version := version, url := some u }) ↔
      env.PrintsBack u := by
  have hsafe := safePrecise_printedFragment h hfrom
  have hfound := nameAndVersion_printedFragment h hfrom
  -- only urls of the scheme `cargo` are printed as something else than they are
  by_cases hscheme : u.scheme = "cargo".toList
  · cases hhost : env.crate.hostStr u with
    | none =>
      have hurlStr : env.urlStr u = .error .panic := by rw [urlStr, if_pos hscheme, hhost]
      constructor
      · rintro ⟨text, htext, -⟩
        simp only [toStr, hurlStr, bind, Except.bind] at htext
        cases htext
      · intro hprints
        obtain ⟨host, hhost', -⟩ := hprints hscheme
        rw [hhost] at hhost'
        cases hhost'
    | some host =>
      have hurlStr : env.urlStr u = .ok (host ++ env.crate.path u) := by
        rw [urlStr, if_pos hscheme, hhost]
      obtain ⟨hslash, hlast, -⟩ := h.host _ u host hu.parse hhost
      have hmarked : "://".toList <:+:
          host ++ env.crate.path u ++ marked '#' (env.printedFragment name version segment) ↔
          HasScheme (env.crate.path u) := by
        rw [List.append_assoc]
        refine (hasScheme_append_of_slash hslash hlast _).trans ?_
        cases hg : env.printedFragment name version segment with
        | none => rw [marked, List.append_nil]
        | some g =>
          rw [marked, hasScheme_append_mark]
          exact or_iff_left (not_hasScheme_printedFragment h hfrom g hg)
      rw [toStr_of_url hurlStr hsegment]
      have hread := readUrl_cargo h hu hscheme hhost (env.printedFragment name version segment)
      rw [seen_eq_self hsafe] at hread
      constructor
      · rintro ⟨text, htext, hback⟩ -
        cases htext
        -- what was printed is read as a url again if it has `://`, and as a name otherwise
        rw [parse, hread] at hback
        split_ifs at hback with hhas
        · exact absurd hback (parseName_cargo_ne_ok h hu.parse hu.rooted hhost _ _)
        · refine ⟨host, hhost, ?_, fun hpath => hhas (hmarked.mpr hpath)⟩
          obtain ⟨-, hsuffix, -⟩ := h.parse_cargo _ u host hu.parse hscheme hhost hu.rooted
          obtain ⟨-, hurl, -⟩ := fromUrl_ok hback
          rw [Url.withoutFragment_withMark (u := cargoUrl host (env.crate.path u)) hsuffix]
            at hurl
          exact Option.some.inj hurl
      · intro hprints
        obtain ⟨host', hhost', heq, hpath⟩ := hprints hscheme
        rw [hhost, Option.some.injEq] at hhost'
        subst hhost'
        refine ⟨_, rfl, ?_⟩
        rw [parse, hread, if_neg fun hhas => hpath (hmarked.mp hhas), ← heq]
        simp only [fromUrl_withMark hu hsegment, hfound]
        rfl
  · have hurlStr : env.urlStr u = .ok u.asStr := by rw [urlStr, if_neg hscheme]
    rw [toStr_of_url hurlStr hsegment]
    refine iff_of_true ⟨_, rfl, ?_⟩ fun hcargo => absurd hcargo hscheme
    have hparse := parse_withMark h hu.parse hu.suffix hu.base
      (env.printedFragment name version segment)
    rw [seen_eq_self hsafe] at hparse
    rw [parse, readUrl_of_parse (List.mem_append_left _ (slash_mem_of_rooted h hu)) hparse]
    simp only [fromUrl_withMark hu hsegment, hfound]
    rfl

theorem parseName_ne_panic (spec : Text) : env.parseName spec ≠ .error .panic := by
  intro hpanic
  unfold parseName at hpanic
  cases hrest : (splitColon spec).2 with
  | none =>
    simp only [hrest, bind, Except.bind] at hpanic
    split at hpanic <;> cases hpanic
  | some part =>
    cases hversion : env.parseVersion part with
    | error e =>
      simp only [hrest, hversion, bind, Except.bind] at hpanic
      cases hpanic
    | ok v =>
      simp only [hrest, hversion, bind, Except.bind] at hpanic
      split at hpanic <;> cases hpanic

/-- A url is taken without a panic and printed so that it is read back, unless its fragment is
empty or something is lost. -/
theorem fromUrl_back_iff (h : env.Documented) {t : Text} {u : Url}
    (hparse : env.crate.parse t = .ok u) :
    (env.fromUrl u ≠ .error .panic ∧
      ∀ p, env.fromUrl u = .ok p → ∃ text, env.toStr p = .ok text ∧ env.parse text = .ok p) ↔
    (u.query = none → (env.crate.pathName u.withoutFragment).isSome →
      u.fragment ≠ some [] ∧ (env.Legible u.fragment → env.PrintsBack u.withoutFragment)) := by
  by_cases hquery : u.query = none
  swap
  -- urls with a query or without a path are errors, which is all that is asked of them
  · have herror : env.fromUrl u = .error (.query u) := by
      rw [fromUrl, if_pos (by simpa [Option.isSome_iff_ne_none] using hquery)]
    rw [herror]
    exact iff_of_true ⟨by simp, fun p hp => by cases hp⟩ fun hnone => absurd hnone hquery
  have hsome : ¬u.query.isSome := by simp [hquery]
  cases hsegment : env.crate.pathName u.withoutFragment with
  | none =>
    have herror : env.fromUrl u = .error (.noPath u.withoutFragment) := by
      rw [fromUrl, if_neg hsome, hsegment]
    rw [herror]
    exact iff_of_true ⟨by simp, fun p hp => by cases hp⟩ fun _ hpath => by cases hpath
  | some segment =>
    have hu := isRooted_withoutFragment h hparse hquery (by rw [hsegment]; rfl)
    rcases nameAndVersion_cases env u.fragment segment (safePrecise_fragment h hparse) with
      ⟨hnil, hfound⟩ | ⟨hne, hlegible, part, hfound⟩ | ⟨hne, hlegible, name, version, hfound, hfrom⟩
    · -- an empty fragment: a panic
      have herror : env.fromUrl u = .error .panic := by
        simp only [fromUrl, if_neg hsome, hsegment, hfound]
        rfl
      rw [herror]
      exact iff_of_false (fun hback => hback.1 rfl) fun hcond => (hcond hquery rfl).1 hnil
    · -- a fragment that is no version: an error
      have herror : env.fromUrl u = .error (.semver part) := by
        simp only [fromUrl, if_neg hsome, hsegment, hfound]
        rfl
      rw [herror]
      exact iff_of_true ⟨by simp, fun p hp => by cases hp⟩
        fun _ _ => ⟨hne, fun hlegible' => absurd hlegible' hlegible⟩
    · have hok : env.fromUrl u =
          -- a name and a version: these are read back if the url is
          .ok { name := name, version := version, url := some u.withoutFragment } := by
        simp only [fromUrl, if_neg hsome, hsegment, hfound]
        rfl
      rw [hok]
      have hback := parse_url_back_iff h hu hsegment hfrom
      constructor
      · rintro ⟨-, hall⟩ - -
        exact ⟨hne, fun _ => hback.mp (hall _ rfl)⟩
      · intro hcond
        refine ⟨by simp, ?_⟩
        rintro p ⟨⟩
        exact hback.mpr ((hcond hquery rfl).2 hlegible)

/-- A text is read without a panic and what was read is read back, if and only if the text is
reprintable. -/
theorem roundTrips_iff_reprintable (h : env.Documented) (spec : Text) :
    env.RoundTrips spec ↔ env.Reprintable spec := by
  unfold RoundTrips Reprintable
  cases hread : env.readUrl spec with
  | none =>
    have hparse : env.parse spec = env.parseName spec := by rw [parse, hread]
    rw [hparse]
    exact iff_of_true ⟨parseName_ne_panic spec, fun p hp => parse_name_back h hp⟩
      fun u hu => by cases hu
  | some u =>
    have hparse : env.parse spec = env.fromUrl u := by rw [parse, hread]
    have hread' : ∃ t, env.crate.parse t = .ok u := by
      rcases parse_of_readUrl hread with hspec | hcargo
      · exact ⟨_, hspec⟩
      · exact ⟨_, hcargo⟩
    obtain ⟨t, ht⟩ := hread'
    rw [hparse, fromUrl_back_iff h ht]
    constructor
    · rintro hcond _ ⟨⟩
      exact hcond
    · intro hcond
      exact hcond u rfl

/-- A spec without a scheme is read back. -/
theorem bar_roundTrips : normalizedSpecs.Documented ∧
    normalizedSpecs.RoundTrips "crates.io/foo#bar:1.2.3".toList := by
  refine ⟨normalizedSpecs_documented, ?_⟩
  refine (roundTrips_iff_reprintable normalizedSpecs_documented _).mpr ?_
  intro u hu _ _
  have hread : normalizedSpecs.readUrl "crates.io/foo#bar:1.2.3".toList =
      some ⟨"cargo://crates.io/foo#bar:1.2.3".toList⟩ := by decide
  rw [hread] at hu
  cases hu
  refine ⟨by decide, fun _ _ => ⟨"crates.io".toList, by decide, by decide, ?_⟩⟩
  intro hscheme
  exact absurd (mem_of_hasScheme hscheme).1 (by decide)

/-- With an empty fragment, reading the spec is a panic. -/
theorem empty_fragment_panics : normalizedSpecs.Documented ∧
    normalizedSpecs.parse "http://crates.io/foo#".toList = .error .panic ∧
    ¬normalizedSpecs.RoundTrips "http://crates.io/foo#".toList := by
  have hpanic : normalizedSpecs.parse "http://crates.io/foo#".toList = .error .panic := by decide
  exact ⟨normalizedSpecs_documented, hpanic, fun hback => hback.1 hpanic⟩

end SpecEnv

end Cargo.Core
