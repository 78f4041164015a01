import Mathlib.Data.List.DropRight
import Cargo.Core.SourceId
import Cargo.Math.FormCoding

/-!
# Source ids as texts

A source id is written into lock files as a text: the reference of a git source is spliced
into the query of its url and the precise revision into the fragment, both as they are. The
text is read back with the url parser and with form decoding, so that a reference or a
revision with a special character in it comes back changed.

## Main definitions

* `SourceId.toUrl`, `SourceId.fromUrl` — writing and reading a source id
* `EncodablePackageId`, with `display` and `fromStr` — package ids of a lock file
* `UrlCrate.ReadsUrls` — what is documented of the url parser
* `SafeReference`, `SafePrecise`, `Printable` — what is written so that it is read back
-/

set_option autoImplicit false

open Cargo.Math

namespace Cargo.Core

variable {crate : UrlCrate}

/-! ### Writing -/

/-- The reference as a query, or `none` for the head of the master branch. -/
def GitReference.prettyRef : GitReference → Option Text
  | .branch s => if s = "master".toList then none else some ("branch=".toList ++ s)
  | .tag s => some ("tag=".toList ++ s)
  | .rev s => some ("rev=".toList ++ s)

/-- A part of a url with its mark in front of it, if it is there. -/
def marked (mark : Char) : Option Text → Text
  | some t => mark :: t
  | none => []

/-- The source written as a url. -/
def SourceId.toUrl (s : SourceId crate) : Text :=
  match s.kind with
  | .path => "path+".toList ++ s.url.asStr
  | .git reference =>
    "git+".toList ++ s.url.asStr ++ marked '?' reference.prettyRef ++ marked '#' s.precise
  | .registry => "registry+".toList ++ s.url.asStr
  | .localRegistry => "local-registry+".toList ++ s.url.asStr
  | .directory => "directory+".toList ++ s.url.asStr

/-! ### Reading -/

/-- `to_url`: the url crate's reading of a text, with the text in the error. -/
def parseUrl (crate : UrlCrate) (t : Text) : Except Text Url :=
  (crate.parse t).mapError fun e => "invalid url `".toList ++ t ++ "`: ".toList ++ e

/-- A pair of the query gives the reference; an older `ref` is a branch. -/
def GitReference.update (reference : GitReference) (pair : Text × Text) : GitReference :=
  if pair.1 = "branch".toList ∨ pair.1 = "ref".toList then .branch pair.2
  else if pair.1 = "rev".toList then .rev pair.2
  else if pair.1 = "tag".toList then .tag pair.2
  else reference

/-- The reference that the query of a url gives. -/
def GitReference.ofQuery (query : Option Text) : GitReference :=
  (formPairs (query.getD [])).foldl GitReference.update (.branch "master".toList)

/-- Parses a source url and returns the corresponding id. -/
def SourceId.fromUrl (string : Text) : Except Text (SourceId crate) := do
  let kind := string.takeWhile (· ≠ '+')
  match (string.dropWhile (· ≠ '+')).tail? with
  | none => throw ("invalid source `".toList ++ string ++ "`".toList)
  | some rest =>
    if kind = "git".toList then
      let url ← parseUrl crate rest
      let reference := GitReference.ofQuery url.query
      let precise := url.fragment
      -- query and fragment are dropped
      let source ← SourceId.forGit ⟨url.base⟩ reference
      return source.withPrecise precise
    else if kind = "registry".toList then
      let url ← parseUrl crate rest
      let source ← SourceId.new .registry url
      return source.withPrecise (some "locked".toList)
    else if kind = "path".toList then
      let url ← parseUrl crate rest
      SourceId.new .path url
    else throw ("unsupported source protocol: ".toList ++ kind)

/-! ### Package ids of a lock file -/

/-- A package id as a lock file has it. -/
structure EncodablePackageId (crate : UrlCrate) where
  name : Text
  version : Text
  source : Option (SourceId crate)

namespace EncodablePackageId

/-- The package id as a text. -/
def display (id : EncodablePackageId crate) : Text :=
  id.name ++ ' ' :: id.version ++
    match id.source with
    | some s => " (".toList ++ s.toUrl ++ ")".toList
    | none => []

/-- The text up to the first space. -/
def firstWord (t : Text) : Text := t.takeWhile (· ≠ ' ')

/-- Reads a package id. -/
def fromStr (t : Text) : Except Text (EncodablePackageId crate) :=
  match (t.dropWhile (· ≠ ' ')).tail? with
  | none => .error "invalid serialized PackageId".toList
  | some rest =>
    match (rest.dropWhile (· ≠ ' ')).tail? with
    | none => .ok { name := firstWord t, version := firstWord rest, source := none }
    | some source =>
      if source.head? = some '(' ∧ source.getLast? = some ')' then
        (SourceId.fromUrl source.tail.dropLast).map fun s =>
          { name := firstWord t, version := firstWord rest, source := some s }
      else .error "invalid serialized PackageId".toList

end EncodablePackageId

/-! ### What is documented of the url parser -/

/-- Control characters and the space, which are trimmed off a text. -/
def c0OrSpace (c : Char) : Bool := c.toNat ≤ 0x20

/-- Characters that are left out wherever they stand. -/
def tabOrNewline (c : Char) : Bool := c = '\t' ∨ c = '\n' ∨ c = '\r'

/-- The end of a text as the parser sees it. -/
def stripped (t : Text) : Text := (t.rdropWhile c0OrSpace).filter fun c => !tabOrNewline c

/-- The characters that are percent-encoded in a query. -/
def encodedInQuery (c : Char) : Bool :=
  c.toNat < 0x20 || 0x7E < c.toNat || c ∈ [' ', '"', '#', '<', '>']

/-- The characters that are percent-encoded in a fragment. -/
def encodedInFragment (c : Char) : Bool := c.toNat < 0x20 || 0x7E < c.toNat

/-- The fragment of a url that is given by the text `t`. -/
def encodeFragment (t : Text) : Text :=
  percentEncode encodedInFragment (t.filter (· ≠ '\x00'))

/-- Query and fragment of a url whose text ends in `t`, with their marks. -/
def encodeSuffix (t : Text) : Text :=
  marked '?' ((t.takeWhile (· ≠ '#')).tail?.map (percentEncode encodedInQuery)) ++
    marked '#' ((t.dropWhile (· ≠ '#')).tail?.map encodeFragment)

/-- What is documented of the url parser: it parses what it prints, and a query and a fragment
behind a url are stripped and encoded. -/
structure UrlCrate.ReadsUrls (crate : UrlCrate) : Prop where
  parse_asStr : ∀ t u, crate.parse t = .ok u → crate.cannotBeABase u = false →
    crate.parse u.asStr = .ok u
  parse_suffix : ∀ u t, crate.parse u.asStr = .ok u → crate.cannotBeABase u = false →
    u.suffix = [] → (∃ c r, t = c :: r ∧ (c = '?' ∨ c = '#')) →
    crate.parse (u.asStr ++ t) = .ok ⟨u.asStr ++ encodeSuffix (stripped t)⟩

/-! ### Slices of a url with a suffix -/

section Slices

variable {b : Text} {q f : Option Text}

/-- Cutting at a mark that the text in front does not have. -/
theorem takeWhile_append_marked {x : Text} {c : Char} (h : c ∉ x) (o : Option Text) :
    (x ++ marked c o).takeWhile (· ≠ c) = x := by
  rw [List.takeWhile_append_of_pos fun d hd => by simpa using ne_of_mem_of_not_mem hd h]
  cases o <;> simp [marked]

theorem dropWhile_append_marked {x : Text} {c : Char} (h : c ∉ x) (o : Option Text) :
    (x ++ marked c o).dropWhile (· ≠ c) = marked c o := by
  rw [List.dropWhile_append_of_pos fun d hd => by simpa using ne_of_mem_of_not_mem hd h]
  cases o <;> simp [marked]

theorem tail?_marked (c : Char) (o : Option Text) : (marked c o).tail? = o := by
  cases o <;> rfl

theorem hash_not_mem (hb : ∀ c ∈ b, inBase c) (hq : ∀ t ∈ q, '#' ∉ t) :
    '#' ∉ b ++ marked '?' q := by
  intro h
  rcases List.mem_append.mp h with h | h
  · exact absurd (hb _ h) (by decide)
  · cases q with
    | none => cases h
    | some t =>
      rcases List.mem_cons.mp h with h | h
      · exact absurd h (by decide)
      · exact hq t rfl h

theorem base_of_parts (hb : ∀ c ∈ b, inBase c) :
    Url.base ⟨b ++ marked '?' q ++ marked '#' f⟩ = b := by
  rw [Url.base, List.append_assoc, List.takeWhile_append_of_pos hb]
  cases q <;> cases f <;> simp [marked, inBase]

theorem fragment_of_parts (hb : ∀ c ∈ b, inBase c) (hq : ∀ t ∈ q, '#' ∉ t) :
    Url.fragment ⟨b ++ marked '?' q ++ marked '#' f⟩ = f := by
  rw [Url.fragment, dropWhile_append_marked (hash_not_mem hb hq), tail?_marked]

theorem query_of_parts (hb : ∀ c ∈ b, inBase c) (hq : ∀ t ∈ q, '#' ∉ t) :
    Url.query ⟨b ++ marked '?' q ++ marked '#' f⟩ = q := by
  have hmark : '?' ∉ b := fun h => absurd (hb _ h) (by decide)
  rw [Url.query, takeWhile_append_marked (hash_not_mem hb hq), dropWhile_append_marked hmark,
    tail?_marked]

end Slices

/-! ### Stripping -/

theorem rdropWhile_append_cons {x y : Text} {c : Char} (h : c0OrSpace c = false) :
    (x ++ c :: y).rdropWhile c0OrSpace = x ++ c :: y.rdropWhile c0OrSpace := by
  induction y using List.reverseRecOn with
  | nil =>
    rw [List.rdropWhile_concat_neg _ _ _ (by simp [h])]
    simp
  | append_singleton y d ih =>
    by_cases hd : c0OrSpace d
    · rw [← List.cons_append, ← List.append_assoc, List.rdropWhile_concat_pos _ _ _ hd, ih,
        List.rdropWhile_concat_pos _ _ _ hd]
    · rw [← List.cons_append, ← List.append_assoc, List.rdropWhile_concat_neg _ _ _ hd,
        List.rdropWhile_concat_neg _ _ _ hd]
      simp

/-- A mark keeps what stands before it from being trimmed. -/
theorem stripped_append_cons {x y : Text} {c : Char} (h : c0OrSpace c = false) :
    stripped (x ++ c :: y) = (x.filter fun c => !tabOrNewline c) ++ c :: stripped y := by
  have htab : tabOrNewline c = false := by
    by_contra hne
    simp only [tabOrNewline, Bool.not_eq_false, decide_eq_true_eq] at hne
    rcases hne with rfl | rfl | rfl <;> exact absurd h (by decide)
  rw [stripped, rdropWhile_append_cons h]
  simp [stripped, htab]

theorem stripped_sublist (t : Text) : (stripped t).Sublist t :=
  List.filter_sublist.trans (List.rdropWhile_prefix _ _).sublist

/-- A text is stripped of nothing exactly when it has no tab or newline and does not end in a
control character or a space. -/
theorem stripped_eq_self_iff (t : Text) :
    stripped t = t ↔ (∀ c ∈ t, tabOrNewline c = false) ∧ ∀ c ∈ t.getLast?, c0OrSpace c = false := by
  constructor
  · intro h
    have hfilter : (t.rdropWhile c0OrSpace).length ≤ t.length :=
      (List.rdropWhile_prefix _ _).length_le
    have hlength : t.length ≤ (t.rdropWhile c0OrSpace).length := by
      calc t.length = (stripped t).length := by rw [h]
        _ ≤ (t.rdropWhile c0OrSpace).length := List.length_filter_le _ _
    have htrim : t.rdropWhile c0OrSpace = t :=
      (List.rdropWhile_prefix _ _).eq_of_length (Nat.le_antisymm hfilter hlength)
    rw [stripped, htrim, List.filter_eq_self] at h
    refine ⟨fun c hc => by simpa using h c hc, ?_⟩
    intro c hc
    obtain ⟨hne, rfl⟩ := List.mem_getLast?_eq_getLast hc
    simpa using List.rdropWhile_eq_self_iff.mp htrim hne
  · rintro ⟨htab, hlast⟩
    have htrim : t.rdropWhile c0OrSpace = t := by
      rw [List.rdropWhile_eq_self_iff]
      intro hne
      simpa using hlast _ (List.getLast_mem_getLast? hne)
    rw [stripped, htrim, List.filter_eq_self]
    intro c hc
    simp [htab c hc]

/-! ### The reference -/

theorem keepsEscapes_query : KeepsEscapes encodedInQuery := by
  intro c hc
  refine ⟨?_, ?_, ?_⟩
  · rintro rfl
    exact absurd hc (by decide)
  · rintro rfl
    exact absurd hc (by decide)
  · by_contra hhex
    rw [Bool.not_eq_false] at hhex
    rw [forall_isHex (P := fun c => encodedInQuery c = false) (by decide +kernel) hhex] at hc
    cases hc

theorem separates_query {sep : Char} (h : sep = '&' ∨ sep = '=') :
    Separates encodedInQuery sep := by
  rcases h with rfl | rfl <;> exact ⟨by decide, by decide, by decide⟩

namespace GitReference

/-- The name of the pair that a reference is written as. -/
def key : GitReference → Text
  | .branch _ => "branch".toList
  | .tag _ => "tag".toList
  | .rev _ => "rev".toList

/-- The same kind of reference with another name. -/
def withName : GitReference → Text → GitReference
  | .branch _, v => .branch v
  | .tag _, v => .tag v
  | .rev _, v => .rev v

@[simp] theorem withName_name (r : GitReference) : r.withName r.name = r := by
  cases r <;> rfl

theorem withName_eq_iff (r : GitReference) (v : Text) : r.withName v = r ↔ v = r.name := by
  cases r <;> simp [withName, name]

theorem prettyRef_eq (r : GitReference) :
    r.prettyRef = if r = .branch "master".toList then none
      else some (r.key ++ '=' :: r.name) := by
  cases r with
  | branch s =>
    simp only [prettyRef, branch.injEq]
    split_ifs <;> rfl
  | tag s => rfl
  | rev s => rfl

theorem update_key (r r' : GitReference) (v : Text) : r'.update (r.key, v) = r.withName v := by
  cases r <;> rfl

/-- A pair gives a reference by its own value, or leaves the reference as it is. -/
theorem update_eq_or (r : GitReference) (pair : Text × Text) :
    r.update pair = r ∨ (r.update pair).name = pair.2 := by
  unfold update
  split_ifs
  · exact .inr rfl
  · exact .inr rfl
  · exact .inr rfl
  · exact .inl rfl

/-- The reference that pairs give has the value of one of them. -/
theorem foldl_update_eq_or (pairs : List (Text × Text)) (r : GitReference) :
    pairs.foldl update r = r ∨ ∃ pair ∈ pairs, (pairs.foldl update r).name = pair.2 := by
  induction pairs generalizing r with
  | nil => exact .inl rfl
  | cons pair pairs ih =>
    rw [List.foldl_cons]
    rcases ih (r.update pair) with h | ⟨other, hmem, h⟩
    · rw [h]
      rcases update_eq_or r pair with h' | h'
      · exact .inl h'
      · exact .inr ⟨pair, List.mem_cons_self, h'⟩
    · exact .inr ⟨other, List.mem_cons_of_mem _ hmem, h⟩

theorem key_separate (r : GitReference) : '&' ∉ r.key ∧ '=' ∉ r.key ∧ '#' ∉ r.key := by
  cases r <;> exact of_decide_eq_true rfl

theorem formDecode_key (r : GitReference) :
    formDecode (percentEncode encodedInQuery r.key) = r.key := by
  rw [formDecode_percentEncode_eq_iff keepsEscapes_query]
  cases r <;> exact of_decide_eq_true rfl

theorem pairName_key (r : GitReference) (x : Text) : pairName (r.key ++ '=' :: x) = r.key := by
  exact takeWhile_append_marked (key_separate r).2.1 (some x)

theorem pairValue_key (r : GitReference) (x : Text) : pairValue (r.key ++ '=' :: x) = x := by
  rw [pairValue, show r.key ++ '=' :: x = r.key ++ marked '=' (some x) from rfl,
    dropWhile_append_marked (key_separate r).2.1]
  rfl

/-- A reference without `&` is read as one pair. -/
theorem ofQuery_of_not_mem (r : GitReference) {x : Text} (h : '&' ∉ x) :
    ofQuery (some (percentEncode encodedInQuery (r.key ++ '=' :: x))) =
      r.withName (formDecode (percentEncode encodedInQuery x)) := by
  have hmem : '&' ∉ r.key ++ '=' :: x := by
    simp [(key_separate r).1, h]
  rw [ofQuery, Option.getD_some,
    formPairs_percentEncode (separates_query (.inl rfl)) (separates_query (.inr rfl)),
    pieces_of_not_mem hmem]
  simp [pairName_key, pairValue_key, formDecode_key, update_key]

/-- A reference with `&` in it is read as several pairs, all of them shorter. -/
theorem length_ofQuery_of_mem (r : GitReference) {x : Text} (h : '&' ∈ x) :
    ofQuery (some (percentEncode encodedInQuery (r.key ++ '=' :: x))) = .branch "master".toList ∨
      (ofQuery (some (percentEncode encodedInQuery (r.key ++ '=' :: x)))).name.length <
        x.length := by
  rw [ofQuery, Option.getD_some,
    formPairs_percentEncode (separates_query (.inl rfl)) (separates_query (.inr rfl))]
  rcases foldl_update_eq_or _ (.branch "master".toList) with hinit | ⟨pair, hmem, hname⟩
  · exact .inl hinit
  · right
    rw [hname]
    obtain ⟨p, hp, rfl⟩ := List.mem_map.mp hmem
    have hp := (List.mem_filter.mp hp).1
    refine (length_formDecode_percentEncode_le keepsEscapes_query _).trans_lt ?_
    obtain ⟨x₁, x₂, rfl, hx₁⟩ := List.eq_append_cons_of_mem h
    have hfirst : ∀ c ∈ r.key ++ '=' :: x₁, c ≠ '&' := by
      intro c hc
      apply ne_of_mem_of_not_mem hc
      simp [(key_separate r).1, hx₁]
    obtain ⟨q, qs, hq, hpieces⟩ := pieces_append hfirst ('&' :: x₂)
    rw [pieces, if_pos rfl, List.cons.injEq] at hq
    obtain ⟨rfl, rfl⟩ := hq
    rw [show r.key ++ '=' :: (x₁ ++ '&' :: x₂) = r.key ++ '=' :: x₁ ++ '&' :: x₂ by simp,
      hpieces] at hp
    rcases List.mem_cons.mp hp with rfl | hp
    · rw [List.append_nil, pairValue_key]
      simp
    · have hvalue : (pairValue p).length ≤ p.length := by
        rw [pairValue, List.length_tail]
        exact (Nat.sub_le _ _).trans (List.dropWhile_sublist _).length_le
      have hp := length_le_of_mem_pieces hp
      simp only [List.length_append, List.length_cons]
      omega

/-- A reference is read back from a part of its name exactly when the part is the whole name
and the name has no `&`, no `+` and no escape in it. -/
theorem ofQuery_eq_iff {r : GitReference} (hr : r ≠ .branch "master".toList) {x : Text}
    (hx : x.Sublist r.name) :
    ofQuery (some (percentEncode encodedInQuery (r.key ++ '=' :: x))) = r ↔
      x = r.name ∧ '&' ∉ r.name ∧ '+' ∉ r.name ∧ HasEscape r.name = false := by
  have hle := length_formDecode_percentEncode_le keepsEscapes_query x
  constructor
  · intro h
    have hand : '&' ∉ x := by
      intro hand
      rcases length_ofQuery_of_mem r hand with h' | h'
      · exact hr (h.symm.trans h')
      · rw [h] at h'
        exact absurd hx.length_le (Nat.not_le.mpr h')
    rw [ofQuery_of_not_mem r hand, withName_eq_iff] at h
    have heq : x = r.name := by
      apply hx.eq_of_length_le
      rw [← h]
      exact hle
    subst heq
    exact ⟨rfl, hand, (formDecode_percentEncode_eq_iff keepsEscapes_query _).mp h⟩
  · rintro ⟨rfl, hand, hplain⟩
    rw [ofQuery_of_not_mem r hand, withName_eq_iff]
    exact (formDecode_percentEncode_eq_iff keepsEscapes_query _).mpr hplain

end GitReference

/-! ### The precise revision -/

/-- A revision that a fragment holds as it is: printable ASCII, not ending in a space. -/
def SafePrecise (t : Text) : Prop :=
  (∀ c ∈ t, 0x20 ≤ c.toNat ∧ c.toNat ≤ 0x7E) ∧ t.getLast? ≠ some ' '

theorem encodedInFragment_eq_false_iff (c : Char) :
    encodedInFragment c = false ↔ 0x20 ≤ c.toNat ∧ c.toNat ≤ 0x7E := by
  simp [encodedInFragment]

/-- Whatever a fragment holds is printable ASCII. -/
theorem range_of_mem_encodeFragment {c : Char} {t : Text} (h : c ∈ encodeFragment t) :
    0x20 ≤ c.toNat ∧ c.toNat ≤ 0x7E := by
  rw [← encodedInFragment_eq_false_iff]
  rcases mem_percentEncode h with h | rfl | h
  · exact h
  · decide
  · exact forall_isHex (P := fun c => encodedInFragment c = false) (by decide +kernel) h

theorem encodeFragment_eq_self {t : Text} (h : ∀ c ∈ t, 0x20 ≤ c.toNat ∧ c.toNat ≤ 0x7E) :
    encodeFragment t = t := by
  have hfilter : t.filter (· ≠ '\x00') = t := by
    rw [List.filter_eq_self]
    intro c hc
    have hrange := h c hc
    simp only [decide_eq_true_eq]
    rintro rfl
    exact absurd hrange.1 (by decide)
  rw [encodeFragment, hfilter]
  apply percentEncode_eq_self
  intro c hc
  exact (encodedInFragment_eq_false_iff c).mpr (h c hc)

/-- A revision is read back from a fragment exactly when it is safe. -/
theorem encodeFragment_stripped_eq_iff (t : Text) :
    encodeFragment (stripped t) = t ↔ SafePrecise t := by
  have htab : ∀ c : Char, 0x20 ≤ c.toNat → tabOrNewline c = false := by
    intro c hc
    by_contra hne
    simp only [tabOrNewline, Bool.not_eq_false, decide_eq_true_eq] at hne
    rcases hne with rfl | rfl | rfl <;> exact absurd hc (by decide)
  constructor
  · intro h
    have hrange : ∀ c ∈ t, 0x20 ≤ c.toNat ∧ c.toNat ≤ 0x7E := by
      intro c hc
      rw [← h] at hc
      exact range_of_mem_encodeFragment hc
    rw [encodeFragment_eq_self fun c hc => hrange c ((stripped_sublist t).subset hc)] at h
    refine ⟨hrange, ?_⟩
    intro hlast
    exact absurd (((stripped_eq_self_iff t).mp h).2 ' ' hlast) (by decide)
  · rintro ⟨hrange, hlast⟩
    have hstripped : stripped t = t := by
      rw [stripped_eq_self_iff]
      refine ⟨fun c hc => htab c (hrange c hc).1, ?_⟩
      intro c hc
      by_contra hspace
      simp only [c0OrSpace, Bool.not_eq_false, decide_eq_true_eq] at hspace
      have hc32 : c.toNat = ' '.toNat :=
        Nat.le_antisymm hspace (hrange c (List.mem_of_mem_getLast? hc)).1
      rw [Char.toNat_inj.mp hc32] at hc
      exact hlast hc
    rw [hstripped]
    exact encodeFragment_eq_self hrange

end Cargo.Core
