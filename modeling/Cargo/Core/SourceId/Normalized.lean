import Cargo.Core.SourceId.Text

/-!
# A parser for normalized urls

The url parser restricted to urls whose scheme, authority and path are normalized already. It
takes queries and fragments as the url crate does, and it parses what it prints.

## Main definitions

* `parseNormalized`, `normalizedUrls`

## Main results

* `normalizedUrls_readsUrls` — what is documented of the url parser holds of this one
-/

set_option autoImplicit false

open Cargo.Math

namespace Cargo.Core

/-! ### Suffixes -/

/-- The last character of an encoded text is the last character of the text or a digit of an
escape. -/
theorem getLast?_percentEncode {encoded : Char → Bool} {t : Text} {c : Char}
    (h : c ∈ (percentEncode encoded t).getLast?) : c ∈ t.getLast? ∨ isHex c := by
  rcases List.eq_nil_or_concat t with rfl | ⟨t, d, rfl⟩
  · cases h
  · rw [List.concat_eq_append, percentEncode, List.flatMap_append, List.flatMap_singleton] at h
    split_ifs at h
    · rcases List.eq_nil_or_concat (String.utf8EncodeChar d) with hnil | ⟨bs, b, hbytes⟩
      · have := d.utf8Size_pos
        rw [← String.length_utf8EncodeChar, hnil] at this
        simp at this
      · rw [hbytes, List.concat_eq_append, List.flatMap_append, List.flatMap_singleton,
          percentEncodeByte] at h
        have hc : c = hexDigit (b % 16) := by simpa using h.symm
        exact .inr (hc ▸ isHex_hexDigit (low_lt b))
    · left
      simpa using h

theorem not_c0OrSpace_of_isHex {c : Char} (h : isHex c) : c0OrSpace c = false := by
  exact forall_isHex (P := fun c => c0OrSpace c = false) (by decide +kernel) h

/-- A fragment does not end in a space unless its text does. -/
theorem getLast?_encodeFragment {t : Text} (h : ∀ c ∈ t.getLast?, c0OrSpace c = false) {c : Char}
    (hc : c ∈ (encodeFragment t).getLast?) : c0OrSpace c = false := by
  rcases getLast?_percentEncode hc with hlast | hhex
  · rcases List.eq_nil_or_concat t with rfl | ⟨t, d, rfl⟩
    · cases hlast
    · rw [List.concat_eq_append] at h hlast
      have hd : c0OrSpace d = false := h d (by simp)
      have hne : d ≠ '\x00' := by
        rintro rfl
        exact absurd hd (by decide)
      rw [List.filter_append, List.filter_cons_of_pos (by simpa using hne)] at hlast
      have hcd : d = c := by simpa using hlast
      exact hcd ▸ hd
  · exact not_c0OrSpace_of_isHex hhex

/-- A query holds no control character and no space. -/
theorem not_c0OrSpace_of_mem_query {c : Char} {t : Text}
    (h : c ∈ percentEncode encodedInQuery t) : c0OrSpace c = false := by
  rcases mem_percentEncode h with h | rfl | h
  · simp only [encodedInQuery, Bool.or_eq_false_iff, decide_eq_false_iff_not, not_lt] at h
    have hspace : c.toNat ≠ ' '.toNat := by
      intro hc
      rw [Char.toNat_inj.mp hc] at h
      exact absurd h.2 (by decide)
    change c.toNat ≠ 32 at hspace
    simp only [c0OrSpace, decide_eq_false_iff_not]
    omega
  · decide
  · exact not_c0OrSpace_of_isHex h

theorem not_tab_of_not_c0OrSpace {c : Char} (h : c0OrSpace c = false) :
    tabOrNewline c = false := by
  by_contra hne
  simp only [tabOrNewline, Bool.not_eq_false, decide_eq_true_eq] at hne
  rcases hne with rfl | rfl | rfl <;> exact absurd h (by decide)

theorem getLast?_append_marked {x : Text} {m c : Char} {t : Text}
    (h : c ∈ (x ++ marked m (some t)).getLast?) : c = m ∨ c ∈ t.getLast? := by
  rcases List.eq_nil_or_concat t with rfl | ⟨t, d, rfl⟩
  · left
    simpa [marked] using h.symm
  · right
    rw [List.concat_eq_append] at h ⊢
    rw [marked, ← List.cons_append, ← List.append_assoc, List.getLast?_concat] at h
    rwa [List.getLast?_concat]

theorem getLast?_dropWhile {p : Char → Bool} {t : Text} {c : Char}
    (h : c ∈ (t.dropWhile p).getLast?) : c ∈ t.getLast? := by
  rcases List.eq_nil_or_concat (t.dropWhile p) with hnil | ⟨y, d, hy⟩
  · rw [hnil] at h
    cases h
  · rw [List.concat_eq_append] at hy
    rw [← List.takeWhile_append_dropWhile (p := p) (l := t), hy, ← List.append_assoc,
      List.getLast?_concat]
    rwa [hy, List.getLast?_concat] at h

/-- A suffix that the parser gave is not stripped of anything. -/
theorem stripped_encodeSuffix {t : Text} (h : ∀ c ∈ t.getLast?, c0OrSpace c = false) :
    stripped (encodeSuffix t) = encodeSuffix t := by
  have hquery : ∀ q ∈ (t.takeWhile (· ≠ '#')).tail?.map (percentEncode encodedInQuery),
      ∀ c ∈ q, c0OrSpace c = false := by
    intro q hq c hc
    obtain ⟨x, -, rfl⟩ := Option.mem_map.mp hq
    exact not_c0OrSpace_of_mem_query hc
  have hfragment : ∀ f ∈ (t.dropWhile (· ≠ '#')).tail?.map encodeFragment,
      (∀ c ∈ f, tabOrNewline c = false) ∧ ∀ c ∈ f.getLast?, c0OrSpace c = false := by
    intro f hf
    obtain ⟨x, hx, rfl⟩ := Option.mem_map.mp hf
    constructor
    · intro c hc
      by_contra hne
      have hrange := range_of_mem_encodeFragment hc
      simp only [tabOrNewline, Bool.not_eq_false, decide_eq_true_eq] at hne
      rcases hne with rfl | rfl | rfl <;> exact absurd hrange.1 (by decide)
    · intro c hc
      refine getLast?_encodeFragment ?_ hc
      intro d hd
      apply h d
      -- the fragment is the end of the text
      cases hdrop : t.dropWhile (· ≠ '#') with
      | nil =>
        rw [hdrop] at hx
        cases hx
      | cons m y =>
        rw [hdrop] at hx
        cases hx
        apply getLast?_dropWhile (p := (· ≠ '#'))
        rw [hdrop]
        exact List.mem_getLast?_cons hd
  rw [stripped_eq_self_iff]
  constructor
  · intro c hc
    rcases List.mem_append.mp hc with hc | hc
    · cases hq : (t.takeWhile (· ≠ '#')).tail?.map (percentEncode encodedInQuery) with
      | none =>
        rw [hq] at hc
        cases hc
      | some q =>
        rw [hq] at hc
        rcases List.mem_cons.mp hc with rfl | hc
        · decide
        · exact not_tab_of_not_c0OrSpace (hquery q hq c hc)
    · cases hf : (t.dropWhile (· ≠ '#')).tail?.map encodeFragment with
      | none =>
        rw [hf] at hc
        cases hc
      | some f =>
        rw [hf] at hc
        rcases List.mem_cons.mp hc with rfl | hc
        · decide
        · exact (hfragment f hf).1 c hc
  · intro c hc
    rw [encodeSuffix] at hc
    cases hf : (t.dropWhile (· ≠ '#')).tail?.map encodeFragment with
    | some f =>
      rw [hf] at hc
      rcases getLast?_append_marked hc with rfl | hc
      · decide
      · exact (hfragment f hf).2 c hc
    | none =>
      rw [hf, marked, List.append_nil] at hc
      cases hq : (t.takeWhile (· ≠ '#')).tail?.map (percentEncode encodedInQuery) with
      | none =>
        rw [hq] at hc
        cases hc
      | some q =>
        rw [hq] at hc
        rcases getLast?_append_marked (x := []) hc with rfl | hc
        · decide
        · exact hquery q hq c (List.mem_of_mem_getLast? hc)

/-- A suffix that the parser gave is not encoded again. -/
theorem encodeSuffix_encodeSuffix (t : Text) :
    encodeSuffix (encodeSuffix t) = encodeSuffix t := by
  have hquery : ∀ x : Text, percentEncode encodedInQuery (percentEncode encodedInQuery x) =
      percentEncode encodedInQuery x := by
    intro x
    apply percentEncode_eq_self
    intro c hc
    rcases mem_percentEncode hc with h | rfl | h
    · exact h
    · decide
    · by_contra henc
      have hnot := (keepsEscapes_query c (by simpa using henc)).2.2
      rw [h] at hnot
      cases hnot
  have hfragment : ∀ x : Text, encodeFragment (encodeFragment x) = encodeFragment x :=
    fun x => encodeFragment_eq_self fun c hc => range_of_mem_encodeFragment hc
  have hhash : '#' ∉ marked '?'
      ((t.takeWhile (· ≠ '#')).tail?.map (percentEncode encodedInQuery)) := by
    have h := hash_not_mem (b := [])
      (q := (t.takeWhile (· ≠ '#')).tail?.map (percentEncode encodedInQuery))
      (by simp) (by
        intro q hq hmem
        obtain ⟨x, -, rfl⟩ := Option.mem_map.mp hq
        rcases mem_percentEncode hmem with h | h | h <;> exact absurd h (by decide))
    simpa using h
  rw [encodeSuffix, encodeSuffix, takeWhile_append_marked hhash, dropWhile_append_marked hhash,
    tail?_marked, tail?_marked, Option.map_map, Option.map_map]
  congr 3
  · funext x
    exact hquery x
  · funext x
    exact hfragment x

/-! ### The parser -/

/-- Is the text a normalized base: printable, with a scheme and an authority? -/
def isNormalized (t : Text) : Bool :=
  t.all (fun c => inBase c && !c0OrSpace c) && ("://".toList.isPrefixOf (t.dropWhile (· ≠ ':')))

/-- The url crate's reading of a text whose base is normalized already. -/
def parseNormalized (t : Text) : Except Text Url :=
  let t := stripped (t.dropWhile c0OrSpace)
  if isNormalized (t.takeWhile inBase) then
    .ok ⟨t.takeWhile inBase ++ encodeSuffix (t.dropWhile inBase)⟩
  else .error "relative URL without a base".toList

/-- The url crate on urls that are normalized already. -/
def normalizedUrls : UrlCrate := .plain parseNormalized

theorem isNormalized_char {t : Text} (h : isNormalized t) {c : Char} (hc : c ∈ t) :
    inBase c ∧ c0OrSpace c = false := by
  simp only [isNormalized, Bool.and_eq_true, List.all_eq_true, Bool.not_eq_true'] at h
  exact h.1 c hc

theorem not_c0OrSpace_of_mark {m : Char} (hm : ¬ inBase m) : c0OrSpace m = false := by
  simp only [inBase, decide_eq_true_eq, not_and, not_not] at hm
  by_cases h : m = '?'
  · subst h
    decide
  · rw [hm h]
    decide

theorem stripped_cons {m : Char} (hm : ¬ inBase m) (t : Text) :
    stripped (m :: t) = m :: stripped t := by
  have h := stripped_append_cons (x := []) (y := t) (not_c0OrSpace_of_mark hm)
  simpa using h

/-- A stripped text does not end in a control character or a space. -/
theorem getLast?_stripped {t : Text} {c : Char} (h : c ∈ (stripped t).getLast?) :
    c0OrSpace c = false := by
  rcases List.eq_nil_or_concat (t.rdropWhile c0OrSpace) with hnil | ⟨y, d, hy⟩
  · rw [stripped, hnil] at h
    cases h
  · rw [List.concat_eq_append] at hy
    have hd : c0OrSpace d = false := by
      have hlast := List.rdropWhile_last_not c0OrSpace t (by simp [hy])
      simpa [hy] using hlast
    rw [stripped, hy, List.filter_append,
      List.filter_cons_of_pos (by simp [not_tab_of_not_c0OrSpace hd]), List.filter_nil,
      List.getLast?_concat] at h
    cases h
    exact hd

/-- A normalized base and whatever follows it. -/
theorem parseNormalized_append {b y : Text} (hb : isNormalized b)
    (hy : y = [] ∨ ∃ c t, y = c :: t ∧ ¬ inBase c) :
    parseNormalized (b ++ y) = .ok ⟨b ++ encodeSuffix (stripped y)⟩ := by
  have hchar := fun c hc => isNormalized_char hb (c := c) hc
  have hne : b ≠ [] := by
    rintro rfl
    exact absurd hb (by decide)
  have hfront : (b ++ y).dropWhile c0OrSpace = b ++ y := by
    obtain ⟨c, b', rfl⟩ := List.exists_cons_of_ne_nil hne
    rw [List.cons_append, List.dropWhile_cons_of_neg]
    simp [(hchar c List.mem_cons_self).2]
  have hfilter : (b.filter fun c => !tabOrNewline c) = b := by
    rw [List.filter_eq_self]
    intro c hc
    simp [not_tab_of_not_c0OrSpace (hchar c hc).2]
  have hstripped : stripped (b ++ y) = b ++ stripped y := by
    rcases hy with rfl | ⟨c, t, rfl, hc⟩
    · rw [List.append_nil, show stripped [] = [] from rfl, List.append_nil, stripped_eq_self_iff]
      exact ⟨fun c hc => not_tab_of_not_c0OrSpace (hchar c hc).2,
        fun c hc => (hchar c (List.mem_of_mem_getLast? hc)).2⟩
    · rw [stripped_append_cons (not_c0OrSpace_of_mark hc), hfilter, stripped_cons hc]
  have hmark : stripped y = [] ∨ ∃ c t, stripped y = c :: t ∧ ¬ inBase c := by
    rcases hy with rfl | ⟨c, t, rfl, hc⟩
    · exact .inl rfl
    · exact .inr ⟨c, stripped t, stripped_cons hc t, hc⟩
  have htake : (b ++ stripped y).takeWhile inBase = b := by
    rw [List.takeWhile_append_of_pos fun c hc => (hchar c hc).1]
    rcases hmark with h | ⟨c, t, h, hc⟩
    · simp [h]
    · rw [h, List.takeWhile_cons_of_neg hc, List.append_nil]
  have hdrop : (b ++ stripped y).dropWhile inBase = stripped y := by
    rw [List.dropWhile_append_of_pos fun c hc => (hchar c hc).1]
    rcases hmark with h | ⟨c, t, h, hc⟩
    · simp [h]
    · rw [h, List.dropWhile_cons_of_neg hc]
  simp only [parseNormalized, hfront, hstripped, htake, hdrop, hb, if_true]

/-- What the parser gives is a normalized base and an encoded suffix. -/
theorem parseNormalized_ok {t : Text} {u : Url} (h : parseNormalized t = .ok u) :
    ∃ b r, isNormalized b ∧ u = ⟨b ++ encodeSuffix r⟩ ∧
      ∀ c ∈ r.getLast?, c0OrSpace c = false := by
  unfold parseNormalized at h
  extract_lets x at h
  split_ifs at h with hb
  cases h
  refine ⟨_, _, hb, rfl, ?_⟩
  intro c hc
  exact getLast?_stripped (getLast?_dropWhile hc)

theorem encodeSuffix_eq_nil_or (t : Text) :
    encodeSuffix t = [] ∨ ∃ c r, encodeSuffix t = c :: r ∧ ¬ inBase c := by
  unfold encodeSuffix
  cases (t.takeWhile (· ≠ '#')).tail? with
  | some q => exact .inr ⟨'?', _, rfl, by decide⟩
  | none =>
    cases (t.dropWhile (· ≠ '#')).tail? with
    | some f => exact .inr ⟨'#', _, rfl, by decide⟩
    | none => exact .inl rfl

/-- What is documented of the url parser holds of this one. -/
theorem normalizedUrls_readsUrls : normalizedUrls.ReadsUrls where
  parse_asStr := by
    intro t u hparse _
    obtain ⟨b, r, hb, rfl, hr⟩ := parseNormalized_ok hparse
    have h := parseNormalized_append hb (encodeSuffix_eq_nil_or r)
    rwa [stripped_encodeSuffix hr, encodeSuffix_encodeSuffix] at h
  parse_suffix := by
    rintro u t hparse _ hu ⟨c, r, rfl, hc⟩
    obtain ⟨b, r', hb, rfl, -⟩ := parseNormalized_ok hparse
    have hnil : encodeSuffix r' = [] := by
      rcases encodeSuffix_eq_nil_or r' with h | ⟨d, x, h, hd⟩
      · exact h
      · rw [Url.suffix, List.dropWhile_append_of_pos fun c hc => (isNormalized_char hb hc).1, h,
          List.dropWhile_cons_of_neg hd] at hu
        cases hu
    rw [hnil, List.append_nil]
    apply parseNormalized_append hb
    right
    refine ⟨c, r, rfl, ?_⟩
    rcases hc with rfl | rfl <;> decide

end Cargo.Core
