import Cargo.Util.Cfg.Grammar

/-!
# Printing platform configurations

An expression that has been read can be printed: its names are identifiers, and its strings
have no quotes. The text is then cut into the tokens of the expression again, with a space
after each comma and around each equals sign.

## Main definitions

* `Legible` — what expressions that have been read are made of

## Main results

* `legible_of_isExpr` — what is read is legible
* `scans_toStr` — the text of a legible expression
* `fromStr_spec` — reading is the grammar, never cuts a character, and undoes printing
-/

set_option autoImplicit false

namespace Cargo.Util.CfgExpr

/-! ### What has been read -/

/-- The text is an identifier. -/
def IsIdent (s : String) : Prop :=
  ∃ c w, s.toList = c :: w ∧ isIdentStart c = true ∧ ∀ d ∈ w, isIdentRest d = true

/-- The payload of the token can stand in a text. -/
def Token.Legible : Token → Prop
  | ident s => IsIdent s
  | string s => '"' ∉ s.toList
  | _ => True

/-- The names are identifiers that are not reserved, and the strings have no quotes. -/
inductive Legible : CfgExpr → Prop
  | not {e : CfgExpr} (h : Legible e) : Legible (.not e)
  | all {es : List CfgExpr} (h : ∀ e ∈ es, Legible e) : Legible (.all es)
  | any {es : List CfgExpr} (h : ∀ e ∈ es, Legible e) : Legible (.any es)
  | name {s : String} (hs : IsIdent s) (h : s ∉ reserved) : Legible (.value (.name s))
  | keyPair {k v : String} (hk : IsIdent k) (h : k ∉ reserved) (hv : '"' ∉ v.toList) :
    Legible (.value (.keyPair k v))

theorem Scans.legible {cs rest : List Char} {ts : List Token} (h : Scans cs ts rest) :
    ∀ t ∈ ts, t.Legible := by
  induction h with
  | done => exact fun t ht => absurd ht List.not_mem_nil
  | space _ ih => exact ih
  | @mark c _ _ t _ hc _ ih =>
    have ht : t.Legible := by
      unfold CfgExpr.mark at hc
      split at hc <;> cases hc <;> trivial
    exact List.forall_mem_cons.mpr ⟨ht, ih⟩
  | string hv _ ih =>
    refine List.forall_mem_cons.mpr ⟨?_, ih⟩
    rw [Token.Legible, String.toList_ofList]
    exact hv
  | ident hc hw _ _ ih =>
    refine List.forall_mem_cons.mpr ⟨?_, ih⟩
    exact ⟨_, _, String.toList_ofList, hc, hw⟩

mutual

theorem legible_of_isExpr {ts : List Token} {e : CfgExpr} (h : IsExpr ts e)
    (hts : ∀ t ∈ ts, t.Legible) : Legible e := by
  match h with
  | .all hes => exact .all (legible_of_isList hes fun t ht => hts t (by simp [ht]))
  | .any hes => exact .any (legible_of_isList hes fun t ht => hts t (by simp [ht]))
  | .not he => exact .not (legible_of_isExpr he fun t ht => hts t (by simp [ht]))
  | .name hs => exact .name (hts (.ident _) (by simp)) hs
  | .keyPair hk => exact .keyPair (hts (.ident _) (by simp)) hk (hts (.string _) (by simp))

theorem legible_of_isList {ts : List Token} {es : List CfgExpr} (h : IsList ts es)
    (hts : ∀ t ∈ ts, t.Legible) : ∀ e ∈ es, Legible e := by
  match h with
  | .nil => exact fun e he => absurd he List.not_mem_nil
  | .one he =>
    intro e he'
    rw [List.mem_singleton.mp he']
    exact legible_of_isExpr he hts
  | .cons he hes =>
    refine List.forall_mem_cons.mpr ⟨legible_of_isExpr he fun t ht => hts t (by simp [ht]), ?_⟩
    exact legible_of_isList hes fun t ht => hts t (by simp [ht])

end

/-! ### What is printed -/

/-- The text does not go on with an identifier. -/
def Ends (rest : List Char) : Prop := ∀ d ∈ rest.head?, isIdentRest d = false

theorem scans_ident {s : String} {rest : List Char} (hs : IsIdent s) (hrest : Ends rest) :
    Scans (s.toList ++ rest) [.ident s] rest := by
  obtain ⟨c, w, heq, hc, hw⟩ := hs
  have h := Scans.ident hc hw hrest (.done rest)
  rwa [← heq, String.ofList_toList, ← List.cons_append, ← heq] at h

theorem isIdent_reserved {s : String} (h : s ∈ reserved) : IsIdent s := by
  simp only [reserved, List.mem_cons, List.not_mem_nil, or_false] at h
  rcases h with rfl | rfl | rfl
  · exact ⟨'a', ['l', 'l'], by decide, by decide, List.all_eq_true.mp (by decide)⟩
  · exact ⟨'a', ['n', 'y'], by decide, by decide, List.all_eq_true.mp (by decide)⟩
  · exact ⟨'n', ['o', 't'], by decide, by decide, List.all_eq_true.mp (by decide)⟩

/-- A reserved word with its parentheses around what is scanned. -/
theorem scans_group {op : String} {inner rest : List Char} {ts : List Token}
    (hop : op ∈ reserved) (h : Scans (inner ++ ')' :: rest) ts (')' :: rest)) :
    Scans (op.toList ++ '(' :: (inner ++ ')' :: rest))
      (.ident op :: .leftParen :: (ts ++ [.rightParen])) rest := by
  have hends : Ends ('(' :: (inner ++ ')' :: rest)) := fun d hd => by cases hd; decide
  have hword := scans_ident (isIdent_reserved hop) hends
  exact hword.append (.mark rfl (h.append (.mark rfl (.done rest))))

/-- What is printed after the first expression of a list: nothing, or a comma and a list. -/
def IsRest (ts : List Token) (es : List CfgExpr) : Prop :=
  ts = [] ∧ es = [] ∨ ∃ us, ts = .comma :: us ∧ IsList us es

theorem IsExpr.isList {ts us : List Token} {e : CfgExpr} {es : List CfgExpr} (h : IsExpr ts e)
    (hus : IsRest us es) : IsList (ts ++ us) (e :: es) := by
  rcases hus with ⟨rfl, rfl⟩ | ⟨us, rfl, hus⟩
  · rw [List.append_nil]
    exact .one h
  · exact .cons h hus

theorem ends_commaRest (es : List CfgExpr) {rest : List Char} (hrest : Ends rest) :
    Ends ((commaRest es).toList ++ rest) := by
  cases es with
  | nil => exact hrest
  | cons e es =>
    intro d hd
    have hcomma : d = ',' := by simpa [commaRest] using hd.symm
    rw [hcomma]
    decide

mutual

/-- The text of a legible expression is scanned and derived again. -/
theorem scans_toStr (e : CfgExpr) (he : Legible e) (rest : List Char) (hrest : Ends rest) :
    ∃ ts, IsExpr ts e ∧ Scans ((toStr e).toList ++ rest) ts rest := by
  match e with
  | .not e =>
    cases he with
    | not he =>
      obtain ⟨ts, hts, h⟩ := scans_toStr e he (')' :: rest) (fun d hd => by cases hd; decide)
      refine ⟨_, .not hts, ?_⟩
      have hgroup := scans_group (show "not" ∈ reserved by decide) h
      simpa [toStr] using hgroup
  | .all es =>
    cases he with
    | all hes =>
      obtain ⟨ts, hts, h⟩ := scans_commaSep es hes (')' :: rest) (fun d hd => by cases hd; decide)
      refine ⟨_, .all hts, ?_⟩
      have hgroup := scans_group (show "all" ∈ reserved by decide) h
      simpa [toStr] using hgroup
  | .any es =>
    cases he with
    | any hes =>
      obtain ⟨ts, hts, h⟩ := scans_commaSep es hes (')' :: rest) (fun d hd => by cases hd; decide)
      refine ⟨_, .any hts, ?_⟩
      have hgroup := scans_group (show "any" ∈ reserved by decide) h
      simpa [toStr] using hgroup
  | .value (.name s) =>
    cases he with
    | name hs hreserved => exact ⟨_, .name hreserved, scans_ident hs hrest⟩
  | .value (.keyPair k v) =>
    cases he with
    | keyPair hk hreserved hv =>
      refine ⟨_, .keyPair hreserved, ?_⟩
      -- the key ends at the space before the sign
      have hends : Ends (' ' :: '=' :: ' ' :: '"' :: (v.toList ++ '"' :: rest)) :=
        fun d hd => by cases hd; decide
      have hkey := scans_ident hk hends
      have hstring := Scans.string hv (.done rest)
      rw [String.ofList_toList] at hstring
      have h := hkey.append (.space (.mark rfl (.space hstring)))
      simpa [toStr, Cfg.toStr] using h

theorem scans_commaSep (es : List CfgExpr) (hes : ∀ e ∈ es, Legible e) (rest : List Char)
    (hrest : Ends rest) :
    ∃ ts, IsList ts es ∧ Scans ((commaSep es).toList ++ rest) ts rest := by
  match es with
  | [] => exact ⟨[], .nil, .done rest⟩
  | e :: es =>
    obtain ⟨he, hes⟩ := List.forall_mem_cons.mp hes
    obtain ⟨us, hus, hscans⟩ := scans_commaRest es hes rest hrest
    obtain ⟨ts, hts, h⟩ :=
      scans_toStr e he ((commaRest es).toList ++ rest) (ends_commaRest es hrest)
    refine ⟨ts ++ us, hts.isList hus, ?_⟩
    simpa [commaSep] using h.append hscans

theorem scans_commaRest (es : List CfgExpr) (hes : ∀ e ∈ es, Legible e) (rest : List Char)
    (hrest : Ends rest) :
    ∃ us, IsRest us es ∧ Scans ((commaRest es).toList ++ rest) us rest := by
  match es with
  | [] => exact ⟨[], .inl ⟨rfl, rfl⟩, .done rest⟩
  | e :: es =>
    obtain ⟨he, hes⟩ := List.forall_mem_cons.mp hes
    obtain ⟨us, hus, hscans⟩ := scans_commaRest es hes rest hrest
    obtain ⟨ts, hts, h⟩ :=
      scans_toStr e he ((commaRest es).toList ++ rest) (ends_commaRest es hrest)
    refine ⟨.comma :: (ts ++ us), .inr ⟨_, rfl, hts.isList hus⟩, ?_⟩
    have hcomma := Scans.mark (c := ',') rfl (.space (h.append hscans))
    simpa [commaRest] using hcomma

end

theorem fromStr_toStr {e : CfgExpr} (he : Legible e) : fromStr e.toStr = .ok e := by
  obtain ⟨ts, hts, h⟩ := scans_toStr e he [] (fun d hd => by cases hd)
  rw [List.append_nil] at h
  exact fromStr_of_isExpr h hts

/-- A text is read as `e` exactly if its tokens are derived as `e`. Reading never cuts a
character and never runs out of stack, and what has been read is read from its text again. -/
theorem fromStr_spec (s : String) :
    (∀ e, fromStr s = .ok e ↔ ∃ ts, Lexes s.toList ts ∧ IsExpr ts e) ∧
      fromStr s ≠ .error .offBoundary ∧ fromStr s ≠ .error .depth ∧
      ∀ e, fromStr s = .ok e → fromStr e.toStr = .ok e := by
  refine ⟨fun e => fromStr_eq_ok_iff, ?_, ?_, ?_⟩
  · intro h
    rcases fromStr_cases s with ⟨e, ts, he, -⟩ | ⟨e, he, hplain, -⟩
    · rw [h] at he
      cases he
    · rw [h, Except.error.injEq] at he
      exact hplain he.symm
  · intro h
    rcases fromStr_cases s with ⟨e, ts, he, -⟩ | ⟨e, he, -, hplain⟩
    · rw [h] at he
      cases he
    · rw [h, Except.error.injEq] at he
      exact hplain he.symm
  · intro e h
    obtain ⟨ts, hlex, hts⟩ := fromStr_eq_ok_iff.mp h
    exact fromStr_toStr (legible_of_isExpr hts hlex.legible)

example : (fromStr "all(foo, any(a = \"b c\",), not( x ))").map toStr =
    .ok "all(foo, any(a = \"b c\"), not(x))" := by decide +kernel

end Cargo.Util.CfgExpr
