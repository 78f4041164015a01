import Cargo.Util.Cfg.Parse
import Mathlib.Tactic.Common

/-!
# The grammar of platform configurations

What the tokenizer and the parser accept, stated without them: a text is cut into words,
marks and string literals with spaces in between, and the tokens are derived in a grammar.
Both are judgments with the text that remains, so that one token after the other can be
taken off the front.

## Main definitions

* `Scans`, `Lexes` — cutting a text into tokens
* `IsExpr`, `IsList` — the grammar
* `restAt` — the parser's state in front of a text

## Main results

* `next_of_scans`, `next_cases` — the tokenizer against the lexical structure
* `expr_reads`, `expr_complete` — the parser against the grammar
* `fromStr_eq_ok_iff` — what is accepted
-/

set_option autoImplicit false

namespace Cargo.Util.CfgExpr

open Cargo.Math

/-! ### Lexical structure -/

/-- The token of a mark. -/
def mark : Char → Option Token
  | '(' => some .leftParen
  | ')' => some .rightParen
  | ',' => some .comma
  | '=' => some .equals
  | _ => none

/-- The first text is the tokens, with spaces before them and between them, and then the
second text. -/
inductive Scans : List Char → List Token → List Char → Prop
  | done (cs : List Char) : Scans cs [] cs
  | space {cs rest : List Char} {ts : List Token} (h : Scans cs ts rest) :
    Scans (' ' :: cs) ts rest
  | mark {c : Char} {cs rest : List Char} {t : Token} {ts : List Token} (hc : mark c = some t)
    (h : Scans cs ts rest) : Scans (c :: cs) (t :: ts) rest
  /-- A literal ends at the first quote. -/
  | string {v cs rest : List Char} {ts : List Token} (hv : '"' ∉ v) (h : Scans cs ts rest) :
    Scans ('"' :: (v ++ '"' :: cs)) (.string (String.ofList v) :: ts) rest
  /-- An identifier goes on as long as it can. -/
  | ident {c : Char} {w cs rest : List Char} {ts : List Token} (hc : isIdentStart c = true)
    (hw : ∀ d ∈ w, isIdentRest d = true) (hend : ∀ d ∈ cs.head?, isIdentRest d = false)
    (h : Scans cs ts rest) : Scans (c :: (w ++ cs)) (.ident (String.ofList (c :: w)) :: ts) rest

/-- The text is these tokens and spaces outside of them. -/
def Lexes (cs : List Char) (ts : List Token) : Prop := Scans cs ts []

/-! ### The grammar -/

/-- The words that start an expression of their own. -/
def reserved : List String := ["all", "any", "not"]

mutual

/-- The tokens are an expression. -/
inductive IsExpr : List Token → CfgExpr → Prop
  | all {ts : List Token} {es : List CfgExpr} (h : IsList ts es) :
    IsExpr (.ident "all" :: .leftParen :: (ts ++ [.rightParen])) (.all es)
  | any {ts : List Token} {es : List CfgExpr} (h : IsList ts es) :
    IsExpr (.ident "any" :: .leftParen :: (ts ++ [.rightParen])) (.any es)
  | not {ts : List Token} {e : CfgExpr} (h : IsExpr ts e) :
    IsExpr (.ident "not" :: .leftParen :: (ts ++ [.rightParen])) (.not e)
  | name {s : String} (h : s ∉ reserved) : IsExpr [.ident s] (.value (.name s))
  | keyPair {k v : String} (h : k ∉ reserved) :
    IsExpr [.ident k, .equals, .string v] (.value (.keyPair k v))

/-- The tokens are expressions with commas in between, and perhaps one after the last. -/
inductive IsList : List Token → List CfgExpr → Prop
  | nil : IsList [] []
  | one {ts : List Token} {e : CfgExpr} (h : IsExpr ts e) : IsList ts [e]
  | cons {ts ts' : List Token} {e : CfgExpr} {es : List CfgExpr} (h : IsExpr ts e)
    (hs : IsList ts' es) : IsList (ts ++ .comma :: ts') (e :: es)

end

namespace Scans

variable {cs cs' rest : List Char} {ts us : List Token}

theorem append (h : Scans cs ts cs') (h' : Scans cs' us rest) : Scans cs (ts ++ us) rest := by
  induction h with
  | done => exact h'
  | space _ ih => exact .space (ih h')
  | mark hc _ ih => exact .mark hc (ih h')
  | string hv _ ih => exact .string hv (ih h')
  | ident hc hw hend _ ih => exact .ident hc hw hend (ih h')

theorem suffix (h : Scans cs ts rest) : rest <:+ cs := by
  induction h with
  | done => exact List.suffix_rfl
  | space _ ih => exact ih.trans (List.suffix_cons _ _)
  | mark _ _ ih => exact ih.trans (List.suffix_cons _ _)
  | @string v cs _ _ _ _ ih => exact ih.trans ⟨'"' :: (v ++ ['"']), by simp⟩
  | @ident c w _ _ _ _ _ _ _ ih => exact ih.trans ⟨c :: w, by simp⟩

/-- Every token takes a character. -/
theorem length_le (h : Scans cs ts rest) : rest.length + ts.length ≤ cs.length := by
  induction h with
  | done => simp
  | space _ ih => simp only [List.length_cons]; omega
  | mark _ _ ih => simp only [List.length_cons]; omega
  | string _ _ ih => simp only [List.length_cons, List.length_append]; omega
  | ident _ _ _ _ ih => simp only [List.length_cons, List.length_append]; omega

end Scans

/-! ### The state in front of a text -/

/-- The state in which `cs` is left of the text `orig`. -/
def restAt (orig cs : List Char) : Rest := charIndices (byteLen orig - byteLen cs) cs

theorem byteLen_le_of_suffix {orig cs : List Char} (h : cs <:+ orig) :
    byteLen cs ≤ byteLen orig := by
  obtain ⟨pre, rfl⟩ := h
  rw [byteLen_append]
  omega

theorem restAt_cons {orig cs : List Char} {c : Char} (h : c :: cs <:+ orig) :
    restAt orig (c :: cs) = (byteLen orig - byteLen (c :: cs), c) :: restAt orig cs := by
  have hle := byteLen_le_of_suffix h
  have hpos : byteLen orig - byteLen (c :: cs) + c.utf8Size = byteLen orig - byteLen cs := by
    rw [byteLen_cons] at hle ⊢
    omega
  rw [restAt, charIndices_cons, hpos, restAt]

theorem restAt_append {orig w cs : List Char} (h : w ++ cs <:+ orig) (p : Char → Bool)
    (hw : ∀ d ∈ w, p d = true) (hend : ∀ d ∈ cs.head?, p d = false) :
    (restAt orig (w ++ cs)).dropWhile (fun e => p e.2) = restAt orig cs := by
  have hle := byteLen_le_of_suffix h
  have htake : (w ++ cs).takeWhile p = w := by
    rw [List.takeWhile_append_of_pos hw]
    cases cs with
    | nil => simp
    | cons d cs => simp [hend d rfl]
  have hdrop : (w ++ cs).dropWhile p = cs := by
    rw [List.dropWhile_append_of_pos hw]
    cases cs with
    | nil => rfl
    | cons d cs => rw [List.dropWhile_cons_of_neg (by simp [hend d rfl])]
  have hpos : byteLen orig - byteLen (w ++ cs) + byteLen w = byteLen orig - byteLen cs := by
    rw [byteLen_append] at hle ⊢
    omega
  rw [restAt, dropWhile_charIndices, htake, hdrop, hpos, restAt]

/-- The slice between two states is what has been read. -/
theorem slice_restAt {orig mid cs : List Char} (h : mid ++ cs <:+ orig) :
    slice orig (byteLen orig - byteLen (mid ++ cs)) (byteLen orig - byteLen cs) = some mid := by
  obtain ⟨pre, rfl⟩ := h
  have hstart : byteLen (pre ++ (mid ++ cs)) - byteLen (mid ++ cs) = byteLen pre := by
    rw [byteLen_append]
    omega
  have hstop : byteLen (pre ++ (mid ++ cs)) - byteLen cs = byteLen pre + byteLen mid := by
    simp only [byteLen_append]
    omega
  rw [hstart, hstop, ← List.append_assoc, slice_append]

theorem sliceFrom_restAt {orig cs : List Char} (h : cs <:+ orig) :
    sliceFrom orig (byteLen orig - byteLen cs) = some cs := by
  obtain ⟨pre, rfl⟩ := h
  have hstart : byteLen (pre ++ cs) - byteLen cs = byteLen pre := by
    rw [byteLen_append]
    omega
  rw [hstart, sliceFrom_append]

/-! ### The tokenizer -/

theorem mark_ne_space {c : Char} {t : Token} (h : mark c = some t) : c ≠ ' ' := by
  rintro rfl
  cases h

theorem isIdentStart_ne {c : Char} (h : isIdentStart c = true) :
    mark c = none ∧ c ≠ '"' ∧ c ≠ ' ' := by
  refine ⟨?_, ?_, ?_⟩
  · unfold mark
    split
    all_goals first | rfl | (exact absurd h (by decide))
  · rintro rfl
    exact absurd h (by decide)
  · rintro rfl
    exact absurd h (by decide)

theorem token_mark {orig : List Char} {start : ℕ} {c : Char} {s : Rest} {t : Token}
    (h : mark c = some t) : Tokenizer.token orig start c s = (.ok t, s) := by
  unfold mark at h
  unfold Tokenizer.token
  split at h <;> cases h <;> rfl

theorem token_other {orig : List Char} {start : ℕ} {c : Char} {s : Rest} (hc : mark c = none)
    (hquote : c ≠ '"') :
    Tokenizer.token orig start c s =
      if isIdentStart c then
        match s.dropWhile (fun e => isIdentRest e.2) with
        | (stop, after) :: rest =>
          (Tokenizer.ofSlice .ident (slice orig start stop), (stop, after) :: rest)
        | [] => (Tokenizer.ofSlice .ident (sliceFrom orig start), [])
      else (.error (.unexpectedCharacter c), s) := by
  unfold mark at hc
  unfold Tokenizer.token
  split at hc <;> cases hc
  split <;> first | contradiction | rfl

theorem token_string {orig v cs : List Char} (hv : '"' ∉ v)
    (h : '"' :: (v ++ '"' :: cs) <:+ orig) :
    Tokenizer.token orig (byteLen orig - byteLen ('"' :: (v ++ '"' :: cs))) '"'
        (restAt orig (v ++ '"' :: cs)) =
      (.ok (.string (String.ofList v)), restAt orig cs) := by
  have hrest : v ++ '"' :: cs <:+ orig := (List.suffix_cons _ _).trans h
  have hclose : '"' :: cs <:+ orig := (List.suffix_append _ _).trans hrest
  have hdrop := restAt_append hrest (fun d => decide (d ≠ '"'))
    (fun d hd => by simpa using fun heq : d = '"' => hv (heq ▸ hd)) (by simp)
  have hle := byteLen_le_of_suffix h
  have hsize : ('"' : Char).utf8Size = 1 := by decide
  have hpos : byteLen orig - byteLen ('"' :: (v ++ '"' :: cs)) + 1 =
      byteLen orig - byteLen (v ++ '"' :: cs) := by
    rw [byteLen_cons, hsize] at hle ⊢
    omega
  rw [restAt_cons hclose] at hdrop
  simp only [Tokenizer.token, hdrop, hpos]
  rw [slice_restAt hrest]
  rfl

theorem token_ident {orig w cs : List Char} {c : Char} (hc : isIdentStart c = true)
    (hw : ∀ d ∈ w, isIdentRest d = true) (hend : ∀ d ∈ cs.head?, isIdentRest d = false)
    (h : c :: (w ++ cs) <:+ orig) :
    Tokenizer.token orig (byteLen orig - byteLen (c :: (w ++ cs))) c (restAt orig (w ++ cs)) =
      (.ok (.ident (String.ofList (c :: w))), restAt orig cs) := by
  have hrest : w ++ cs <:+ orig := (List.suffix_cons _ _).trans h
  have hdrop := restAt_append hrest isIdentRest hw hend
  obtain ⟨hmark, hquote, -⟩ := isIdentStart_ne hc
  rw [token_other hmark hquote, if_pos hc]
  cases cs with
  | nil =>
    -- the identifier ends with the text
    rw [hdrop]
    simp only [restAt, charIndices_nil]
    rw [sliceFrom_restAt h, List.append_nil]
    rfl
  | cons d cs =>
    have hafter : d :: cs <:+ orig := (List.suffix_append _ _).trans hrest
    rw [hdrop, restAt_cons hafter]
    simp only
    rw [← List.cons_append, slice_restAt h]
    rfl

theorem next_space {orig cs : List Char} (h : ' ' :: cs <:+ orig) :
    Tokenizer.next orig (restAt orig (' ' :: cs)) = Tokenizer.next orig (restAt orig cs) := by
  rw [restAt_cons h, Tokenizer.next, if_pos rfl]

theorem next_token {orig cs : List Char} {c : Char} (h : c :: cs <:+ orig) (hc : c ≠ ' ')
    {item : Except ParseError Token} {s : Rest}
    (htoken : Tokenizer.token orig (byteLen orig - byteLen (c :: cs)) c (restAt orig cs) =
      (item, s)) :
    Tokenizer.next orig (restAt orig (c :: cs)) = (some item, s) := by
  rw [restAt_cons h, Tokenizer.next, if_neg hc, htoken]

/-- The token that a text starts with is read. -/
theorem next_of_scans {orig cs rest : List Char} {t : Token} {ts : List Token}
    (h : Scans cs (t :: ts) rest) (horig : cs <:+ orig) :
    ∃ cs', Tokenizer.next orig (restAt orig cs) = (some (.ok t), restAt orig cs') ∧
      cs' <:+ orig ∧ Scans cs' ts rest := by
  generalize hus : t :: ts = us at h
  induction h with
  | done => cases hus
  | @space cs rest us h ih =>
    obtain ⟨cs', hnext, hsuffix, hscans⟩ := ih ((List.suffix_cons _ _).trans horig) hus
    exact ⟨cs', by rw [next_space horig, hnext], hsuffix, hscans⟩
  | mark hc h ih =>
    cases hus
    exact ⟨_, next_token horig (mark_ne_space hc) (token_mark hc),
      (List.suffix_cons _ _).trans horig, h⟩
  | @string v cs _ _ hv h ih =>
    cases hus
    have hsuffix : cs <:+ '"' :: (v ++ '"' :: cs) := ⟨'"' :: (v ++ ['"']), by simp⟩
    exact ⟨_, next_token horig (by decide) (token_string hv horig), hsuffix.trans horig, h⟩
  | @ident c w cs _ _ hc hw hend h ih =>
    cases hus
    have hsuffix : cs <:+ c :: (w ++ cs) := ⟨c :: w, by simp⟩
    exact ⟨_, next_token horig (isIdentStart_ne hc).2.2 (token_ident hc hw hend horig),
      hsuffix.trans horig, h⟩

theorem next_of_scans_nil {orig cs : List Char} (h : Scans cs [] []) (horig : cs <:+ orig) :
    Tokenizer.next orig (restAt orig cs) = (none, []) := by
  generalize hts : ([] : List Token) = ts at h
  generalize hrest : ([] : List Char) = rest at h
  induction h with
  | done =>
    subst hrest
    rfl
  | space _ ih =>
    rw [next_space horig]
    exact ih ((List.suffix_cons _ _).trans horig) hts hrest
  | mark => cases hts
  | string => cases hts
  | ident => cases hts

/-- An error that is neither of a slice nor of the depth. -/
def ParseError.Plain (e : ParseError) : Prop := e ≠ .offBoundary ∧ e ≠ .depth

/-- What the tokenizer finds in front of a text: its end, a token, or an error that is not
that of a slice. -/
theorem next_cases {orig cs : List Char} (horig : cs <:+ orig) :
    (Tokenizer.next orig (restAt orig cs) = (none, []) ∧ Scans cs [] []) ∨
    (∃ t cs', Tokenizer.next orig (restAt orig cs) = (some (.ok t), restAt orig cs') ∧
      Scans cs [t] cs') ∨
    ∃ e s, Tokenizer.next orig (restAt orig cs) = (some (.error e), s) ∧ e.Plain := by
  induction cs with
  | nil => exact .inl ⟨rfl, .done []⟩
  | cons c cs ih =>
    have htail : cs <:+ orig := (List.suffix_cons _ _).trans horig
    -- only spaces are skipped; every other character starts a token or is an error
    by_cases hspace : c = ' '
    · subst hspace
      rw [next_space horig]
      rcases ih htail with ⟨hnext, h⟩ | ⟨t, cs', hnext, h⟩ | ⟨e, s, hnext, he⟩
      · exact .inl ⟨hnext, .space h⟩
      · exact .inr (.inl ⟨t, cs', hnext, .space h⟩)
      · exact .inr (.inr ⟨e, s, hnext, he⟩)
    by_cases hquote : c = '"'
    · subst hquote
      by_cases hclosed : '"' ∈ cs
      · -- the literal ends at the first quote that follows
        obtain ⟨v, cs', rfl, hv⟩ := List.eq_append_cons_of_mem hclosed
        exact .inr (.inl ⟨_, cs', next_token horig hspace (token_string hv horig),
          .string hv (.done cs')⟩)
      -- without another quote the rest of the text is used up
      · have hall : ∀ e ∈ restAt orig cs, decide (e.2 ≠ '"') = true := by
          intro e he
          have hmem := mem_of_mem_charIndices he
          simpa using fun heq : e.2 = '"' => hclosed (heq ▸ hmem)
        refine .inr (.inr ⟨.unterminatedString, [], next_token horig hspace ?_, ?_⟩)
        · simp only [Tokenizer.token, List.dropWhile_eq_nil_iff.mpr hall]
        · exact ⟨by simp, by simp⟩
    cases hmark : mark c with
    | some t =>
      exact .inr (.inl ⟨t, cs, next_token horig hspace (token_mark hmark), .mark hmark (.done cs)⟩)
    | none =>
      by_cases hident : isIdentStart c = true
      · -- the longest identifier, and what comes after it
        have hsplit := List.takeWhile_append_dropWhile (p := isIdentRest) (l := cs)
        have hw : ∀ d ∈ cs.takeWhile isIdentRest, isIdentRest d = true :=
          fun d hd => List.mem_takeWhile_imp hd
        have hend : ∀ d ∈ (cs.dropWhile isIdentRest).head?, isIdentRest d = false := by
          intro d hd
          have hhead := List.head?_dropWhile_not isIdentRest cs
          rw [Option.mem_def.mp hd] at hhead
          simpa using hhead
        rw [← hsplit] at horig ⊢
        exact .inr (.inl ⟨_, _, next_token horig hspace (token_ident hident hw hend horig),
          .ident hident hw hend (.done _)⟩)
      · refine .inr (.inr ⟨.unexpectedCharacter c, restAt orig cs,
          next_token horig hspace ?_, ?_⟩)
        · rw [token_other hmark hquote, if_neg hident]
        · exact ⟨by simp, by simp⟩

/-! ### The parser: what is read is derived -/

section Parser

open CfgExpr.Parser

variable {orig cs rest : List Char} {ts us : List Token}

/-- A value is read from tokens for which `P` holds, or there is a plain error. -/
def Reads {α : Type} (orig cs : List Char) (P : List Token → α → Prop)
    (x : Except ParseError (α × Rest)) : Prop :=
  (∃ a ts cs', x = .ok (a, restAt orig cs') ∧ Scans cs ts cs' ∧ P ts a) ∨
    ∃ e, x = .error e ∧ e.Plain

theorem reads_error {α : Type} {P : List Token → α → Prop} {e : ParseError} (he : e.Plain) :
    Reads orig cs P (.error e) := .inr ⟨e, rfl, he⟩

theorem try_cases (token : Token) (horig : cs <:+ orig) :
    (∃ cs', try' orig token (restAt orig cs) = (true, restAt orig cs') ∧ Scans cs [token] cs') ∨
      try' orig token (restAt orig cs) = (false, restAt orig cs) := by
  unfold try'
  rcases next_cases horig with ⟨hnext, -⟩ | ⟨t, cs', hnext, h⟩ | ⟨e, s, hnext, -⟩
  · exact .inr (by simp only [hnext])
  · by_cases ht : token = t
    · subst ht
      exact .inl ⟨cs', by simp only [hnext, if_true], h⟩
    · exact .inr (by simp only [hnext, if_neg ht])
  · exact .inr (by simp only [hnext])

theorem eat_cases (token : Token) (horig : cs <:+ orig) :
    (∃ cs', eat orig token (restAt orig cs) = .ok (restAt orig cs') ∧ Scans cs [token] cs') ∨
      ∃ e, eat orig token (restAt orig cs) = .error e ∧ e.Plain := by
  unfold eat
  rcases next_cases horig with ⟨hnext, -⟩ | ⟨t, cs', hnext, h⟩ | ⟨e, s, hnext, he⟩
  · exact .inr ⟨.exprEnded token, by simp only [hnext], nofun, nofun⟩
  · by_cases ht : token = t
    · subst ht
      exact .inl ⟨cs', by simp only [hnext, if_true], h⟩
    · exact .inr ⟨.expectedToken token t, by simp only [hnext, if_neg ht], nofun, nofun⟩
  · exact .inr ⟨e, by simp only [hnext], he⟩

/-- A name that is not reserved, or a key with its value. -/
theorem cfg_reads {s : String} {cs' : List Char} (hs : s ∉ reserved)
    (hnext : Tokenizer.next orig (restAt orig cs) = (some (.ok (.ident s)), restAt orig cs'))
    (hscans : Scans cs [.ident s] cs') (horig : cs <:+ orig) :
    Reads orig cs (fun ts c => IsExpr ts (.value c)) (cfg orig (restAt orig cs)) := by
  have horig' : cs' <:+ orig := hscans.suffix.trans horig
  unfold cfg
  simp only [hnext]
  rcases try_cases .equals horig' with ⟨cs₂, htry, h⟩ | htry
  · simp only [htry]
    have horig₂ : cs₂ <:+ orig := h.suffix.trans horig'
    rcases next_cases horig₂ with ⟨hnext₂, -⟩ | ⟨t, cs₃, hnext₂, h₂⟩ | ⟨e, r, hnext₂, he⟩
    · simp only [hnext₂]
      exact reads_error ⟨nofun, nofun⟩
    · simp only [hnext₂]
      cases t with
      | string v => exact .inl ⟨.keyPair s v, _, cs₃, rfl, (hscans.append h).append h₂, .keyPair hs⟩
      | leftParen | rightParen | ident | comma | equals => exact reads_error ⟨nofun, nofun⟩
    · simp only [hnext₂]
      exact reads_error he
  · simp only [htry]
    exact .inl ⟨.name s, _, cs', rfl, hscans, .name hs⟩

/-- What a loop reads is a list and the parenthesis after it. -/
def IsClosedList (ts : List Token) (es : List CfgExpr) : Prop :=
  ∃ us, ts = us ++ [.rightParen] ∧ IsList us es

theorem isExpr_list {op : String} {us : List Token} {es : List CfgExpr}
    (hop : op = "all" ∨ op = "any") (hus : IsList us es) :
    IsExpr (.ident op :: .leftParen :: (us ++ [.rightParen]))
      (if op = "all" then .all es else .any es) := by
  rcases hop with rfl | rfl
  · exact .all hus
  · exact .any hus

variable {fuel : ℕ}

/-- `all` and `any`, when the loop reads lists. -/
theorem list_reads {op : String} {cs₁ : List Char} (hop : op = "all" ∨ op = "any")
    (h₁ : Scans cs [.ident op] cs₁) (horig : cs <:+ orig)
    (ih : ∀ cs₂, cs₂ <:+ orig → cs₂.length < cs.length →
      Reads orig cs₂ IsClosedList (exprs orig fuel (restAt orig cs₂))) :
    Reads orig cs IsExpr (do
      let t ← eat orig .leftParen (restAt orig cs₁)
      let (es, t) ← exprs orig fuel t
      .ok (if op = "all" then .all es else .any es, t)) := by
  have horig₁ : cs₁ <:+ orig := h₁.suffix.trans horig
  rcases eat_cases .leftParen horig₁ with ⟨cs₂, heat, h₂⟩ | ⟨e, heat, he⟩
  · have hlen := (h₁.append h₂).length_le
    simp only [List.length_append, List.length_cons, List.length_nil] at hlen
    rcases ih cs₂ (h₂.suffix.trans horig₁) (by omega) with
      ⟨es, _, cs₃, hes, h₃, us, rfl, hus⟩ | ⟨e, hes, he⟩
    · simp only [heat, hes, bind, Except.bind]
      exact .inl ⟨_, _, cs₃, rfl, h₁.append (h₂.append h₃), isExpr_list hop hus⟩
    · simp only [heat, hes, bind, Except.bind]
      exact reads_error he
  · simp only [heat, bind, Except.bind]
    exact reads_error he

/-- `not`, when expressions are read. -/
theorem not_reads {cs₁ : List Char} (h₁ : Scans cs [.ident "not"] cs₁) (horig : cs <:+ orig)
    (ih : ∀ cs₂, cs₂ <:+ orig → cs₂.length < cs.length →
      Reads orig cs₂ IsExpr (expr orig fuel (restAt orig cs₂))) :
    Reads orig cs IsExpr (do
      let t ← eat orig .leftParen (restAt orig cs₁)
      let (e, t) ← expr orig fuel t
      let t ← eat orig .rightParen t
      .ok (.not e, t)) := by
  have horig₁ : cs₁ <:+ orig := h₁.suffix.trans horig
  rcases eat_cases .leftParen horig₁ with ⟨cs₂, heat, h₂⟩ | ⟨e, heat, he⟩
  · have hlen := (h₁.append h₂).length_le
    simp only [List.length_append, List.length_cons, List.length_nil] at hlen
    have horig₂ : cs₂ <:+ orig := h₂.suffix.trans horig₁
    rcases ih cs₂ horig₂ (by omega) with ⟨e, ts, cs₃, hexpr, h₃, hts⟩ | ⟨e, hexpr, he⟩
    · rcases eat_cases .rightParen (h₃.suffix.trans horig₂) with
        ⟨cs₄, hclose, h₄⟩ | ⟨e', hclose, he⟩
      · simp only [heat, hexpr, hclose, bind, Except.bind]
        exact .inl ⟨.not e, _, cs₄, rfl, h₁.append (h₂.append (h₃.append h₄)), .not hts⟩
      · simp only [heat, hexpr, hclose, bind, Except.bind]
        exact reads_error he
    · simp only [heat, hexpr, bind, Except.bind]
      exact reads_error he
  · simp only [heat, bind, Except.bind]
    exact reads_error he

/-- With enough fuel an expression is read, or there is a plain error; so is a list. -/
theorem expr_reads (orig : List Char) (fuel : ℕ) :
    (∀ cs, cs <:+ orig → 2 * cs.length + 1 ≤ fuel →
      Reads orig cs IsExpr (expr orig fuel (restAt orig cs))) ∧
    ∀ cs, cs <:+ orig → 2 * cs.length + 2 ≤ fuel →
      Reads orig cs IsClosedList (exprs orig fuel (restAt orig cs)) := by
  induction fuel with
  | zero => exact ⟨fun _ _ h => absurd h (by omega), fun _ _ h => absurd h (by omega)⟩
  | succ fuel ih =>
    obtain ⟨ihExpr, ihExprs⟩ := ih
    constructor
    · intro cs horig hfuel
      rw [expr]
      rcases next_cases horig with ⟨hnext, -⟩ | ⟨t, cs₁, hnext, h₁⟩ | ⟨e, s, hnext, he⟩
      · simp only [hnext]
        exact reads_error ⟨nofun, nofun⟩
      · cases t with
        | leftParen | rightParen | string | comma | equals =>
          -- such a token starts neither an expression nor a name
          simp only [hnext, cfg, bind, Except.bind]
          exact reads_error ⟨nofun, nofun⟩
        | ident op =>
          simp only [hnext]
          by_cases hlist : op = "all" ∨ op = "any"
          · rw [if_pos hlist]
            exact list_reads hlist h₁ horig fun cs₂ h₂ hlen => ihExprs cs₂ h₂ (by omega)
          rw [if_neg hlist]
          by_cases hnot : op = "not"
          · rw [if_pos hnot]
            subst hnot
            exact not_reads h₁ horig fun cs₂ h₂ hlen => ihExpr cs₂ h₂ (by omega)
          rw [if_neg hnot]
          have hname : op ∉ reserved := by
            simp only [reserved, List.mem_cons, List.not_mem_nil, or_false]
            tauto
          rcases cfg_reads hname hnext h₁ horig with ⟨c, ts, cs₂, hcfg, h₂, hts⟩ | ⟨e, hcfg, he⟩
          · simp only [hcfg, bind, Except.bind]
            exact .inl ⟨_, ts, cs₂, rfl, h₂, hts⟩
          · simp only [hcfg, bind, Except.bind]
            exact reads_error he
      · simp only [hnext]
        exact reads_error he
    · intro cs horig hfuel
      rw [exprs]
      rcases try_cases .rightParen horig with ⟨cs₁, htry, h₁⟩ | htry
      · simp only [htry]
        exact .inl ⟨[], _, cs₁, rfl, h₁, [], rfl, .nil⟩
      simp only [htry]
      rcases ihExpr cs horig (by omega) with ⟨e, ts, cs₁, hexpr, h₁, hts⟩ | ⟨e, hexpr, he⟩
      · have horig₁ : cs₁ <:+ orig := h₁.suffix.trans horig
        simp only [hexpr, bind, Except.bind]
        rcases try_cases .comma horig₁ with ⟨cs₂, hcomma, h₂⟩ | hcomma
        · simp only [hcomma]
          have hlen := (h₁.append h₂).length_le
          simp only [List.length_append, List.length_cons, List.length_nil] at hlen
          rcases ihExprs cs₂ (h₂.suffix.trans horig₁) (by omega) with
            ⟨es, _, cs₃, hes, h₃, us, rfl, hus⟩ | ⟨e', hes, he⟩
          · simp only [hes]
            exact .inl ⟨e :: es, _, cs₃, rfl, h₁.append (h₂.append h₃), ts ++ .comma :: us,
              by simp, .cons hts hus⟩
          · simp only [hes]
            exact reads_error he
        · simp only [hcomma]
          rcases eat_cases .rightParen horig₁ with ⟨cs₂, heat, h₂⟩ | ⟨e', heat, he⟩
          · simp only [heat]
            exact .inl ⟨[e], _, cs₂, rfl, h₁.append h₂, ts, rfl, .one hts⟩
          · simp only [heat]
            exact reads_error he
      · simp only [hexpr, bind, Except.bind]
        exact reads_error he

/-! ### The parser: what is derived is read -/

theorem try_of_lexes {token : Token} (h : Lexes cs (token :: ts)) (horig : cs <:+ orig) :
    ∃ cs', try' orig token (restAt orig cs) = (true, restAt orig cs') ∧ cs' <:+ orig ∧
      Lexes cs' ts := by
  obtain ⟨cs', hnext, hsuffix, h'⟩ := next_of_scans h horig
  exact ⟨cs', by simp only [try', hnext, if_true], hsuffix, h'⟩

theorem try_other (token : Token) (h : Lexes cs ts) (hother : ts.head? ≠ some token)
    (horig : cs <:+ orig) :
    try' orig token (restAt orig cs) = (false, restAt orig cs) := by
  cases ts with
  | nil => simp only [try', next_of_scans_nil h horig]
  | cons t ts =>
    obtain ⟨cs', hnext, -, -⟩ := next_of_scans h horig
    have hne : token ≠ t := fun heq => hother (by rw [heq]; rfl)
    simp only [try', hnext, if_neg hne]

theorem eat_of_lexes {token : Token} (h : Lexes cs (token :: ts)) (horig : cs <:+ orig) :
    ∃ cs', eat orig token (restAt orig cs) = .ok (restAt orig cs') ∧ cs' <:+ orig ∧
      Lexes cs' ts := by
  obtain ⟨cs', hnext, hsuffix, h'⟩ := next_of_scans h horig
  exact ⟨cs', by simp only [eat, hnext, if_true], hsuffix, h'⟩

/-- An expression starts with a word. -/
theorem IsExpr.head {e : CfgExpr} (h : IsExpr ts e) : ∃ s us, ts = .ident s :: us := by
  cases h <;> exact ⟨_, _, rfl⟩

theorem cfg_of_name {s : String} (h : Lexes cs (.ident s :: us)) (horig : cs <:+ orig)
    (hus : us.head? ≠ some .equals) :
    ∃ cs', cfg orig (restAt orig cs) = .ok (.name s, restAt orig cs') ∧ cs' <:+ orig ∧
      Lexes cs' us := by
  obtain ⟨cs₁, hnext, horig₁, h₁⟩ := next_of_scans h horig
  exact ⟨cs₁, by simp only [cfg, hnext, try_other .equals h₁ hus horig₁], horig₁, h₁⟩

theorem cfg_of_keyPair {k v : String} (h : Lexes cs (.ident k :: .equals :: .string v :: us))
    (horig : cs <:+ orig) :
    ∃ cs', cfg orig (restAt orig cs) = .ok (.keyPair k v, restAt orig cs') ∧ cs' <:+ orig ∧
      Lexes cs' us := by
  obtain ⟨cs₁, hnext, horig₁, h₁⟩ := next_of_scans h horig
  obtain ⟨cs₂, htry, horig₂, h₂⟩ := try_of_lexes h₁ horig₁
  obtain ⟨cs₃, hnext₃, horig₃, h₃⟩ := next_of_scans h₂ horig₂
  exact ⟨cs₃, by simp only [cfg, hnext, htry, hnext₃], horig₃, h₃⟩

/-- A word that is not reserved starts a name or a key. -/
theorem expr_of_cfg {s : String} {c : Cfg} {cs' : List Char} {fuel : ℕ} (hs : s ∉ reserved)
    (h : Lexes cs (.ident s :: us)) (horig : cs <:+ orig)
    (hcfg : cfg orig (restAt orig cs) = .ok (c, restAt orig cs')) :
    expr orig (fuel + 1) (restAt orig cs) = .ok (.value c, restAt orig cs') := by
  obtain ⟨cs₁, hnext, -, -⟩ := next_of_scans h horig
  simp only [reserved, List.mem_cons, List.not_mem_nil, or_false, not_or] at hs
  rw [expr]
  simp only [hnext, hs.1, hs.2.1, hs.2.2, or_self, if_false, hcfg, bind, Except.bind]

mutual

/-- With enough fuel the parser reads what is derived. -/
theorem expr_complete {ts : List Token} {e : CfgExpr} (h : IsExpr ts e) {cs : List Char}
    {us : List Token} {fuel : ℕ} (horig : cs <:+ orig) (hlex : Lexes cs (ts ++ us))
    (hus : us.head? ≠ some .equals) (hfuel : ts.length ≤ fuel) :
    ∃ cs', expr orig fuel (restAt orig cs) = .ok (e, restAt orig cs') ∧ cs' <:+ orig ∧
      Lexes cs' us := by
  obtain ⟨fuel, rfl⟩ : ∃ n, fuel = n + 1 := by
    obtain ⟨s, rest, rfl⟩ := h.head
    exact ⟨fuel - 1, by rw [List.length_cons] at hfuel; omega⟩
  match h with
  | .all hes =>
    simp only [List.cons_append, List.append_assoc, List.nil_append] at hlex
    simp only [List.length_cons, List.length_append] at hfuel
    obtain ⟨cs₁, hnext, horig₁, h₁⟩ := next_of_scans hlex horig
    obtain ⟨cs₂, heat, horig₂, h₂⟩ := eat_of_lexes h₁ horig₁
    obtain ⟨cs₃, hexprs, horig₃, h₃⟩ := list_complete hes horig₂ h₂ (show _ ≤ fuel by omega)
    refine ⟨cs₃, ?_, horig₃, h₃⟩
    rw [expr]
    simp only [hnext, true_or, if_true, heat, hexprs, bind, Except.bind]
  | .any hes =>
    simp only [List.cons_append, List.append_assoc, List.nil_append] at hlex
    simp only [List.length_cons, List.length_append] at hfuel
    obtain ⟨cs₁, hnext, horig₁, h₁⟩ := next_of_scans hlex horig
    obtain ⟨cs₂, heat, horig₂, h₂⟩ := eat_of_lexes h₁ horig₁
    obtain ⟨cs₃, hexprs, horig₃, h₃⟩ := list_complete hes horig₂ h₂ (show _ ≤ fuel by omega)
    refine ⟨cs₃, ?_, horig₃, h₃⟩
    -- the same loop as for `all`
    have hne : ("any" : String) ≠ "all" := by decide
    rw [expr]
    simp only [hnext, or_true, if_true, if_neg hne, heat, hexprs, bind, Except.bind]
  | .not he =>
    simp only [List.cons_append, List.append_assoc, List.nil_append] at hlex
    simp only [List.length_cons, List.length_append] at hfuel
    obtain ⟨cs₁, hnext, horig₁, h₁⟩ := next_of_scans hlex horig
    obtain ⟨cs₂, heat, horig₂, h₂⟩ := eat_of_lexes h₁ horig₁
    obtain ⟨cs₃, hexpr, horig₃, h₃⟩ :=
      expr_complete he horig₂ h₂ (by simp) (show _ ≤ fuel by omega)
    obtain ⟨cs₄, hclose, horig₄, h₄⟩ := eat_of_lexes h₃ horig₃
    refine ⟨cs₄, ?_, horig₄, h₄⟩
    have hlist : ¬(("not" : String) = "all" ∨ ("not" : String) = "any") := by decide
    rw [expr]
    simp only [hnext, if_neg hlist, if_true, heat, hexpr, hclose, bind, Except.bind]
  | .name hs =>
    obtain ⟨cs₁, hcfg, horig₁, h₁⟩ := cfg_of_name hlex horig hus
    exact ⟨cs₁, expr_of_cfg hs hlex horig hcfg, horig₁, h₁⟩
  | .keyPair hk =>
    obtain ⟨cs₁, hcfg, horig₁, h₁⟩ := cfg_of_keyPair hlex horig
    exact ⟨cs₁, expr_of_cfg hk hlex horig hcfg, horig₁, h₁⟩

/-- The loop reads what is derived, up to the parenthesis. -/
theorem list_complete {ts : List Token} {es : List CfgExpr} (h : IsList ts es) {cs : List Char}
    {us : List Token} {fuel : ℕ} (horig : cs <:+ orig)
    (hlex : Lexes cs (ts ++ .rightParen :: us)) (hfuel : ts.length + 1 ≤ fuel) :
    ∃ cs', exprs orig fuel (restAt orig cs) = .ok (es, restAt orig cs') ∧ cs' <:+ orig ∧
      Lexes cs' us := by
  obtain ⟨fuel, rfl⟩ : ∃ n, fuel = n + 1 := ⟨fuel - 1, by omega⟩
  match h with
  | .nil =>
    obtain ⟨cs₁, htry, horig₁, h₁⟩ := try_of_lexes hlex horig
    exact ⟨cs₁, by rw [exprs]; simp only [htry], horig₁, h₁⟩
  | .one he =>
    have hopen := try_other .rightParen hlex
      (by obtain ⟨s, rest, rfl⟩ := he.head; simp) horig
    obtain ⟨cs₁, hexpr, horig₁, h₁⟩ :=
      expr_complete he horig hlex (by simp) (show _ ≤ fuel by omega)
    have hcomma := try_other .comma h₁ (by simp) horig₁
    obtain ⟨cs₂, heat, horig₂, h₂⟩ := eat_of_lexes h₁ horig₁
    refine ⟨cs₂, ?_, horig₂, h₂⟩
    rw [exprs]
    simp only [hopen, hexpr, hcomma, heat, bind, Except.bind]
  | .cons he hes =>
    rw [List.append_assoc, List.cons_append] at hlex
    simp only [List.length_append, List.length_cons] at hfuel
    have hopen := try_other .rightParen hlex
      (by obtain ⟨s, rest, rfl⟩ := he.head; simp) horig
    obtain ⟨cs₁, hexpr, horig₁, h₁⟩ :=
      expr_complete he horig hlex (by simp) (show _ ≤ fuel by omega)
    obtain ⟨cs₂, hcomma, horig₂, h₂⟩ := try_of_lexes h₁ horig₁
    obtain ⟨cs₃, hexprs, horig₃, h₃⟩ := list_complete hes horig₂ h₂ (show _ ≤ fuel by omega)
    refine ⟨cs₃, ?_, horig₃, h₃⟩
    rw [exprs]
    simp only [hopen, hexpr, hcomma, hexprs, bind, Except.bind]

end

end Parser

/-! ### Reading a whole text -/

theorem restAt_self (cs : List Char) : restAt cs cs = charIndices 0 cs := by
  rw [restAt, Nat.sub_self]

/-- Reading gives the expression of a derivation, or fails with an error that is not that of a
slice or of the depth. -/
theorem fromStr_cases (s : String) :
    (∃ e ts, fromStr s = .ok e ∧ Lexes s.toList ts ∧ IsExpr ts e) ∨
      ∃ e, fromStr s = .error e ∧ e.Plain := by
  have hreads := (expr_reads s.toList (Parser.fuel (charIndices 0 s.toList))).1 s.toList
    List.suffix_rfl (by rw [Parser.fuel, length_charIndices])
  rw [restAt_self] at hreads
  unfold fromStr
  rcases hreads with ⟨e, ts, cs, hexpr, hscans, hts⟩ | ⟨e, hexpr, he⟩
  · simp only [hexpr, bind, Except.bind]
    rcases next_cases hscans.suffix with ⟨hnext, hend⟩ | ⟨t, cs', hnext, -⟩ | ⟨e', r, hnext, -⟩
    · have hlex := hscans.append hend
      rw [List.append_nil] at hlex
      simp only [hnext]
      exact .inl ⟨e, ts, rfl, hlex, hts⟩
    · simp only [hnext]
      exact .inr ⟨_, rfl, nofun, nofun⟩
    · simp only [hnext]
      exact .inr ⟨_, rfl, nofun, nofun⟩
  · simp only [hexpr, bind, Except.bind]
    exact .inr ⟨e, rfl, he⟩

theorem fromStr_of_isExpr {s : String} {ts : List Token} {e : CfgExpr} (hlex : Lexes s.toList ts)
    (h : IsExpr ts e) : fromStr s = .ok e := by
  have hlen := hlex.length_le
  have hwhole : Lexes s.toList (ts ++ []) := by simpa using hlex
  have hfuel : ts.length ≤ Parser.fuel (charIndices 0 s.toList) := by
    rw [Parser.fuel, length_charIndices]
    omega
  obtain ⟨cs, hexpr, horig, hend⟩ :=
    expr_complete h (List.suffix_refl s.toList) hwhole (by simp) hfuel
  rw [restAt_self] at hexpr
  unfold fromStr
  simp only [hexpr, bind, Except.bind, next_of_scans_nil hend horig]

theorem fromStr_eq_ok_iff {s : String} {e : CfgExpr} :
    fromStr s = .ok e ↔ ∃ ts, Lexes s.toList ts ∧ IsExpr ts e := by
  constructor
  · intro h
    rcases fromStr_cases s with ⟨e', ts, he', hlex, hts⟩ | ⟨err, herr, -⟩
    · rw [h, Except.ok.injEq] at he'
      exact ⟨ts, hlex, he' ▸ hts⟩
    · rw [h] at herr
      cases herr
  · rintro ⟨ts, hlex, hts⟩
    exact fromStr_of_isExpr hlex hts

end Cargo.Util.CfgExpr
