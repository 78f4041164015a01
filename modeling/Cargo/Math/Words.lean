import Mathlib.Data.List.Basic

/-!
# Words and escapes

A line of words is read by splitting it at its separators. Where words hold a separator of their
own, it is escaped: a mark is put before it, and a word that ends in the mark goes on, after a
separator, with the next word. What was written is read back exactly if no word is empty, holds a
separator that is not escaped, or ends in a separator or in the mark.

## Main definitions

* `words` — the parts between separators that are not empty
* `escape` — marks put before the separators
* `joinWords` — words put together again

## Main results

* `flatten_words` — nothing but separators is lost
* `joinWords_isSome_iff` — the words can be put together unless the last one is to go on
* `joinWords_lineOf` — what was escaped is read back
* `length_joinWords_lineOf` — how many are read at all
-/

set_option autoImplicit false

namespace Cargo.Math

variable {α : Type*}

/-! ### Words -/

/-- The parts of a list between its separators, without the empty ones. -/
def words (p : α → Bool) (l : List α) : List (List α) :=
  (l.splitOnP p).filter fun w => !w.isEmpty

section Words

variable {p : α → Bool}

theorem words_nil : words p [] = [] := by
  simp [words, List.splitOnP_nil]

theorem words_append_cons (a b : List α) {sep : α} (hsep : p sep = true) :
    words p (a ++ sep :: b) = words p a ++ words p b := by
  rw [words, List.splitOnP_append_cons a b hsep, List.filter_append, words, words]

theorem words_eq_singleton {w : List α} (hne : w ≠ []) (h : ∀ x ∈ w, p x = false) :
    words p w = [w] := by
  rw [words, List.splitOnP_eq_singleton h]
  simp [hne]

/-- Separators at the start separate nothing. -/
theorem words_blank_append {blank : List α} (h : ∀ x ∈ blank, p x = true) (l : List α) :
    words p (blank ++ l) = words p l := by
  induction blank with
  | nil => rfl
  | cons sep blank ih =>
    have hsep := words_append_cons [] (blank ++ l) (h sep List.mem_cons_self)
    rw [List.nil_append, words_nil, List.nil_append] at hsep
    rw [List.cons_append, hsep, ih fun x hx => h x (List.mem_cons_of_mem _ hx)]

theorem words_append_blank (l : List α) {blank : List α} (h : ∀ x ∈ blank, p x = true) :
    words p (l ++ blank) = words p l := by
  cases blank with
  | nil => rw [List.append_nil]
  | cons sep blank =>
    have hblank := words_blank_append (fun x hx => h x (List.mem_cons_of_mem sep hx)) []
    rw [List.append_nil, words_nil] at hblank
    rw [words_append_cons _ _ (h sep List.mem_cons_self), hblank, List.append_nil]

/-- A word that a separator ends, or the end of the list. -/
theorem words_append_of_head {w l : List α} (hne : w ≠ []) (h : ∀ x ∈ w, p x = false)
    (hl : ∀ x, l.head? = some x → p x = true) : words p (w ++ l) = w :: words p l := by
  cases l with
  | nil => rw [List.append_nil, words_nil, words_eq_singleton hne h]
  | cons sep l =>
    have hsep := hl sep rfl
    have hcons := words_append_cons [] l hsep
    rw [List.nil_append, words_nil, List.nil_append] at hcons
    rw [words_append_cons _ _ hsep, words_eq_singleton hne h, hcons, List.singleton_append]

theorem false_of_not_mem {sep : α} {l : List α} (hplain : ∀ x ∈ l, p x = true → x = sep)
    (h : sep ∉ l) : ∀ x ∈ l, p x = false := by
  intro x hx
  by_contra hp
  exact h (hplain x hx (by simpa using hp) ▸ hx)

/-- What comes before an escaped separator is one word, with the mark. -/
theorem words_concat_mark {mark : α} (hmark : p mark = false) {sep : α} {front : List α}
    (hplain : ∀ x ∈ front, p x = true → x = sep) (h : sep ∉ front) :
    words p (front ++ [mark]) = [front ++ [mark]] := by
  refine words_eq_singleton (by simp) fun x hx => ?_
  rcases List.mem_append.mp hx with hx | hx
  · exact false_of_not_mem hplain h x hx
  · rw [List.mem_singleton.mp hx]
    exact hmark

theorem ne_nil_of_mem_words {l w : List α} (h : w ∈ words p l) : w ≠ [] := by
  have hne := (List.mem_filter.mp h).2
  simpa using hne

theorem flatten_words (l : List α) : (words p l).flatten = l.filter fun x => !p x := by
  rw [words, List.flatten_filter_not_isEmpty]
  induction l with
  | nil => simp [List.splitOnP_nil]
  | cons x l ih =>
    obtain ⟨w, ws, hws⟩ := List.exists_cons_of_ne_nil (List.splitOnP_ne_nil p l)
    rw [hws] at ih
    rw [List.splitOnP_cons_eq_if_modifyHead, hws, List.filter_cons, ← ih]
    cases p x <;> simp

theorem words_intercalate {sep : α} (hsep : p sep = true) (ls : List (List α)) :
    words p ([sep].intercalate ls) = ls.flatMap (words p) := by
  induction ls with
  | nil => exact words_nil
  | cons l ls ih =>
    cases ls with
    | nil => simp
    | cons l' ls =>
      rw [List.intercalate_cons_cons, List.append_assoc, List.singleton_append,
        words_append_cons _ _ hsep, ih, ← List.flatMap_cons]

end Words

/-! ### Escapes -/

variable [DecidableEq α]

/-- A mark before each separator. -/
def escape (mark sep : α) (l : List α) : List α :=
  l.flatMap fun x => if x = sep then [mark, x] else [x]

/-- Put words together: one that ends in the mark goes on, after a separator, with the next. -/
def joinFrom (mark sep : α) : List α → List (List α) → Option (List (List α))
  | cur, [] => if cur.getLast? = some mark then none else some [cur]
  | cur, w :: ws =>
    if cur.getLast? = some mark then joinFrom mark sep (cur.dropLast ++ sep :: w) ws
    else (joinFrom mark sep w ws).map (cur :: ·)

def joinWords (mark sep : α) : List (List α) → Option (List (List α))
  | [] => some []
  | w :: ws => joinFrom mark sep w ws

/-- A line of escaped words. -/
def lineOf (mark sep : α) (ls : List (List α)) : List α :=
  [sep].intercalate (ls.map (escape mark sep))

/-- The list ends, and neither in a separator nor in the mark. -/
def EndsWhole (mark sep : α) (l : List α) : Prop :=
  l ≠ [] ∧ l.getLast? ≠ some sep ∧ l.getLast? ≠ some mark

instance (mark sep : α) (l : List α) : Decidable (EndsWhole mark sep l) :=
  inferInstanceAs (Decidable (_ ∧ _))

section Escapes

variable {p : α → Bool} {mark sep : α}

/-- Induction along the separators of a list. -/
theorem sep_induction {P : List α → Prop} (sep : α) (plain : ∀ l, sep ∉ l → P l)
    (step : ∀ front back, sep ∉ front → P back → P (front ++ sep :: back)) (l : List α) : P l := by
  induction hn : l.length using Nat.strongRecOn generalizing l with
  | _ n ih =>
    by_cases hsep : sep ∈ l
    · obtain ⟨front, back, rfl, hfront⟩ := List.eq_append_cons_of_mem hsep
      refine step front back hfront (ih back.length ?_ back rfl)
      rw [← hn, List.length_append, List.length_cons]
      omega
    · exact plain l hsep

theorem escape_of_not_mem {l : List α} (h : sep ∉ l) : escape mark sep l = l := by
  induction l with
  | nil => rfl
  | cons x l ih =>
    rw [List.mem_cons, not_or] at h
    rw [escape, List.flatMap_cons, if_neg (Ne.symm h.1)]
    exact congrArg (x :: ·) (ih h.2)

theorem escape_append_cons {front : List α} (h : sep ∉ front) (back : List α) :
    escape mark sep (front ++ sep :: back) = front ++ mark :: sep :: escape mark sep back := by
  have hfront : escape mark sep front = front := escape_of_not_mem h
  rw [escape] at hfront
  rw [escape, List.flatMap_append, hfront, List.flatMap_cons, if_pos rfl]
  rfl

theorem mem_escape {l : List α} {x : α} (h : x ∈ l) : x ∈ escape mark sep l := by
  refine List.mem_flatMap.mpr ⟨x, h, ?_⟩
  split <;> simp

theorem length_escape (l : List α) : (escape mark sep l).length = l.length + l.count sep := by
  induction l with
  | nil => rfl
  | cons x l ih =>
    rw [escape] at ih
    rw [escape, List.flatMap_cons, List.length_append, ih, List.length_cons, List.count_cons]
    by_cases hx : x = sep
    · rw [if_pos hx, if_pos (beq_iff_eq.mpr hx), List.length_cons, List.length_singleton]
      omega
    · rw [if_neg hx, if_neg (by simpa using hx), List.length_singleton]
      omega

theorem escape_eq_self_iff {l : List α} : escape mark sep l = l ↔ sep ∉ l := by
  constructor
  · intro h
    have hlength : (escape mark sep l).length = l.length + l.count sep := length_escape l
    rw [h] at hlength
    exact List.count_eq_zero.mp (by omega)
  · exact escape_of_not_mem

/-- In an escaped list, separators come after marks only. -/
theorem eq_mark_of_escape (hne : mark ≠ sep) {l front back : List α} {x : α}
    (h : escape mark sep l = front ++ x :: sep :: back) : x = mark := by
  have hstart : ∀ k rest : List α, escape mark sep k ≠ sep :: rest := by
    intro k rest
    cases k with
    | nil => simp [escape]
    | cons y k =>
      rw [escape, List.flatMap_cons]
      split
      · simp [hne]
      · rename_i hy
        simp [hy]
  induction l generalizing front with
  | nil => simp [escape] at h
  | cons y l ih =>
    rw [escape, List.flatMap_cons, ← escape] at h
    split at h
    · match front with
      | [] => simpa using (List.cons.inj h).1.symm
      | [_] => exact absurd (List.cons.inj (List.cons.inj h).2).2 (hstart l back)
      | _ :: _ :: front => exact ih (List.cons.inj (List.cons.inj h).2).2
    · cases front with
      | nil => exact absurd (List.cons.inj h).2 (hstart l back)
      | cons _ front => exact ih (List.cons.inj h).2

/-! ### Putting words together -/

/-- Words can be put together unless what is left at the end is to go on. -/
theorem joinFrom_isSome_iff {cur : List α} {ws : List (List α)} (hws : ∀ w ∈ ws, w ≠ []) :
    (joinFrom mark sep cur ws).isSome ↔ (cur ++ ws.flatten).getLast? ≠ some mark := by
  induction ws generalizing cur with
  | nil =>
    rw [joinFrom, List.flatten_nil, List.append_nil]
    split <;> simp_all
  | cons w ws ih =>
    have hw : w ≠ [] := hws w List.mem_cons_self
    have hlast (l : List α) : (l ++ (w ++ ws.flatten)).getLast? = (w ++ ws.flatten).getLast? := by
      rw [List.getLast?_append_of_ne_nil]
      simp [hw]
    replace ih : ∀ cur, (joinFrom mark sep cur ws).isSome ↔
        (cur ++ ws.flatten).getLast? ≠ some mark :=
      fun cur => ih fun w' hw' => hws w' (List.mem_cons_of_mem w hw')
    rw [joinFrom, List.flatten_cons, hlast]
    split
    · rw [ih, List.append_assoc, List.cons_append, List.append_cons, hlast]
    · rw [Option.isSome_map, ih]

/-- Each word that does not go on with the next is the end of one. -/
theorem length_joinFrom {cur : List α} {ws l : List (List α)} (hws : ∀ w ∈ ws, w ≠ [])
    (h : joinFrom mark sep cur ws = some l) :
    l.length = (cur :: ws).countP fun w => decide (w.getLast? ≠ some mark) := by
  induction ws generalizing cur l with
  | nil =>
    rw [joinFrom] at h
    split at h
    · cases h
    · rename_i hcur
      cases h
      simp [hcur]
  | cons w ws ih =>
    have hw : w ≠ [] := hws w List.mem_cons_self
    replace ih : ∀ cur l, joinFrom mark sep cur ws = some l →
        l.length = (cur :: ws).countP fun w => decide (w.getLast? ≠ some mark) :=
      fun cur l => ih fun w' hw' => hws w' (List.mem_cons_of_mem w hw')
    rw [joinFrom] at h
    split at h
    · rename_i hcur
      have hlast : (cur.dropLast ++ sep :: w).getLast? = w.getLast? := by
        rw [List.append_cons, List.getLast?_append_of_ne_nil _ hw]
      have hlength := ih _ _ h
      rw [List.countP_cons, hlast, ← List.countP_cons] at hlength
      rw [hlength, List.countP_cons_of_neg (a := cur) (by simp [hcur])]
    · rename_i hcur
      obtain ⟨l', hl', rfl⟩ := Option.map_eq_some_iff.mp h
      rw [List.length_cons, ih _ _ hl', List.countP_cons_of_pos (a := cur) (by simp [hcur])]

theorem length_joinWords {ws l : List (List α)} (hws : ∀ w ∈ ws, w ≠ [])
    (h : joinWords mark sep ws = some l) :
    l.length = ws.countP fun w => decide (w.getLast? ≠ some mark) := by
  cases ws with
  | nil =>
    cases h
    rfl
  | cons w ws => exact length_joinFrom (fun w' hw' => hws w' (List.mem_cons_of_mem w hw')) h

theorem joinWords_isSome_iff {ws : List (List α)} (hws : ∀ w ∈ ws, w ≠ []) :
    (joinWords mark sep ws).isSome ↔ ws.flatten.getLast? ≠ some mark := by
  cases ws with
  | nil => simp [joinWords]
  | cons w ws =>
    rw [joinWords, joinFrom_isSome_iff fun w' hw' => hws w' (List.mem_cons_of_mem w hw'),
      List.flatten_cons]

/-- Nothing but separators is put between words. -/
theorem mem_joinFrom {cur : List α} {ws l : List (List α)} (h : joinFrom mark sep cur ws = some l)
    {w : List α} (hw : w ∈ l) {x : α} (hx : x ∈ w) : x = sep ∨ ∃ v ∈ cur :: ws, x ∈ v := by
  induction ws generalizing cur l with
  | nil =>
    rw [joinFrom] at h
    split at h
    · cases h
    · cases h
      rw [List.mem_singleton.mp hw] at hx
      exact .inr ⟨cur, List.mem_cons_self, hx⟩
  | cons v ws ih =>
    rw [joinFrom] at h
    split at h
    · rcases ih h hw with hsep | ⟨u, hu, hxu⟩
      · exact .inl hsep
      · rcases List.mem_cons.mp hu with rfl | hu
        · rcases List.mem_append.mp hxu with hxu | hxu
          · exact .inr ⟨cur, List.mem_cons_self, List.dropLast_subset _ hxu⟩
          · refine (List.mem_cons.mp hxu).imp_right fun hxu => ?_
            exact ⟨v, by simp, hxu⟩
        · exact .inr ⟨u, by simp [hu], hxu⟩
    · obtain ⟨l', hl', rfl⟩ := Option.map_eq_some_iff.mp h
      rcases List.mem_cons.mp hw with rfl | hw
      · exact .inr ⟨w, List.mem_cons_self, hx⟩
      · refine (ih hl' hw).imp_right ?_
        rintro ⟨u, hu, hxu⟩
        exact ⟨u, List.mem_cons_of_mem _ hu, hxu⟩

theorem mem_joinWords {ws l : List (List α)} (h : joinWords mark sep ws = some l) {w : List α}
    (hw : w ∈ l) {x : α} (hx : x ∈ w) : x = sep ∨ ∃ v ∈ ws, x ∈ v := by
  cases ws with
  | nil =>
    cases h
    cases hw
  | cons v ws => exact mem_joinFrom h hw hx

theorem mem_lineOf {ls : List (List α)} {x : α} (h : x ∈ lineOf mark sep ls) :
    x = sep ∨ x = mark ∨ ∃ l ∈ ls, x ∈ l := by
  have hescape : ∀ l : List α, x ∈ escape mark sep l → x = mark ∨ x ∈ l := by
    intro l hx
    obtain ⟨y, hy, hxy⟩ := List.mem_flatMap.mp hx
    split at hxy
    · rcases List.mem_pair.mp hxy with rfl | rfl
      · exact .inl rfl
      · exact .inr hy
    · exact .inr (List.mem_singleton.mp hxy ▸ hy)
  induction ls with
  | nil => cases h
  | cons l ls ih =>
    rw [lineOf, List.map_cons] at h
    cases ls with
    | nil =>
      rw [List.map_nil, List.intercalate_singleton] at h
      exact .inr ((hescape l h).imp_right fun hx => ⟨l, List.mem_cons_self, hx⟩)
    | cons l' ls =>
      rw [List.map_cons, List.intercalate_cons_cons] at h
      rcases List.mem_append.mp h with h | h
      · rcases List.mem_append.mp h with h | h
        · exact .inr ((hescape l h).imp_right fun hx => ⟨l, List.mem_cons_self, hx⟩)
        · exact .inl (List.mem_singleton.mp h)
      · refine (ih h).imp_right fun h => h.imp_right ?_
        rintro ⟨k, hk, hx⟩
        exact ⟨k, List.mem_cons_of_mem _ hk, hx⟩

/-! ### What was escaped -/

/-- An escaped list that ends whole is put together again. -/
theorem joinFrom_escape (hsep : p sep = true) (hmark : p mark = false) {l : List α}
    (hplain : ∀ x ∈ l, p x = true → x = sep) (hne : l ≠ []) (hlast : l.getLast? ≠ some sep) :
    ∃ w ws, words p (escape mark sep l) = w :: ws ∧ ∀ acc rest,
      joinFrom mark sep (acc ++ w) (ws ++ rest) = joinFrom mark sep (acc ++ l) rest := by
  induction l using sep_induction sep with
  | plain l hl =>
    refine ⟨l, [], ?_, fun acc rest => rfl⟩
    rw [escape_of_not_mem hl]
    exact words_eq_singleton hne (false_of_not_mem hplain hl)
  | step front back hfront ih =>
    have hback : back ≠ [] := by
      rintro rfl
      simp at hlast
    have hlast' : back.getLast? ≠ some sep := by
      rw [List.append_cons, List.getLast?_append_of_ne_nil _ hback] at hlast
      exact hlast
    obtain ⟨w, ws, hwords, hjoin⟩ := ih (fun x hx => hplain x (by simp [hx])) hback hlast'
    have hfirst : words p (front ++ [mark]) = [front ++ [mark]] :=
      words_concat_mark hmark (fun x hx => hplain x (List.mem_append_left _ hx)) hfront
    refine ⟨front ++ [mark], w :: ws, ?_, fun acc rest => ?_⟩
    · rw [escape_append_cons hfront, List.append_cons, words_append_cons _ _ hsep, hfirst, hwords]
      rfl
    · -- the first word goes on with the next one
      have hgoes : (acc ++ (front ++ [mark])).getLast? = some mark := by simp
      have hdrop : (acc ++ (front ++ [mark])).dropLast = acc ++ front := by
        rw [← List.append_assoc, List.dropLast_concat]
      rw [List.cons_append, joinFrom, if_pos hgoes, hdrop, List.append_cons, hjoin]
      simp

/-- How many words of an escaped list are not to go on. -/
theorem count_words_escape (hsep : p sep = true) (hmark : p mark = false) {l : List α}
    (hplain : ∀ x ∈ l, p x = true → x = sep) :
    ((words p (escape mark sep l)).countP fun w => decide (w.getLast? ≠ some mark)) =
      if EndsWhole mark sep l then 1 else 0 := by
  induction l using sep_induction sep with
  | plain l hl =>
    rw [escape_of_not_mem hl]
    have hnot : l.getLast? ≠ some sep := fun h => hl (List.mem_of_getLast? h)
    by_cases hnil : l = []
    · subst hnil
      simp [words_nil, EndsWhole]
    · have hwords : words p l = [l] := words_eq_singleton hnil (false_of_not_mem hplain hl)
      rw [hwords, List.countP_singleton]
      by_cases hend : l.getLast? = some mark
      · simp [hend, EndsWhole]
      · simp [hend, EndsWhole, hnil, hnot]
  | step front back hfront ih =>
    have hfirst : words p (front ++ [mark]) = [front ++ [mark]] :=
      words_concat_mark hmark (fun x hx => hplain x (List.mem_append_left _ hx)) hfront
    rw [escape_append_cons hfront, List.append_cons, words_append_cons _ _ hsep, hfirst,
      List.singleton_append, List.countP_cons_of_neg (by simp),
      ih fun x hx => hplain x (by simp [hx])]
    have hiff : EndsWhole mark sep (front ++ sep :: back) ↔ EndsWhole mark sep back := by
      unfold EndsWhole
      by_cases hback : back = []
      · simp [hback]
      · rw [List.append_cons, List.getLast?_append_of_ne_nil _ hback]
        simp [hback]
    simp only [hiff]

/-- A line of lists that end whole is read back. -/
theorem joinWords_lineOf (hsep : p sep = true) (hmark : p mark = false) {ls : List (List α)}
    (hplain : ∀ l ∈ ls, ∀ x ∈ l, p x = true → x = sep)
    (hwhole : ∀ l ∈ ls, EndsWhole mark sep l) :
    joinWords mark sep (words p (lineOf mark sep ls)) = some ls := by
  rw [lineOf, words_intercalate hsep]
  induction ls with
  | nil => rfl
  | cons l ls ih =>
    replace ih := ih (fun l' hl' => hplain l' (List.mem_cons_of_mem l hl'))
      fun l' hl' => hwhole l' (List.mem_cons_of_mem l hl')
    obtain ⟨hne, hlast, hend⟩ := hwhole l List.mem_cons_self
    obtain ⟨w, ws, hwords, hjoin⟩ :=
      joinFrom_escape hsep hmark (hplain l List.mem_cons_self) hne hlast
    rw [List.map_cons, List.flatMap_cons, hwords, List.cons_append, joinWords]
    have hjoin' := hjoin [] (List.flatMap (words p) (ls.map (escape mark sep)))
    rw [List.nil_append, List.nil_append] at hjoin'
    rw [hjoin']
    cases hrest : List.flatMap (words p) (ls.map (escape mark sep)) with
    | nil =>
      rw [hrest] at ih
      cases ih
      rw [joinFrom, if_neg hend]
    | cons w' ws' =>
      rw [hrest] at ih
      rw [joinFrom, if_neg hend, show joinFrom mark sep w' ws' = some ls from ih]
      rfl

/-- As many words are read from a line as lists in it end whole. -/
theorem length_joinWords_lineOf (hsep : p sep = true) (hmark : p mark = false)
    {ls l : List (List α)} (hplain : ∀ l ∈ ls, ∀ x ∈ l, p x = true → x = sep)
    (h : joinWords mark sep (words p (lineOf mark sep ls)) = some l) :
    l.length = ls.countP fun l => decide (EndsWhole mark sep l) := by
  rw [length_joinWords (fun w hw => ne_nil_of_mem_words hw) h, lineOf, words_intercalate hsep]
  clear h
  induction ls with
  | nil => rfl
  | cons l ls ih =>
    rw [List.map_cons, List.flatMap_cons, List.countP_append,
      count_words_escape hsep hmark (hplain l List.mem_cons_self),
      ih fun l' hl' => hplain l' (List.mem_cons_of_mem l hl'), List.countP_cons]
    by_cases hwhole : EndsWhole mark sep l
    · simp [hwhole, Nat.add_comm]
    · simp [hwhole]

end Escapes

end Cargo.Math
