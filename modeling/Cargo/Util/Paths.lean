import Mathlib.Data.List.DropRight
import Cargo.Math.Words

/-!
# Paths

A path is what the operating system takes for one: a text that may hold bytes that are part of no
character. It is read as a sequence of components, which slashes separate; empty pieces and dots
say nothing, apart from a dot at the start. Paths with the same components are equal.

## Main definitions

* `OsText` — texts of the operating system
* `Paths.components`, `Paths.Same` — the components of a path
* `Paths.join`, `Paths.stripPrefix`

## Main results

* `Paths.components_join` — what a relative path is joined to comes first
* `Paths.same_join_stripPrefix` — a path is found again from where it was made relative to
* `Paths.exists_stripPrefix` — a path can be made relative to what its components start with
-/

set_option autoImplicit false

namespace Cargo.Util

open Cargo.Math

/-- A character, or a byte that is part of none: below 128, every byte is a character. -/
inductive OsChar
  | char (c : Char)
  | byte (b : UInt8) (high : 128 ≤ b)
  deriving DecidableEq, Repr

/-- A text of the operating system, as paths and environment variables are. -/
abbrev OsText := List OsChar

/-- A text as one of the operating system. -/
def OsText.ofText (t : List Char) : OsText := t.map .char

/-- `to_str`: the text, if it is one of characters. -/
def OsText.toStr : OsText → Option (List Char)
  | [] => some []
  | .char c :: t => (toStr t).map (c :: ·)
  | .byte _ _ :: _ => none

theorem OsText.toStr_ofText (t : List Char) : toStr (ofText t) = some t := by
  induction t with
  | nil => rfl
  | cons c t ih =>
    rw [ofText, List.map_cons, toStr]
    rw [ofText] at ih
    rw [ih]
    rfl

theorem OsText.eq_ofText_of_toStr {t : OsText} {s : List Char} (h : t.toStr = some s) :
    t = ofText s := by
  induction t generalizing s with
  | nil =>
    cases h
    rfl
  | cons c t ih =>
    cases c with
    | byte b high => cases h
    | char c =>
      obtain ⟨s', hs', rfl⟩ := Option.map_eq_some_iff.mp h
      rw [ih hs']
      rfl

/-- A text without loose bytes is one of characters. -/
theorem OsText.exists_ofText {t : OsText} (h : ∀ c ∈ t, ∃ d, c = .char d) : ∃ s, t = ofText s := by
  induction t with
  | nil => exact ⟨[], rfl⟩
  | cons c t ih =>
    obtain ⟨d, rfl⟩ := h c List.mem_cons_self
    obtain ⟨s, rfl⟩ := ih fun c hc => h c (List.mem_cons_of_mem _ hc)
    exact ⟨d :: s, rfl⟩

def slash : OsChar := .char '/'

def dot : OsChar := .char '.'

namespace Paths

/-! ### Components -/

inductive Component
  | rootDir
  | curDir
  | parentDir
  | normal (name : OsText)
  deriving DecidableEq, Repr

/-- A piece between slashes that says nothing. -/
def isTrivial (piece : OsText) : Bool := decide (piece = [] ∨ piece = [dot])

/-- What a piece stands for. -/
def component (piece : OsText) : Component :=
  if piece = [dot, dot] then .parentDir else .normal piece

/-- The components that pieces stand for. -/
def body (pieces : List OsText) : List Component :=
  (pieces.filter fun piece => !isTrivial piece).map component

/-- Does the path start at the root? On Unix, these are the absolute paths. -/
def hasRoot (path : OsText) : Bool := decide (path.head? = some slash)

/-- What is before the first slash. -/
def firstPiece (path : OsText) : OsText := path.takeWhile fun c => decide (c ≠ slash)

/-- What a path starts with, before the pieces that are more than a dot. -/
def lead (path : OsText) : List Component :=
  if hasRoot path then [.rootDir] else if firstPiece path = [dot] then [.curDir] else []

/-- `components` -/
def components (path : OsText) : List Component := lead path ++ body (path.splitOn slash)

/-- The equality of paths. -/
def Same (p q : OsText) : Prop := components p = components q

instance (p q : OsText) : Decidable (Same p q) :=
  inferInstanceAs (Decidable (components p = components q))

/-- `join`: an absolute path replaces the one that it is joined to. -/
def join (self path : OsText) : OsText :=
  if hasRoot path then path
  else
    match self.getLast? with
    | none => path
    | some c => if c = slash then self ++ path else self ++ slash :: path

/-- Take components off the front of pieces. -/
def stripBody : List Component → List OsText → Option (List OsText)
  | [], pieces => some pieces
  | c :: cs, pieces =>
    match pieces.dropWhile isTrivial with
    | [] => none
    | piece :: pieces => if component piece = c then stripBody cs pieces else none

/-- The path of the pieces that are left, without what says nothing at its ends. -/
def asPath (pieces : List OsText) : OsText :=
  [slash].intercalate ((pieces.dropWhile isTrivial).rdropWhile isTrivial)

/-- `strip_prefix`: the path after `base`, if it starts with it. Nothing is taken off the front
if `base` is empty. -/
def stripPrefix (path base : OsText) : Option OsText :=
  match components base with
  -- an empty base leaves the path, without what is trivial at its end
  | [] =>
    match path.splitOn slash with
    | [] => some []
    | first :: rest =>
      let rest := rest.rdropWhile isTrivial
      some (if first = [] ∧ rest = [] then path.take 1 else [slash].intercalate (first :: rest))
  | c :: cs =>
    if (components path).head? = some c then
      (stripBody cs (path.splitOn slash).tail).map asPath
    else none

/-! ### Pieces -/

section Pieces

variable {p q base : OsText}

theorem slash_not_mem_of_mem_splitOn {piece : OsText} (h : piece ∈ p.splitOn slash) :
    slash ∉ piece := by
  induction p using sep_induction slash with
  | plain l hl =>
    rw [List.splitOn_eq_singleton hl, List.mem_singleton] at h
    rw [h]
    exact hl
  | step front back hfront ih =>
    rw [List.splitOn_append_cons_self_of_not_mem hfront] at h
    rcases List.mem_cons.mp h with rfl | h
    · exact hfront
    · exact ih h

theorem mem_of_mem_splitOn {piece : OsText} {c : OsChar} (h : piece ∈ p.splitOn slash)
    (hc : c ∈ piece) : c ∈ p := by
  induction p using sep_induction slash with
  | plain l hl =>
    rw [List.splitOn_eq_singleton hl, List.mem_singleton] at h
    exact h ▸ hc
  | step front back hfront ih =>
    rw [List.splitOn_append_cons_self_of_not_mem hfront] at h
    rcases List.mem_cons.mp h with rfl | h
    · exact List.mem_append_left _ hc
    · exact List.mem_append_right _ (List.mem_cons_of_mem _ (ih h))

/-- All but slashes is in the pieces. -/
theorem exists_piece {c : OsChar} (hc : c ∈ p) (hne : c ≠ slash) :
    ∃ piece ∈ p.splitOn slash, c ∈ piece := by
  induction p using sep_induction slash with
  | plain l hl => exact ⟨l, by rw [List.splitOn_eq_singleton hl]; simp, hc⟩
  | step front back hfront ih =>
    rw [List.splitOn_append_cons_self_of_not_mem hfront]
    rcases List.mem_append.mp hc with hc | hc
    · exact ⟨front, List.mem_cons_self, hc⟩
    · obtain ⟨piece, hpiece, hmem⟩ := ih ((List.mem_cons.mp hc).resolve_left hne)
      exact ⟨piece, List.mem_cons_of_mem _ hpiece, hmem⟩

theorem body_append (ps qs : List OsText) : body (ps ++ qs) = body ps ++ body qs := by
  rw [body, List.filter_append, List.map_append, body, body]

theorem body_cons_of_trivial {piece : OsText} (h : isTrivial piece = true) (ps : List OsText) :
    body (piece :: ps) = body ps := by
  rw [body, List.filter_cons_of_neg (by simpa using h), body]

theorem body_cons_of_not_trivial {piece : OsText} (h : isTrivial piece = false)
    (ps : List OsText) : body (piece :: ps) = component piece :: body ps := by
  rw [body, List.filter_cons_of_pos (by simpa using h), List.map_cons, body]

theorem body_dropWhile (ps : List OsText) : body (ps.dropWhile isTrivial) = body ps := by
  induction ps with
  | nil => rfl
  | cons piece ps ih =>
    cases htrivial : isTrivial piece with
    | true => rw [List.dropWhile_cons_of_pos htrivial, ih, body_cons_of_trivial htrivial]
    | false => rw [List.dropWhile_cons_of_neg (by simp [htrivial])]

theorem body_rdropWhile (ps : List OsText) : body (ps.rdropWhile isTrivial) = body ps := by
  induction ps using List.reverseRecOn with
  | nil => rfl
  | append_singleton ps piece ih =>
    cases htrivial : isTrivial piece with
    | true =>
      rw [List.rdropWhile_concat_pos _ _ _ htrivial, ih, body_append,
        body_cons_of_trivial htrivial]
      exact (List.append_nil _).symm
    | false => rw [List.rdropWhile_concat_neg _ _ _ (by simp [htrivial])]

/-! ### Joining -/

theorem firstPiece_append_cons (p q : OsText) :
    firstPiece (p ++ slash :: q) = firstPiece p := by
  induction p with
  | nil => simp [firstPiece]
  | cons c p ih =>
    unfold firstPiece at ih ⊢
    rw [List.cons_append, List.takeWhile_cons, List.takeWhile_cons, ih]

theorem firstPiece_of_not_mem (hp : slash ∉ p) : firstPiece p = p := by
  rw [firstPiece, List.takeWhile_eq_self_iff]
  intro c hc
  simpa using fun h : c = slash => hp (h ▸ hc)

theorem lead_append_cons (hp : p ≠ []) (q : OsText) : lead (p ++ slash :: q) = lead p := by
  have hroot : hasRoot (p ++ slash :: q) = hasRoot p := by
    cases p with
    | nil => exact absurd rfl hp
    | cons c p => rfl
  rw [lead, hroot, firstPiece_append_cons, lead]

theorem components_append_cons (p q : OsText) : components (p ++ slash :: q) =
    (if p = [] then [.rootDir] else components p) ++ body (q.splitOn slash) := by
  rw [components, List.splitOn_append_cons_self, body_append]
  by_cases hp : p = []
  · subst hp
    rfl
  · rw [lead_append_cons hp, if_neg hp, components, List.append_assoc]

theorem join_of_hasRoot (hq : hasRoot q = true) (p : OsText) : join p q = q := by
  rw [join, if_pos hq]

/-- What a relative path is joined to comes first. -/
theorem components_join (hp : p ≠ []) (hq : hasRoot q = false) :
    components (join p q) = components p ++ body (q.splitOn slash) := by
  rw [join, if_neg (by simp [hq])]
  induction p using List.reverseRecOn with
  | nil => exact absurd rfl hp
  | append_singleton p c _ =>
    rw [List.getLast?_concat]
    dsimp only
    split
    · rename_i hc
      subst hc
      rw [List.append_assoc, List.singleton_append, components_append_cons,
        components_append_cons]
      have hnil : body (([] : OsText).splitOn slash) = [] := rfl
      rw [hnil, List.append_nil]
    · rw [components_append_cons, if_neg (by simp)]

theorem hasRoot_join (hp : hasRoot p = true) (q : OsText) : hasRoot (join p q) = true := by
  rw [join]
  split
  · assumption
  · cases p with
    | nil => cases hp
    | cons c p =>
      cases hlast : (c :: p).getLast? with
      | none => simp at hlast
      | some d =>
        dsimp only
        split <;> exact hp

theorem mem_join {c : OsChar} (h : c ∈ join p q) : c ∈ p ∨ c ∈ q ∨ c = slash := by
  rw [join] at h
  split at h
  · exact .inr (.inl h)
  · split at h
    · exact .inr (.inl h)
    · split at h
      · exact (List.mem_append.mp h).imp_right .inl
      · rcases List.mem_append.mp h with h | h
        · exact .inl h
        · exact .inr ((List.mem_cons.mp h).symm.imp_right id)

theorem mem_join_right {c : OsChar} (h : c ∈ q) (p : OsText) : c ∈ join p q := by
  rw [join]
  split
  · exact h
  · split
    · exact h
    · split
      · exact List.mem_append_right _ h
      · exact List.mem_append_right _ (List.mem_cons_of_mem _ h)

/-! ### Prefixes -/

theorem splitOn_eq_cons (p : OsText) : ∃ rest, p.splitOn slash = firstPiece p :: rest := by
  by_cases hslash : slash ∈ p
  · obtain ⟨front, back, rfl, hfront⟩ := List.eq_append_cons_of_mem hslash
    refine ⟨back.splitOn slash, ?_⟩
    rw [firstPiece_append_cons, firstPiece_of_not_mem hfront,
      List.splitOn_append_cons_self_of_not_mem hfront]
  · exact ⟨[], by rw [firstPiece_of_not_mem hslash, List.splitOn_eq_singleton hslash]⟩

/-- Before a slash at the start there is nothing. -/
theorem firstPiece_of_hasRoot (hp : hasRoot p = true) : firstPiece p = [] := by
  cases p with
  | nil => rfl
  | cons c p =>
    have hc : c = slash := by simpa [hasRoot] using hp
    rw [firstPiece, List.takeWhile_cons_of_neg (by simp [hc])]

theorem eq_nil_of_firstPiece (hp : hasRoot p = false) (h : firstPiece p = []) : p = [] := by
  cases p with
  | nil => rfl
  | cons c p =>
    have hc : c ≠ slash := by simpa [hasRoot] using hp
    rw [firstPiece, List.takeWhile_cons_of_pos (by simpa using hc)] at h
    cases h

/-- The first component is that of the first piece; only the empty path has none. -/
theorem components_eq_cons (hp : p ≠ []) :
    ∃ c, components p = c :: body (p.splitOn slash).tail := by
  obtain ⟨rest, hrest⟩ := splitOn_eq_cons p
  rw [components, hrest, List.tail_cons]
  by_cases hroot : hasRoot p = true
  · rw [firstPiece_of_hasRoot hroot, lead, if_pos hroot,
      body_cons_of_trivial (by simp [isTrivial])]
    exact ⟨_, rfl⟩
  · by_cases hdot : firstPiece p = [dot]
    · rw [lead, if_neg hroot, if_pos hdot, hdot, body_cons_of_trivial (by simp [isTrivial])]
      exact ⟨_, rfl⟩
    · have hnil : firstPiece p ≠ [] := fun h =>
        hp (eq_nil_of_firstPiece (by simpa using hroot) h)
      have htrivial : isTrivial (firstPiece p) = false := by
        rw [isTrivial, decide_eq_false_iff_not, not_or]
        exact ⟨hnil, hdot⟩
      rw [lead, if_neg hroot, if_neg hdot, body_cons_of_not_trivial htrivial]
      exact ⟨_, rfl⟩

theorem body_of_stripBody {cs : List Component} {ps qs : List OsText}
    (h : stripBody cs ps = some qs) : body ps = cs ++ body qs ∧ ∀ q ∈ qs, q ∈ ps := by
  induction cs generalizing ps with
  | nil =>
    cases h
    exact ⟨rfl, fun _ hq => hq⟩
  | cons c cs ih =>
    rw [stripBody] at h
    split at h
    · cases h
    · rename_i piece rest hdrop
      split at h
      · rename_i hc
        obtain ⟨hbody, hmem⟩ := ih h
        have hpiece : isTrivial piece = false := by
          have hhead := List.head?_dropWhile_not isTrivial ps
          rw [hdrop] at hhead
          exact hhead
        refine ⟨?_, fun q hq => ?_⟩
        · rw [← body_dropWhile ps, hdrop, body_cons_of_not_trivial hpiece, hc, hbody]
          rfl
        · have hsuffix : piece :: rest <:+ ps := hdrop ▸ List.dropWhile_suffix isTrivial
          exact hsuffix.subset (List.mem_cons_of_mem _ (hmem q hq))
      · cases h

/-- The path of the pieces that are left is relative, and has their components. -/
theorem asPath_spec {ps : List OsText} (hps : ∀ piece ∈ ps, slash ∉ piece) :
    hasRoot (asPath ps) = false ∧ body ((asPath ps).splitOn slash) = body ps ∧
      ∀ c ∈ asPath ps, (∃ piece ∈ ps, c ∈ piece) ∨ c = slash := by
  have hsub : ∀ piece ∈ (ps.dropWhile isTrivial).rdropWhile isTrivial, piece ∈ ps := by
    intro piece hpiece
    have hmem := (List.rdropWhile_prefix isTrivial _).subset hpiece
    exact (List.dropWhile_suffix isTrivial).subset hmem
  have hbody : body ((ps.dropWhile isTrivial).rdropWhile isTrivial) = body ps := by
    rw [body_rdropWhile, body_dropWhile]
  unfold asPath
  cases hqs : (ps.dropWhile isTrivial).rdropWhile isTrivial with
  | nil =>
    rw [hqs] at hbody
    exact ⟨rfl, hbody, fun c hc => by simp at hc⟩
  | cons first rest =>
    rw [hqs] at hsub hbody
    have hsplit : ([slash].intercalate (first :: rest)).splitOn slash = first :: rest :=
      List.splitOn_intercalate slash (fun piece hpiece => hps piece (hsub piece hpiece)) (by simp)
    -- the first piece that is left is more than a dot
    have hfirst : isTrivial first = false := by
      have hhead := List.head?_dropWhile_not isTrivial ps
      obtain ⟨tail, htail⟩ := List.rdropWhile_prefix isTrivial (ps.dropWhile isTrivial)
      rw [hqs] at htail
      rw [← htail] at hhead
      exact hhead
    refine ⟨?_, by rw [hsplit, hbody], fun c hc => ?_⟩
    · cases first with
      | nil => simp [isTrivial] at hfirst
      | cons c first =>
        have hc : c ≠ slash := fun h => hps (c :: first) (hsub _ (by simp)) (by simp [h])
        cases rest <;> simpa [hasRoot, List.intercalate_cons_cons] using hc
    · by_cases hslash : c = slash
      · exact .inr hslash
      · obtain ⟨piece, hpiece, hmem⟩ := exists_piece hc hslash
        rw [hsplit] at hpiece
        exact .inl ⟨piece, hsub piece hpiece, hmem⟩

/-- What is left after a prefix is relative, and has the components that are left. -/
theorem stripPrefix_spec {r : OsText} (h : stripPrefix p base = some r) (hbase : base ≠ []) :
    hasRoot r = false ∧ components p = components base ++ body (r.splitOn slash) ∧
      ∀ c ∈ r, c ∈ p ∨ c = slash := by
  obtain ⟨c, hc⟩ := components_eq_cons hbase
  rw [stripPrefix, hc] at h
  dsimp only at h
  split at h
  · rename_i hhead
    have hp : p ≠ [] := by
      rintro rfl
      cases hhead
    obtain ⟨d, hd⟩ := components_eq_cons hp
    rw [hd, List.head?_cons, Option.some.injEq] at hhead
    subst hhead
    obtain ⟨qs, hqs, rfl⟩ := Option.map_eq_some_iff.mp h
    obtain ⟨hbody, hmem⟩ := body_of_stripBody hqs
    have hpieces : ∀ q ∈ qs, q ∈ p.splitOn slash := fun q hq => List.mem_of_mem_tail (hmem q hq)
    obtain ⟨hroot, hbody', hchars⟩ :=
      asPath_spec fun q hq => slash_not_mem_of_mem_splitOn (hpieces q hq)
    refine ⟨hroot, ?_, fun c hc => ?_⟩
    · rw [hd, hc, hbody, hbody', List.cons_append]
    · rcases hchars c hc with ⟨piece, hpiece, hmem⟩ | hslash
      · exact .inl (mem_of_mem_splitOn (hpieces piece hpiece) hmem)
      · exact .inr hslash
  · cases h

/-- What is left when there is nothing to take off. -/
theorem stripPrefix_nil (p : OsText) : ∃ rest, p.splitOn slash = firstPiece p :: rest ∧
    stripPrefix p [] = some (if firstPiece p = [] ∧ rest.rdropWhile isTrivial = [] then p.take 1
      else [slash].intercalate (firstPiece p :: rest.rdropWhile isTrivial)) := by
  obtain ⟨rest, hrest⟩ := splitOn_eq_cons p
  refine ⟨rest, hrest, ?_⟩
  rw [stripPrefix, show components ([] : OsText) = [] from rfl]
  dsimp only
  rw [hrest]

theorem splitOn_intercalate_rdropWhile {rest : List OsText}
    (hrest : p.splitOn slash = firstPiece p :: rest) :
    ([slash].intercalate (firstPiece p :: rest.rdropWhile isTrivial)).splitOn slash =
        firstPiece p :: rest.rdropWhile isTrivial ∧
      ∀ piece ∈ firstPiece p :: rest.rdropWhile isTrivial, piece ∈ p.splitOn slash := by
  have hmem : ∀ piece ∈ firstPiece p :: rest.rdropWhile isTrivial, piece ∈ p.splitOn slash := by
    intro piece hpiece
    rw [hrest]
    rcases List.mem_cons.mp hpiece with rfl | hpiece
    · exact List.mem_cons_self
    · exact List.mem_cons_of_mem _ ((List.rdropWhile_prefix isTrivial _).subset hpiece)
  have hslash : ∀ piece ∈ firstPiece p :: rest.rdropWhile isTrivial, slash ∉ piece :=
    fun piece hpiece => slash_not_mem_of_mem_splitOn (hmem piece hpiece)
  exact ⟨List.splitOn_intercalate slash hslash (by simp), hmem⟩

/-- Nothing but slashes is added to what is left after a prefix. -/
theorem mem_stripPrefix {r : OsText} (h : stripPrefix p base = some r) :
    ∀ c ∈ r, c ∈ p ∨ c = slash := by
  by_cases hbase : base = []
  · subst hbase
    obtain ⟨rest, hrest, hstrip⟩ := stripPrefix_nil p
    rw [hstrip, Option.some.injEq] at h
    intro c hc
    split at h
    · subst h
      exact .inl (List.mem_of_mem_take hc)
    · subst h
      by_cases hslash : c = slash
      · exact .inr hslash
      · obtain ⟨hsplit, hmem⟩ := splitOn_intercalate_rdropWhile hrest
        obtain ⟨piece, hpiece, hcpiece⟩ := exists_piece hc hslash
        rw [hsplit] at hpiece
        exact .inl (mem_of_mem_splitOn (hmem piece hpiece) hcpiece)
  · exact (stripPrefix_spec h hbase).2.2

/-- With nothing to take off, an absolute path stays what it is. -/
theorem same_of_stripPrefix_nil {r : OsText} (hp : hasRoot p = true)
    (h : stripPrefix p [] = some r) : hasRoot r = true ∧ Same r p := by
  obtain ⟨rest, hrest, hstrip⟩ := stripPrefix_nil p
  have hsplit := (splitOn_intercalate_rdropWhile hrest).1
  rw [firstPiece_of_hasRoot hp] at hrest hstrip hsplit
  have hcomponents : components p = .rootDir :: body (rest.rdropWhile isTrivial) := by
    rw [components, hrest, lead, if_pos hp, body_cons_of_trivial (by simp [isTrivial]),
      body_rdropWhile]
    rfl
  rw [hstrip, Option.some.injEq] at h
  cases htrim : rest.rdropWhile isTrivial with
  | nil =>
    rw [htrim, if_pos ⟨rfl, rfl⟩] at h
    rw [htrim] at hcomponents
    cases p with
    | nil => cases hp
    | cons c p =>
      have hc : c = slash := by simpa [hasRoot] using hp
      subst hc
      subst h
      exact ⟨hp, hcomponents.symm⟩
  | cons piece pieces =>
    rw [htrim, if_neg (by simp)] at h
    rw [htrim] at hcomponents hsplit
    have hroot : hasRoot ([slash].intercalate ([] :: piece :: pieces)) = true := by
      rw [List.intercalate_cons_cons]
      rfl
    subst h
    refine ⟨hroot, ?_⟩
    rw [Same, hcomponents, components, hsplit, lead, if_pos hroot,
      body_cons_of_trivial (by simp [isTrivial])]
    rfl

/-- An absolute path is found again from where it was made relative to, if it can be. What is
kept of it is empty for that place only. -/
theorem same_join_stripPrefix (hp : hasRoot p = true) (base : OsText) :
    Same (join base ((stripPrefix p base).getD p)) p ∧
      (¬Same p base → (stripPrefix p base).getD p ≠ []) := by
  have hne : p ≠ [] := by
    rintro rfl
    cases hp
  cases h : stripPrefix p base with
  | none =>
    rw [Option.getD_none, join_of_hasRoot hp]
    exact ⟨rfl, fun _ => hne⟩
  | some r =>
    rw [Option.getD_some]
    by_cases hbase : base = []
    · subst hbase
      obtain ⟨hroot, hsame⟩ := same_of_stripPrefix_nil hp h
      refine ⟨?_, fun _ hr => ?_⟩
      · rw [join_of_hasRoot hroot]
        exact hsame
      · rw [hr] at hroot
        cases hroot
    · obtain ⟨hroot, hcomponents, -⟩ := stripPrefix_spec h hbase
      refine ⟨?_, fun hother hr => ?_⟩
      · rw [Same, components_join hbase hroot, hcomponents]
      · apply hother
        rw [Same, hcomponents, hr]
        exact List.append_nil _

theorem mem_getD_stripPrefix {c : OsChar} (h : c ∈ (stripPrefix p base).getD p) :
    c ∈ p ∨ c = slash := by
  cases hstrip : stripPrefix p base with
  | none =>
    rw [hstrip] at h
    exact .inl h
  | some r =>
    rw [hstrip] at h
    exact mem_stripPrefix hstrip c h

/-- Components are taken off if the pieces start with them. -/
theorem exists_stripBody {cs rest : List Component} {ps : List OsText}
    (h : body ps = cs ++ rest) : ∃ qs, stripBody cs ps = some qs := by
  induction cs generalizing ps with
  | nil => exact ⟨ps, rfl⟩
  | cons c cs ih =>
    rw [stripBody]
    rw [← body_dropWhile] at h
    cases hdrop : ps.dropWhile isTrivial with
    | nil =>
      rw [hdrop] at h
      cases h
    | cons piece ps' =>
      have hpiece : isTrivial piece = false := by
        have hhead := List.head?_dropWhile_not isTrivial ps
        rw [hdrop] at hhead
        exact hhead
      rw [hdrop, body_cons_of_not_trivial hpiece, List.cons_append, List.cons.injEq] at h
      dsimp only
      rw [if_pos h.1]
      exact ih h.2

/-- A prefix is taken off if the components start with its own. -/
theorem exists_stripPrefix {rest : List Component} (hbase : base ≠ [])
    (h : components p = components base ++ rest) : ∃ r, stripPrefix p base = some r := by
  obtain ⟨c, hc⟩ := components_eq_cons hbase
  have hp : p ≠ [] := by
    rintro rfl
    rw [hc] at h
    cases h
  obtain ⟨d, hd⟩ := components_eq_cons hp
  rw [hc, hd, List.cons_append, List.cons.injEq] at h
  obtain ⟨rfl, hbody⟩ := h
  obtain ⟨qs, hqs⟩ := exists_stripBody hbody
  refine ⟨asPath qs, ?_⟩
  rw [stripPrefix, hc]
  dsimp only
  rw [hd, List.head?_cons, if_pos rfl, hqs]
  rfl

theorem ne_nil_of_hasRoot (hp : hasRoot p = true) : p ≠ [] := by
  rintro rfl
  cases hp

theorem components_of_hasRoot (hp : hasRoot p = true) :
    components p = .rootDir :: body (p.splitOn slash) := by
  rw [components, lead, if_pos hp]
  rfl

/-- A relative path is not under an absolute one. -/
theorem stripPrefix_of_relative (hp : hasRoot p = false) (hbase : hasRoot base = true) :
    stripPrefix p base = none := by
  cases h : stripPrefix p base with
  | none => rfl
  | some r =>
    obtain ⟨-, hcomponents, -⟩ := stripPrefix_spec h (ne_nil_of_hasRoot hbase)
    rw [components_of_hasRoot hbase, components, lead, if_neg (by simp [hp])] at hcomponents
    -- the root is the component of no piece
    have hroot : Component.rootDir ∈ body (p.splitOn slash) := by
      split at hcomponents
      · cases hcomponents
      · rw [List.nil_append] at hcomponents
        rw [hcomponents]
        exact List.mem_cons_self
    obtain ⟨piece, -, hpiece⟩ := List.mem_map.mp hroot
    unfold component at hpiece
    split at hpiece <;> cases hpiece

/-- A slash ends what is before it. -/
theorem components_append_of_hasRoot (hp : p ≠ []) (hq : hasRoot q = true) :
    components (p ++ q) = components p ++ (components q).tail := by
  cases q with
  | nil => cases hq
  | cons c q =>
    have hc : c = slash := by simpa [hasRoot] using hq
    subst hc
    have hslash := components_append_cons [] q
    rw [List.nil_append, if_pos rfl] at hslash
    rw [components_append_cons, if_neg hp, hslash]
    rfl

/-! ### What components are made of -/

/-- The text in a component. -/
def Component.text : Component → OsText
  | .normal name => name
  | _ => []

/-- Slashes and dots apart, all of a path is in its components. -/
theorem mem_iff_mem_components {c : OsChar} (hslash : c ≠ slash) (hdot : c ≠ dot) :
    c ∈ p ↔ ∃ x ∈ components p, c ∈ x.text := by
  constructor
  · intro hc
    obtain ⟨piece, hpiece, hmem⟩ := exists_piece hc hslash
    have htrivial : isTrivial piece = false := by
      rw [isTrivial, decide_eq_false_iff_not, not_or]
      refine ⟨List.ne_nil_of_mem hmem, ?_⟩
      rintro rfl
      exact hdot (List.mem_singleton.mp hmem)
    have hnormal : component piece = .normal piece := by
      rw [component, if_neg]
      rintro rfl
      simp [hdot] at hmem
    refine ⟨.normal piece, List.mem_append_right _ ?_, hmem⟩
    rw [body, ← hnormal]
    exact List.mem_map_of_mem (List.mem_filter.mpr ⟨hpiece, by simp [htrivial]⟩)
  · rintro ⟨x, hx, hmem⟩
    rcases List.mem_append.mp hx with hx | hx
    · unfold lead at hx
      split at hx
      · rw [List.mem_singleton.mp hx] at hmem
        cases hmem
      · split at hx
        · rw [List.mem_singleton.mp hx] at hmem
          cases hmem
        · cases hx
    · obtain ⟨piece, hpiece, rfl⟩ := List.mem_map.mp hx
      rw [component] at hmem
      split at hmem
      · cases hmem
      · exact mem_of_mem_splitOn (List.mem_filter.mp hpiece).1 hmem

theorem Same.mem_iff (h : Same p q) {c : OsChar} (hslash : c ≠ slash) (hdot : c ≠ dot) :
    c ∈ p ↔ c ∈ q := by
  rw [mem_iff_mem_components hslash hdot, mem_iff_mem_components hslash hdot, h]

end Pieces

end Paths

end Cargo.Util
