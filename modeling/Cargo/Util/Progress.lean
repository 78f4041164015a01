import Cargo.Core.Url
import Cargo.Math.Fitting
import Cargo.Math.Slice
import Mathlib.Data.Nat.Digits.Defs

/-!
# The line that shows the progress

The line has a bar, how far the work is, and as much of a message as there is room for. Bytes are
counted where the text is cut off, and columns where there has to be room; the characters of a
message may take any number of either.

The position at which a message that is too long is cut off is moved along with the message, as
long as an ellipsis fits after it. It starts at zero and not at the end of the bar. So if the first
character leaves no room for the ellipsis, then the bar is cut off too.

## Main definitions

* `Format.progress`, `Format.render` — the bar, and the message after it
* `RendersWell` — what the line is to be
* `FirstTooWide` — a message that is too long, whose first character leaves no room

## Main results

* `render_eq` — what the line is
* `rendersWell_iff` — when the line is right
-/

set_option autoImplicit false

namespace Cargo.Util.Progress

open Cargo.Core Cargo.Math

/-- The ways in which the code can panic. -/
inductive Panic
  | underflow
  /-- A text is cut off within a character. -/
  | charBoundary
  deriving DecidableEq, Repr

inductive ProgressStyle
  | percentage
  | ratio
  deriving DecidableEq

structure Format where
  style : ProgressStyle
  maxWidth : ℕ
  maxPrint : ℕ

/-- What is computed with floating point numbers, and the tables of Unicode: the percentage as
text, the length of the bar, and the columns that a character takes. -/
structure Env where
  percent : ℕ → ℕ → Text
  hashes : ℕ → ℕ → ℕ → ℕ
  charWidth : Char → Option ℕ

/-- The number of columns that a character takes. -/
def Env.columns (env : Env) (c : Char) : ℕ := (env.charWidth c).getD 0

/-- The number of columns that a text takes. -/
def Env.width (env : Env) (t : Text) : ℕ := totalWeight env.columns t

namespace Format

def width (format : Format) : ℕ := min format.maxWidth format.maxPrint

/-- The text to the right of the bar. -/
def stats (env : Env) (format : Format) (cur max : ℕ) : Text :=
  match format.style with
  | .percentage => ' ' :: env.percent cur max ++ ['%']
  | .ratio => ' ' :: Nat.toDigits 10 cur ++ '/' :: Nat.toDigits 10 max

/-- The `===>`. -/
def arrow (hashes cur max : ℕ) : Text :=
  if 0 < hashes then List.replicate (hashes - 1) '=' ++ [if cur = max then '=' else '>'] else []

def progress (env : Env) (format : Format) (cur max : ℕ) : Except Panic (Option Text) :=
  let stats := format.stats env cur max
  let extraLen := byteLen stats + 2 + 15
  if format.width < extraLen then .ok none
  else
    let displayWidth := format.width - extraLen
    let hashes := env.hashes displayWidth cur max
    if displayWidth < hashes then .error .underflow
    else
      .ok (some ('[' :: arrow hashes cur max ++ List.replicate (displayWidth - hashes) ' ' ++
        ']' :: stats))

/-- `String::truncate` -/
def truncate (t : Text) (len : ℕ) : Except Panic Text :=
  if len ≤ byteLen t then
    match splitAtByte t len with
    | none => .error .charBoundary
    | some parts => .ok parts.1
  else .ok t

/-- The loop over the characters of the message. -/
def appendMessage (env : Env) : ℕ → ℕ → Text → Text → Except Panic Text
  | _, _, string, [] => .ok string
  | avail, ellipsisPos, string, c :: msg =>
    let displayWidth := env.columns c
    if displayWidth ≤ avail then
      let avail := avail - displayWidth
      let string := string ++ [c]
      appendMessage env avail (if 3 ≤ avail then byteLen string else ellipsisPos) string msg
    else (truncate string ellipsisPos).map (· ++ "...".toList)

def render (env : Env) (format : Format) (string msg : Text) : Except Panic Text :=
  if format.maxWidth < byteLen string + 15 then .error .underflow
  else
    let avail := format.maxWidth - byteLen string - 15
    if avail ≤ 3 then .ok string else appendMessage env avail 0 string msg

end Format

/-! ### What the line is -/

section Render

variable {env : Env} {format : Format} {avail pos : ℕ} {string keep rest msg : Text} {c : Char}

theorem truncate_append (keep rest : Text) :
    Format.truncate (keep ++ rest) (byteLen keep) = .ok keep := by
  rw [Format.truncate, if_pos (by rw [byteLen_append]; omega), splitAtByte_append]

/-- Once there is no room for the ellipsis, the position stays. -/
theorem appendMessage_of_lt (env : Env) (keep rest msg : Text) (havail : avail < 3) :
    Format.appendMessage env avail (byteLen keep) (keep ++ rest) msg =
      .ok (if env.width msg ≤ avail then keep ++ rest ++ msg else keep ++ "...".toList) := by
  induction msg generalizing avail rest with
  | nil => simp [Format.appendMessage, Env.width]
  | cons c msg ih =>
    have hwidth : env.width (c :: msg) = env.columns c + env.width msg := totalWeight_cons
    rw [Format.appendMessage, hwidth]
    by_cases hc : env.columns c ≤ avail
    · have hiff : env.columns c + env.width msg ≤ avail ↔
          env.width msg ≤ avail - env.columns c := by omega
      have hrest := ih (rest ++ [c]) (by omega : avail - env.columns c < 3)
      simp only [List.append_assoc] at hrest ⊢
      simp only [if_pos hc, if_neg (by omega : ¬ 3 ≤ avail - env.columns c), hiff]
      exact hrest
    · rw [if_neg hc, if_neg (by omega), truncate_append]
      rfl

/-- As long as there is room for the ellipsis, the position is at the end. -/
theorem appendMessage_of_le (env : Env) (string msg : Text) (havail : 3 ≤ avail) :
    Format.appendMessage env avail (byteLen string) string msg =
      .ok (if env.width msg ≤ avail then string ++ msg
        else string ++ fitting env.columns (avail - 3) msg ++ "...".toList) := by
  induction msg generalizing avail string with
  | nil => simp [Format.appendMessage, Env.width]
  | cons c msg ih =>
    have hwidth : env.width (c :: msg) = env.columns c + env.width msg := totalWeight_cons
    rw [Format.appendMessage, hwidth]
    by_cases hc : env.columns c ≤ avail
    · have hiff : env.columns c + env.width msg ≤ avail ↔
          env.width msg ≤ avail - env.columns c := by omega
      by_cases hroom : 3 ≤ avail - env.columns c
      · have hle : env.columns c ≤ avail - 3 := by omega
        have hsub : avail - 3 - env.columns c = avail - env.columns c - 3 := by omega
        have hrest := ih (string ++ [c]) hroom
        rw [fitting_cons_of_le hle, hsub]
        simp only [if_pos hc, if_pos hroom, hiff]
        rw [hrest]
        simp
      · have hlt : avail - 3 < env.columns c := by omega
        have hrest := appendMessage_of_lt env string [c] msg
          (by omega : avail - env.columns c < 3)
        rw [fitting_cons_of_lt hlt]
        simp only [if_pos hc, if_neg hroom, hiff]
        rw [hrest]
        simp
    · have htruncate := truncate_append string []
      rw [List.append_nil] at htruncate
      rw [if_neg hc, if_neg (by omega), fitting_cons_of_lt (by omega), htruncate, List.append_nil]
      rfl

/-- The first character of the message is wider than the room there is. -/
def FirstTooWide (env : Env) (room : ℕ) (msg : Text) : Prop :=
  ∃ c rest, msg = c :: rest ∧ room < env.columns c

/-- The line, if there is room for a message: the bar is lost if the message is cut off before its
first character. -/
theorem render_eq (env : Env) (msg : Text) (h15 : byteLen string + 15 ≤ format.maxWidth)
    (havail : 3 < format.maxWidth - byteLen string - 15) :
    (env.width msg ≤ format.maxWidth - byteLen string - 15 →
      format.render env string msg = .ok (string ++ msg)) ∧
    (format.maxWidth - byteLen string - 15 < env.width msg →
      (FirstTooWide env (format.maxWidth - byteLen string - 15 - 3) msg →
        format.render env string msg = .ok "...".toList) ∧
      (¬ FirstTooWide env (format.maxWidth - byteLen string - 15 - 3) msg →
        format.render env string msg = .ok (string ++
          fitting env.columns (format.maxWidth - byteLen string - 15 - 3) msg ++
            "...".toList))) := by
  rw [Format.render, if_neg (by omega)]
  generalize format.maxWidth - byteLen string - 15 = avail at havail ⊢
  rw [if_neg (by omega)]
  cases msg with
  | nil =>
    refine ⟨fun _ => by simp [Format.appendMessage], ?_⟩
    intro hlt
    simp [Env.width] at hlt
  | cons c msg =>
    have hwidth : env.width (c :: msg) = env.columns c + env.width msg := totalWeight_cons
    have hfirst : FirstTooWide env (avail - 3) (c :: msg) ↔ avail - 3 < env.columns c := by
      constructor
      · rintro ⟨d, rest, heq, hd⟩
        cases heq
        exact hd
      · exact fun hd => ⟨c, msg, rfl, hd⟩
    rw [Format.appendMessage, hwidth, hfirst]
    by_cases hc : env.columns c ≤ avail
    · have hiff : env.width msg ≤ avail - env.columns c ↔
          env.columns c + env.width msg ≤ avail := by omega
      by_cases hroom : 3 ≤ avail - env.columns c
      · -- the position is behind the first character
        have hle : env.columns c ≤ avail - 3 := by omega
        have hsub : avail - 3 - env.columns c = avail - env.columns c - 3 := by omega
        have hrest := appendMessage_of_le env (string ++ [c]) msg hroom
        rw [fitting_cons_of_le hle, hsub]
        simp only [if_pos hc, if_pos hroom, hrest, hiff]
        refine ⟨fun hfits => by simp [hfits], fun hlong => ⟨fun hwide => by omega, fun _ => ?_⟩⟩
        rw [if_neg (by omega)]
        simp
      · -- the position stays at zero
        have hrest := appendMessage_of_lt env [] (string ++ [c]) msg
          (by omega : avail - env.columns c < 3)
        rw [List.nil_append, byteLen_nil] at hrest
        simp only [if_pos hc, if_neg hroom, hrest, hiff]
        refine ⟨fun hfits => by simp [hfits], fun hlong => ⟨fun _ => ?_, fun hnot => by omega⟩⟩
        rw [if_neg (by omega)]
        rfl
    -- the first character is beyond the line, and the position is still zero
    · have htruncate := truncate_append [] string
      rw [List.nil_append, byteLen_nil] at htruncate
      simp only [if_neg hc, htruncate]
      exact ⟨fun hfits => by omega, fun _ => ⟨fun _ => rfl, fun hnot => by omega⟩⟩

end Render

/-! ### The bar -/

/-- Characters of one byte and one column. -/
def Plain (t : Text) : Prop := ∀ c ∈ t, 0x20 ≤ c.toNat ∧ c.toNat ≤ 0x7E

/-- What is relied on: the printable characters of ASCII take one column each, and percentages
consist of them. -/
structure Env.Sound (env : Env) : Prop where
  charWidth : ∀ c : Char, 0x20 ≤ c.toNat → c.toNat ≤ 0x7E → env.charWidth c = some 1
  percent : ∀ cur max, Plain (env.percent cur max)

section Bar

variable {env : Env} {format : Format} {cur max hashes : ℕ} {string t : Text}

theorem Plain.append {t' : Text} (h : Plain t) (h' : Plain t') : Plain (t ++ t') := by
  intro c hc
  rcases List.mem_append.mp hc with hc | hc
  · exact h c hc
  · exact h' c hc

theorem Plain.cons {c : Char} (hc : 0x20 ≤ c.toNat ∧ c.toNat ≤ 0x7E) (h : Plain t) :
    Plain (c :: t) := by
  intro d hd
  rcases List.mem_cons.mp hd with rfl | hd
  · exact hc
  · exact h d hd

theorem plain_nil : Plain [] := fun _ hc => absurd hc List.not_mem_nil

theorem plain_replicate (n : ℕ) {c : Char} (hc : 0x20 ≤ c.toNat ∧ c.toNat ≤ 0x7E) :
    Plain (List.replicate n c) := by
  intro d hd
  rw [List.eq_of_mem_replicate hd]
  exact hc

theorem plain_toDigits (n : ℕ) : Plain (Nat.toDigits 10 n) := by
  intro c hc
  have hdigit := Nat.isDigit_of_mem_toDigits (by omega) (by omega) hc
  simp only [Char.isDigit, Bool.and_eq_true, decide_eq_true_eq, ge_iff_le, UInt32.le_iff_toNat_le]
    at hdigit
  obtain ⟨hlo, hhi⟩ := hdigit
  change 48 ≤ c.toNat at hlo
  change c.toNat ≤ 57 at hhi
  omega

theorem Plain.byteLen_eq (h : Plain t) : byteLen t = t.length := by
  apply byteLen_of_ascii
  intro c hc
  have := (h c hc).2
  omega

theorem Plain.width_eq (h : Plain t) (henv : env.Sound) : env.width t = t.length := by
  induction t with
  | nil => rfl
  | cons c t ih =>
    have hc := h c List.mem_cons_self
    have hone : env.columns c = 1 := by
      rw [Env.columns, henv.charWidth c hc.1 hc.2]
      rfl
    have hrest := ih fun d hd => h d (List.mem_cons_of_mem _ hd)
    rw [Env.width, totalWeight_cons, hone, List.length_cons]
    rw [Env.width] at hrest
    omega

theorem plain_stats (henv : env.Sound) : Plain (format.stats env cur max) := by
  unfold Format.stats
  split
  · exact .cons (by decide) ((henv.percent cur max).append (.cons (by decide) plain_nil))
  · exact .cons (by decide) ((plain_toDigits cur).append (.cons (by decide) (plain_toDigits max)))

theorem plain_arrow (hashes cur max : ℕ) : Plain (Format.arrow hashes cur max) := by
  unfold Format.arrow
  split
  · apply (plain_replicate _ (by decide)).append
    split <;> exact .cons (by decide) plain_nil
  · exact plain_nil

theorem length_arrow : (Format.arrow hashes cur max).length = hashes := by
  unfold Format.arrow
  split
  · simp
    omega
  · simp
    omega

/-- The bar takes as many columns as bytes, and leaves fifteen columns free. -/
theorem progress_spec (henv : env.Sound)
    (h : format.progress env cur max = .ok (some string)) :
    Plain string ∧ byteLen string + 15 = format.width ∧ string ≠ [] := by
  have hstats : Plain (format.stats env cur max) := plain_stats henv
  unfold Format.progress at h
  dsimp only at h
  split at h
  · cases h
  · split at h
    · cases h
    · rename_i hwidth hhashes
      rw [hstats.byteLen_eq] at h hwidth hhashes
      generalize env.hashes _ cur max = hashes at h hhashes
      simp only [Except.ok.injEq, Option.some.injEq] at h
      subst h
      have hbar := Plain.cons (c := '[') (by decide) (plain_arrow hashes cur max)
      have hempty := plain_replicate (c := ' ')
        (format.width - ((format.stats env cur max).length + 2 + 15) - hashes) (by decide)
      have hplain := (hbar.append hempty).append (.cons (c := ']') (by decide) hstats)
      refine ⟨hplain, ?_, by simp⟩
      rw [hplain.byteLen_eq]
      simp only [List.length_append, List.length_cons, List.length_replicate, length_arrow]
      omega

end Bar

/-! ### When the line is right -/

/-- What the line is to be: the bar, and after it nothing if there is room for three columns only;
else the message, if it fits; else the longest prefix of it that leaves room for an ellipsis, and
the ellipsis. -/
structure Line (env : Env) (columns : ℕ) (string msg result : Text) : Prop where
  isPrefix : string <+: result
  nothing : columns - env.width string ≤ 3 → result = string
  whole : 3 < columns - env.width string → env.width (string ++ msg) ≤ columns →
    result = string ++ msg
  ellipsis : 3 < columns - env.width string → columns < env.width (string ++ msg) →
    ∃ p, LongestFit env.columns (columns - env.width string - 3) msg p ∧
      result = string ++ p ++ "...".toList
  width_le : env.width result ≤ columns

/-- The message is added without a panic, and the line is right. -/
def RendersWell (env : Env) (format : Format) (string msg : Text) : Prop :=
  ∃ result, format.render env string msg = .ok result ∧
    Line env (format.maxWidth - 15) string msg result

theorem width_append (env : Env) (t t' : Text) :
    env.width (t ++ t') = env.width t + env.width t' := totalWeight_append

section RendersWell

variable {env : Env} {format : Format} {cur max : ℕ} {string msg : Text}

theorem width_ellipsis (henv : env.Sound) : env.width "...".toList = 3 := by
  have hplain : Plain "...".toList := plain_replicate 3 (by decide)
  exact hplain.width_eq henv

/-- For every bar and every message: the line is right, unless there is room for an ellipsis, the
message is too long, and its first character leaves no room for the ellipsis. -/
theorem rendersWell_iff (henv : env.Sound)
    (hstring : format.progress env cur max = .ok (some string)) (msg : Text) :
    RendersWell env format string msg ↔
      ¬ (3 < format.maxWidth - 15 - env.width string ∧
        format.maxWidth - 15 < env.width (string ++ msg) ∧
        FirstTooWide env (format.maxWidth - 15 - env.width string - 3) msg) := by
  obtain ⟨hplain, hbytes, hne⟩ := progress_spec henv hstring
  have hle : format.width ≤ format.maxWidth := Nat.min_le_left _ _
  have hcolumns : env.width string = byteLen string := by
    rw [hplain.width_eq henv, hplain.byteLen_eq]
  have hroom : format.maxWidth - byteLen string - 15 =
      format.maxWidth - 15 - env.width string := by omega
  have hstring15 : env.width string ≤ format.maxWidth - 15 := by omega
  by_cases havail : 3 < format.maxWidth - 15 - env.width string
  · obtain ⟨hfits, hlong⟩ := render_eq env msg
      (by omega : byteLen string + 15 ≤ format.maxWidth) (by omega)
    rw [hroom] at hfits hlong
    by_cases hwhole : env.width (string ++ msg) ≤ format.maxWidth - 15
    -- the whole message fits
    · have hmsg : env.width msg ≤ format.maxWidth - 15 - env.width string := by
        rw [width_append] at hwhole
        omega
      refine iff_of_true ⟨_, hfits hmsg, List.prefix_append _ _, fun h => by omega,
        fun _ _ => rfl, fun _ h => by omega, hwhole⟩ fun h => by omega
    · have hmsg : format.maxWidth - 15 - env.width string < env.width msg := by
        rw [width_append] at hwhole
        omega
      obtain ⟨hwide, hnarrow⟩ := hlong hmsg
      by_cases hfirst : FirstTooWide env (format.maxWidth - 15 - env.width string - 3) msg
      · -- the bar is not a prefix of the ellipsis
        refine iff_of_false ?_ (not_not.mpr ⟨havail, by omega, hfirst⟩)
        rintro ⟨result, hresult, hline⟩
        obtain ⟨p, -, heq⟩ := hline.ellipsis havail (by omega)
        rw [hwide hfirst, Except.ok.injEq] at hresult
        have hlength := congrArg List.length (hresult.trans heq)
        simp only [List.length_append] at hlength
        have hpos := List.length_pos_iff.mpr hne
        omega
      · have hfit := longestFit_fitting env.columns
          (format.maxWidth - 15 - env.width string - 3) msg
        refine iff_of_true ⟨_, hnarrow hfirst, ?_, fun h => by omega, fun _ h => by omega,
          fun _ _ => ⟨_, hfit, rfl⟩, ?_⟩ fun h => hfirst h.2.2
        · rw [List.append_assoc]
          exact List.prefix_append _ _
        · have hwidth : env.width (fitting env.columns _ msg) ≤ _ := hfit.fits
          rw [width_append, width_append, width_ellipsis henv]
          omega
  -- no room for a message: the bar alone
  · refine iff_of_true ⟨string, ?_, List.prefix_rfl, fun _ => rfl, fun h => absurd h havail,
      fun h => absurd h havail, hstring15⟩ fun h => havail h.1
    rw [Format.render, if_neg (by omega)]
    exact if_pos (by omega)

end RendersWell

/-! ### A narrow terminal -/

/-- Only wide characters of one kind, and no percentages. -/
def plainEnv : Env where
  percent _ _ := []
  hashes displayWidth cur max := displayWidth * cur / max
  charWidth c := some (if c = '漢' then 2 else 1)

theorem plainEnv_sound : plainEnv.Sound where
  charWidth := by
    intro c _ hc
    have hne : c ≠ '漢' := by
      rintro rfl
      revert hc
      decide
    simp [plainEnv, hne]
  percent _ _ := plain_nil

def halfBar : Text := "[=>   ] 2/4".toList

/-- Half a bar, and a message that is cut off before its second wide character. -/
theorem halfBar_renders : RendersWell plainEnv ⟨.ratio, 31, 26⟩ halfBar "漢漢漢".toList := by
  have hstring : (⟨.ratio, 31, 26⟩ : Format).progress plainEnv 2 4 = .ok (some halfBar) := by
    decide
  refine (rendersWell_iff plainEnv_sound hstring _).mpr ?_
  rintro ⟨-, -, c, rest, hmsg, hwide⟩
  cases hmsg
  revert hwide
  decide

/-- Four columns are left, and the message starts with a character of two. -/
theorem bar_lost : (⟨.ratio, 30, 26⟩ : Format).progress plainEnv 2 4 = .ok (some halfBar) ∧
    ¬ RendersWell plainEnv ⟨.ratio, 30, 26⟩ halfBar "漢漢漢".toList := by
  refine ⟨by decide, ?_⟩
  rintro ⟨result, hresult, hline⟩
  have hlost : Format.render plainEnv ⟨.ratio, 30, 26⟩ halfBar "漢漢漢".toList =
      .ok "...".toList := by
    decide
  rw [hlost, Except.ok.injEq] at hresult
  have hprefix := hline.isPrefix
  rw [← hresult] at hprefix
  revert hprefix
  decide

end Cargo.Util.Progress
