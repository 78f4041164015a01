import Mathlib.Data.List.Basic
import Mathlib.Tactic.IntervalCases

/-!
# Percent-encoding and form decoding

A text is put into a url by percent-encoding some of its characters, and read back by form
decoding: `+` stands for a space, `%XX` for a byte, and what comes out is read as UTF-8 with
a replacement character for whatever is broken. The two are not inverse to each other:
encoding leaves a `+` and a `%` that is in the text already as they are. Decoding never
makes a text longer, and it gives back the text that was encoded exactly when the text has
no `+` and no escape of its own.

## Main definitions

* `lossy` — reading bytes as UTF-8
* `percentEncode`, `formDecode`
* `HasEscape` — a `%` followed by two hexadecimal digits

## Main results

* `lossy_append` — bytes are read in pieces that start with the start of a character
* `length_formDecode_percentEncode_le`
* `formDecode_percentEncode_eq_iff`
-/

set_option autoImplicit false

namespace Cargo.Math

open String (utf8EncodeChar)

/-! ### Reading bytes as UTF-8 -/

/-- A byte that continues a character. -/
def continues (b : UInt8) : Bool := 0x80 ≤ b ∧ b ≤ 0xBF

/-- May the second byte follow the first, in a character of three or four bytes? -/
def mayFollow (b b' : UInt8) : Bool :=
  continues b' ∧ (b = 0xE0 → 0xA0 ≤ b') ∧ (b = 0xED → b' ≤ 0x9F) ∧ (b = 0xF0 → 0x90 ≤ b') ∧
    (b = 0xF4 → b' ≤ 0x8F)

/-- How many bytes at the front of a byte sequence that starts with no character are replaced
at once: as many as could start one. -/
def brokenLength : List UInt8 → ℕ
  | b :: b' :: rest =>
    if 0xE0 ≤ b ∧ b ≤ 0xF4 ∧ mayFollow b b' then
      if 0xF0 ≤ b ∧ rest.head?.any continues then 3 else 2
    else 1
  | _ => 1

/-- Reading bytes as UTF-8, at most `n` characters of it. -/
def lossyAux : ℕ → List UInt8 → List Char
  | 0, _ => []
  | _ + 1, [] => []
  | n + 1, b :: bs =>
    match (b :: bs).toByteArray.utf8DecodeChar? 0 with
    | some c => c :: lossyAux n ((b :: bs).drop c.utf8Size)
    | none => '\uFFFD' :: lossyAux n ((b :: bs).drop (brokenLength (b :: bs)))

/-- Reading bytes as UTF-8, with a replacement character for what is broken. -/
def lossy (bytes : List UInt8) : List Char := lossyAux bytes.length bytes

/-- What holds of all bytes of a range. -/
theorem forall_bytes {P : UInt8 → Prop} (lo n : ℕ) (h : ∀ i : Fin n, P (.ofNat (lo + i)))
    {b : UInt8} (hlo : lo ≤ b.toNat) (hhi : b.toNat < lo + n) : P b := by
  have hb := h ⟨b.toNat - lo, by omega⟩
  rwa [Nat.add_sub_cancel' hlo, UInt8.ofNat_toNat] at hb

theorem first_of_range (b : UInt8) (h : 0xE0 ≤ b ∧ b ≤ 0xF4) : b.IsUTF8FirstByte := by
  simp only [UInt8.le_iff_toNat_le, UInt8.reduceToNat] at h
  exact forall_bytes 224 21 (by decide) h.1 (by omega)

theorem not_first_of_continues (b : UInt8) (h : continues b) : ¬ b.IsUTF8FirstByte := by
  simp only [continues, decide_eq_true_eq, UInt8.le_iff_toNat_le, UInt8.reduceToNat] at h
  exact forall_bytes (P := fun b => ¬ b.IsUTF8FirstByte) 128 64 (by decide) h.1 (by omega)

theorem brokenLength_pos (bs : List UInt8) : 0 < brokenLength bs := by
  unfold brokenLength
  split
  · split_ifs <;> decide
  · decide

/-- A byte that no character starts with is replaced alone. -/
theorem brokenLength_of_not_first {b : UInt8} (h : ¬ b.IsUTF8FirstByte) (bs : List UInt8) :
    brokenLength (b :: bs) = 1 := by
  cases bs with
  | nil => rfl
  | cons b' rest =>
    rw [brokenLength, if_neg]
    rintro ⟨hlo, hhi, -⟩
    exact h (first_of_range b ⟨hlo, hhi⟩)

/-- No character starts with a byte that is replaced together with the one before. -/
theorem not_first_of_mem_take_brokenLength {b x : UInt8} {bs : List UInt8}
    (h : x ∈ bs.take (brokenLength (b :: bs) - 1)) : ¬ x.IsUTF8FirstByte := by
  cases bs with
  | nil => simp at h
  | cons b' rest =>
    simp only [brokenLength] at h
    split_ifs at h with h₁ h₂
    · have hb' : continues b' := by
        have := h₁.2.2
        simp only [mayFollow, Bool.decide_and, Bool.and_eq_true, decide_eq_true_eq] at this
        exact this.1
      rcases rest with _ | ⟨b'', rest⟩
      · simp at h₂
      · simp only [Nat.add_one_sub_one, List.take_succ_cons, List.take_zero, List.mem_cons,
          List.not_mem_nil, or_false] at h
        rcases h with rfl | rfl
        · exact not_first_of_continues _ hb'
        · exact not_first_of_continues _ (by simpa using h₂.2)
    · have hb' : continues b' := by
        have := h₁.2.2
        simp only [mayFollow, Bool.decide_and, Bool.and_eq_true, decide_eq_true_eq] at this
        exact this.1
      simp only [Nat.add_one_sub_one, List.take_succ_cons, List.take_zero, List.mem_cons,
        List.not_mem_nil, or_false] at h
      exact h ▸ not_first_of_continues _ hb'
    · simp at h

theorem lossyAux_congr (n m : ℕ) (bs : List UInt8) (hn : bs.length ≤ n) (hm : bs.length ≤ m) :
    lossyAux n bs = lossyAux m bs := by
  induction n generalizing m bs with
  | zero =>
    obtain rfl : bs = [] := List.length_eq_zero_iff.mp (Nat.le_zero.mp hn)
    cases m <;> rfl
  | succ n ih =>
    cases bs with
    | nil => cases m <;> rfl
    | cons b bs =>
      cases m with
      | zero => simp at hm
      | succ m =>
        simp only [List.length_cons, Nat.add_le_add_iff_right] at hn hm
        simp only [lossyAux]
        split
        · rename_i c _
          have hc := c.utf8Size_pos
          rw [ih m _ (by simp; omega) (by simp; omega)]
        · have hb := brokenLength_pos (b :: bs)
          rw [ih m _ (by simp; omega) (by simp; omega)]

theorem lossy_of_decode {b : UInt8} {bs : List UInt8} {c : Char}
    (h : (b :: bs).toByteArray.utf8DecodeChar? 0 = some c) :
    lossy (b :: bs) = c :: lossy ((b :: bs).drop c.utf8Size) := by
  have hc := c.utf8Size_pos
  rw [lossy, List.length_cons, lossyAux, h]
  exact congrArg (c :: ·) (lossyAux_congr _ _ _ (by simp; omega) le_rfl)

theorem lossy_of_broken {b : UInt8} {bs : List UInt8}
    (h : (b :: bs).toByteArray.utf8DecodeChar? 0 = none) :
    lossy (b :: bs) = '\uFFFD' :: lossy ((b :: bs).drop (brokenLength (b :: bs))) := by
  have hb := brokenLength_pos (b :: bs)
  rw [lossy, List.length_cons, lossyAux, h]
  exact congrArg ('\uFFFD' :: ·) (lossyAux_congr _ _ _ (by simp; omega) le_rfl)

/-- The bytes of a character after the first start no character. -/
theorem not_first_of_mem_tail (c : Char) {x : UInt8} (h : x ∈ (utf8EncodeChar c).tail) :
    ¬ x.IsUTF8FirstByte := by
  obtain ⟨i, hi, rfl⟩ := List.mem_iff_getElem.mp h
  rw [List.getElem_tail, UInt8.isUTF8FirstByte_getElem_utf8EncodeChar]
  omega

/-- A character at the front is read as it is. -/
theorem lossy_char (c : Char) (bs : List UInt8) :
    lossy (utf8EncodeChar c ++ bs) = c :: lossy bs := by
  have hdecode : (utf8EncodeChar c ++ bs).toByteArray.utf8DecodeChar? 0 = some c := by
    have h := @List.utf8DecodeChar?_utf8Encode_singleton_append bs.toByteArray c
    rwa [List.utf8Encode_singleton, ← List.toByteArray_append] at h
  have hlength := String.length_utf8EncodeChar c
  have hpos := c.utf8Size_pos
  cases hbytes : utf8EncodeChar c ++ bs with
  | nil =>
    have hempty := congrArg List.length hbytes
    simp only [List.length_append, List.length_nil] at hempty
    omega
  | cons b rest =>
    rw [hbytes] at hdecode
    rw [lossy_of_decode hdecode, ← hbytes, ← hlength, List.drop_left]

/-- One step of the reading: the bytes it takes besides the first start no character. -/
theorem lossy_cons (b : UInt8) (bs : List UInt8) :
    ∃ c k, lossy (b :: bs) = c :: lossy (bs.drop k) ∧
      ∀ x ∈ bs.take k, ¬ x.IsUTF8FirstByte := by
  cases hdecode : (b :: bs).toByteArray.utf8DecodeChar? 0 with
  | some c =>
    refine ⟨c, c.utf8Size - 1, ?_, ?_⟩
    · rw [lossy_of_decode hdecode]
      obtain ⟨n, hn⟩ := Nat.exists_eq_succ_of_ne_zero c.utf8Size_pos.ne'
      simp [hn]
    · intro x hx
      have hbytes := congrArg (fun a => a.data.toList)
        (ByteArray.eq_of_utf8DecodeChar?_eq_some hdecode)
      simp only [List.toList_data_toByteArray, ByteArray.data_append, Array.toList_append] at hbytes
      apply not_first_of_mem_tail c
      have htail := congrArg List.tail hbytes
      have hne : utf8EncodeChar c ≠ [] := by
        have := c.utf8Size_pos
        rw [← String.length_utf8EncodeChar] at this
        exact List.ne_nil_of_length_pos this
      rw [List.tail_cons, List.tail_append_of_ne_nil hne] at htail
      rw [htail, List.take_append_of_le_length (by simp)] at hx
      exact List.mem_of_mem_take hx
  | none =>
    refine ⟨'\uFFFD', brokenLength (b :: bs) - 1, ?_,
      fun x hx => not_first_of_mem_take_brokenLength hx⟩
    rw [lossy_of_broken hdecode]
    obtain ⟨n, hn⟩ := Nat.exists_eq_succ_of_ne_zero (brokenLength_pos (b :: bs)).ne'
    simp [hn]

theorem not_continues_of_first {b : UInt8} (h : b.IsUTF8FirstByte) : continues b = false := by
  by_contra hne
  exact not_first_of_continues b (by simpa using hne) h

/-- What is replaced at once ends before a byte that starts a character. -/
theorem brokenLength_append {b : UInt8} (hb : b.IsUTF8FirstByte) (x : UInt8)
    (xs bs : List UInt8) : brokenLength (x :: xs ++ b :: bs) = brokenLength (x :: xs) := by
  have hcontinues := not_continues_of_first hb
  rcases xs with _ | ⟨y, _ | ⟨z, xs⟩⟩
  · simp [brokenLength, mayFollow, hcontinues]
  · simp [brokenLength, hcontinues]
  · rfl

theorem brokenLength_le_length (x : UInt8) (xs : List UInt8) :
    brokenLength (x :: xs) ≤ (x :: xs).length := by
  rcases xs with _ | ⟨y, _ | ⟨z, xs⟩⟩
  · simp [brokenLength]
  · simp only [brokenLength, List.head?_nil, Option.any_none, Bool.false_eq_true, and_false,
      if_false, List.length_cons, List.length_nil]
    split_ifs <;> omega
  · simp only [brokenLength, List.length_cons]
    split_ifs <;> omega

/-- A character at the front of two pieces is within the first, if the second starts with a byte
that starts a character. -/
theorem exists_of_decode_append {b : UInt8} (hb : b.IsUTF8FirstByte) {x : UInt8}
    {xs bs : List UInt8} {c : Char}
    (h : (x :: xs ++ b :: bs).toByteArray.utf8DecodeChar? 0 = some c) :
    ∃ rest, x :: xs = utf8EncodeChar c ++ rest := by
  obtain ⟨rest, hrest⟩ := ByteArray.exists_of_utf8DecodeChar?_eq_some h
  have hbytes := congrArg (fun a => a.data.toList) hrest
  simp only [List.toList_data_toByteArray, ByteArray.data_append, Array.toList_append] at hbytes
  rcases List.append_eq_append_iff.mp hbytes with ⟨mid, hmid, hend⟩ | ⟨mid, hmid, -⟩
  · cases mid with
    | nil => exact ⟨[], by rw [List.append_nil, hmid, List.append_nil]⟩
    | cons b' mid =>
      -- the second piece would start within the character
      obtain ⟨rfl, -⟩ := List.cons.inj hend
      have htail : b ∈ (utf8EncodeChar c).tail := by
        rw [hmid]
        simp
      exact absurd hb (not_first_of_mem_tail c htail)
  · exact ⟨mid, hmid⟩

/-- Bytes can be read in two pieces if the second starts with a byte that starts a character. -/
theorem lossy_append {b : UInt8} (hb : b.IsUTF8FirstByte) (xs bs : List UInt8) :
    lossy (xs ++ b :: bs) = lossy xs ++ lossy (b :: bs) := by
  induction hn : xs.length using Nat.strong_induction_on generalizing xs with
  | _ n ih =>
    cases xs with
    | nil => rfl
    | cons x xs =>
      cases hdecode : (x :: xs ++ b :: bs).toByteArray.utf8DecodeChar? 0 with
      | some c =>
        obtain ⟨rest, hrest⟩ := exists_of_decode_append hb hdecode
        have hlength := congrArg List.length hrest
        rw [List.length_append, String.length_utf8EncodeChar] at hlength
        have hpos := c.utf8Size_pos
        rw [hrest, List.append_assoc, lossy_char, lossy_char, List.cons_append,
          ih rest.length (by omega) rest rfl]
      | none =>
        have hdecode' : (x :: xs).toByteArray.utf8DecodeChar? 0 = none := by
          by_contra hne
          obtain ⟨c, hc⟩ := Option.ne_none_iff_exists'.mp hne
          rw [List.toByteArray_append, ByteArray.utf8DecodeChar?_append_eq_some hc] at hdecode
          cases hdecode
        have hle := brokenLength_le_length x xs
        have hpos := brokenLength_pos (x :: xs)
        have hwhole : lossy (x :: (xs ++ b :: bs)) = _ := lossy_of_broken hdecode
        rw [← List.cons_append, brokenLength_append hb, List.drop_append_of_le_length hle] at hwhole
        rw [hwhole, lossy_of_broken hdecode', List.cons_append]
        congr 1
        apply ih _ _ _ rfl
        rw [List.length_drop]
        omega

/-- Bytes can be read line by line. -/
theorem lossy_append_newline (xs bs : List UInt8) :
    lossy (xs ++ 10 :: bs) = lossy xs ++ '\n' :: lossy bs := by
  have hnewline : lossy (10 :: bs) = '\n' :: lossy bs := lossy_char '\n' bs
  rw [lossy_append (by decide), hnewline]

/-- A byte that starts no character, at the front, is replaced. -/
theorem lossy_of_not_first {b : UInt8} (h : ¬ b.IsUTF8FirstByte) (bs : List UInt8) :
    lossy (b :: bs) = '\uFFFD' :: lossy bs := by
  have hdecode : (b :: bs).toByteArray.utf8DecodeChar? 0 = none := by
    by_contra hne
    have hfirst := ByteArray.isUTF8FirstByte_of_isSome_utf8DecodeChar?
      (Option.isSome_iff_ne_none.mpr hne)
    rw [List.getElem_toByteArray] at hfirst
    exact h hfirst
  rw [lossy_of_broken hdecode, brokenLength_of_not_first h]
  rfl

theorem lossy_stray_append {xs : List UInt8} (h : ∀ x ∈ xs, ¬ x.IsUTF8FirstByte)
    (bs : List UInt8) : (lossy (xs ++ bs)).length = xs.length + (lossy bs).length := by
  induction xs with
  | nil => simp
  | cons x xs ih =>
    have htail := ih fun y hy => h y (List.mem_cons_of_mem _ hy)
    rw [List.cons_append, lossy_of_not_first (h x List.mem_cons_self), List.length_cons, htail,
      List.length_cons]
    omega

/-- A byte more gives at most one character more. -/
theorem length_lossy_cons_le (b : UInt8) (bs : List UInt8) :
    (lossy (b :: bs)).length ≤ (lossy bs).length + 1 := by
  obtain ⟨c, k, hstep, hstray⟩ := lossy_cons b bs
  have hrest := lossy_stray_append hstray (bs.drop k)
  rw [List.take_append_drop] at hrest
  rw [hstep, List.length_cons]
  omega

/-! ### Escapes -/

/-- The hexadecimal digit of a number below sixteen. -/
def hexDigit (n : UInt8) : Char := if n < 10 then Char.ofUInt8 (48 + n) else Char.ofUInt8 (55 + n)

/-- The value of a hexadecimal digit. -/
def hexValue (b : UInt8) : Option UInt8 :=
  if 48 ≤ b ∧ b ≤ 57 then some (b - 48)
  else if 65 ≤ b ∧ b ≤ 70 then some (b - 55)
  else if 97 ≤ b ∧ b ≤ 102 then some (b - 87)
  else none

theorem high_lt (b : UInt8) : b / 16 < 16 := by
  rw [UInt8.lt_iff_toNat_lt, UInt8.toNat_div]
  have := b.toNat_lt
  simp only [UInt8.reduceToNat]
  omega

theorem low_lt (b : UInt8) : b % 16 < 16 := by
  rw [UInt8.lt_iff_toNat_lt, UInt8.toNat_mod]
  exact Nat.mod_lt _ (by decide)

/-- What holds of all digits. -/
theorem forall_digits {P : UInt8 → Prop} (h : ∀ i : Fin 16, P (.ofNat (0 + i))) {n : UInt8}
    (hn : n < 16) : P n := by
  simp only [UInt8.lt_iff_toNat_lt, UInt8.reduceToNat] at hn
  exact forall_bytes 0 16 h (Nat.zero_le _) (by omega)

theorem hexValue_hexDigit {n : UInt8} (h : n < 16) :
    hexValue (hexDigit n).toUInt8 = some n :=
  forall_digits (P := fun n => hexValue (hexDigit n).toUInt8 = some n) (by decide) h

theorem hexValue_of_le {b : UInt8} (h : 128 ≤ b) : hexValue b = none := by
  simp only [UInt8.le_iff_toNat_le, UInt8.reduceToNat] at h
  simp only [hexValue, UInt8.le_iff_toNat_le, UInt8.reduceToNat]
  rw [if_neg (by omega), if_neg (by omega), if_neg (by omega)]

/-- Is the character a hexadecimal digit? -/
def isHex (c : Char) : Bool := c.toNat < 128 && (hexValue c.toUInt8).isSome

/-- What holds of all ASCII characters. -/
theorem forall_ascii {P : Char → Prop} (h : ∀ n : Fin 128, P (Char.ofNat n)) {c : Char}
    (hc : c.toNat < 128) : P c := by
  have hn := h ⟨c.toNat, hc⟩
  rwa [Char.ofNat_toNat] at hn

theorem ascii_of_isHex {c : Char} (h : isHex c) : c.toNat < 128 := by
  simp only [isHex, Bool.and_eq_true, decide_eq_true_eq] at h
  exact h.1

/-- What holds of all hexadecimal digits. -/
theorem forall_isHex {P : Char → Prop}
    (h : ∀ n : Fin 128, isHex (Char.ofNat n) → P (Char.ofNat n)) {c : Char} (hc : isHex c) :
    P c :=
  forall_ascii (P := fun c => isHex c → P c) h (ascii_of_isHex hc) hc

/-- A byte as an escape. -/
def percentEncodeByte (b : UInt8) : List Char := ['%', hexDigit (b / 16), hexDigit (b % 16)]

/-- A text with the characters of `encoded` written as escapes. -/
def percentEncode (encoded : Char → Bool) (t : List Char) : List Char :=
  t.flatMap fun c => if encoded c then (utf8EncodeChar c).flatMap percentEncodeByte else [c]

/-- The byte of the escape that starts with `b`, if there is one. -/
def escapeAt (b : UInt8) : List UInt8 → Option UInt8
  | h :: l :: _ => if b = 37 then do return (← hexValue h) * 16 + (← hexValue l) else none
  | _ => none

/-- Escapes replaced by their bytes, after `skip` bytes that belong to the last one. -/
def percentDecodeAux : ℕ → List UInt8 → List UInt8
  | _, [] => []
  | skip + 1, _ :: bs => percentDecodeAux skip bs
  | 0, b :: bs =>
    match escapeAt b bs with
    | some x => x :: percentDecodeAux 2 bs
    | none => b :: percentDecodeAux 0 bs

/-- Escapes replaced by their bytes. -/
def percentDecode (bs : List UInt8) : List UInt8 := percentDecodeAux 0 bs

/-- A plus sign stands for a space. -/
def plusToSpace (b : UInt8) : UInt8 := if b = 43 then 32 else b

/-- Form decoding of a text. -/
def formDecode (t : List Char) : List Char :=
  lossy (percentDecode ((t.flatMap utf8EncodeChar).map plusToSpace))

/-- Does a text start with an escape? -/
def startsEscape : List Char → Bool
  | c :: h :: l :: _ => c = '%' && isHex h && isHex l
  | _ => false

/-- Does a text have an escape in it? -/
def HasEscape (t : List Char) : Bool := t.tails.any startsEscape

theorem percentDecodeAux_skip (k : ℕ) (bs : List UInt8) :
    percentDecodeAux k bs = percentDecode (bs.drop k) := by
  induction bs generalizing k with
  | nil => cases k <;> simp [percentDecode, percentDecodeAux]
  | cons b bs ih =>
    cases k with
    | zero => rfl
    | succ k => simpa [percentDecodeAux] using ih k

theorem percentDecode_escape {b x : UInt8} {bs : List UInt8} (h : escapeAt b bs = some x) :
    percentDecode (b :: bs) = x :: percentDecode (bs.drop 2) := by
  rw [percentDecode, percentDecodeAux, h]
  simp [percentDecodeAux_skip]

theorem percentDecode_literal {b : UInt8} {bs : List UInt8} (h : escapeAt b bs = none) :
    percentDecode (b :: bs) = b :: percentDecode bs := by
  rw [percentDecode, percentDecodeAux, h]
  rfl

theorem escapeAt_of_ne {b : UInt8} (h : b ≠ 37) (bs : List UInt8) : escapeAt b bs = none := by
  unfold escapeAt
  split
  · simp [h]
  · rfl

theorem percentDecode_append_of_ne {xs : List UInt8} (h : ∀ x ∈ xs, x ≠ 37) (bs : List UInt8) :
    percentDecode (xs ++ bs) = xs ++ percentDecode bs := by
  induction xs with
  | nil => rfl
  | cons x xs ih =>
    rw [List.cons_append, percentDecode_literal (escapeAt_of_ne (h x List.mem_cons_self) _),
      ih fun y hy => h y (List.mem_cons_of_mem _ hy), List.cons_append]

/-- The byte of an escape is read back. -/
theorem percentDecode_percentEncodeByte (b : UInt8) (bs : List UInt8) :
    percentDecode (((percentEncodeByte b).flatMap utf8EncodeChar).map plusToSpace ++ bs) =
      b :: percentDecode bs := by
  have hdigit : ∀ n : UInt8, n < 16 →
      (utf8EncodeChar (hexDigit n)).map plusToSpace = [(hexDigit n).toUInt8] := fun n hn =>
    forall_digits
      (P := fun n => (utf8EncodeChar (hexDigit n)).map plusToSpace = [(hexDigit n).toUInt8])
      (by decide) hn
  have hbytes : ((percentEncodeByte b).flatMap utf8EncodeChar).map plusToSpace =
      [37, (hexDigit (b / 16)).toUInt8, (hexDigit (b % 16)).toUInt8] := by
    rw [percentEncodeByte, List.flatMap_cons, List.flatMap_cons, List.flatMap_singleton,
      List.map_append, List.map_append, hdigit _ (high_lt b), hdigit _ (low_lt b)]
    rfl
  have hsum : b / 16 * 16 + b % 16 = b := by
    apply UInt8.toNat_inj.mp
    have := b.toNat_lt
    simp only [UInt8.toNat_add, UInt8.toNat_mul, UInt8.toNat_div, UInt8.toNat_mod,
      UInt8.reduceToNat]
    omega
  have hescape : escapeAt 37 ((hexDigit (b / 16)).toUInt8 :: (hexDigit (b % 16)).toUInt8 :: bs) =
      some b := by
    simp only [escapeAt, if_true, hexValue_hexDigit (high_lt b), hexValue_hexDigit (low_lt b)]
    exact congrArg some hsum
  rw [hbytes]
  exact percentDecode_escape hescape

/-! ### Bytes of characters -/

theorem utf8EncodeChar_ascii {c : Char} (h : c.toNat < 128) :
    utf8EncodeChar c = [c.toUInt8] := by
  unfold utf8EncodeChar
  rw [if_pos (show c.val.toNat ≤ 127 by exact Nat.le_of_lt_succ h)]
  rfl

/-- The bytes of a character that is not ASCII are not ASCII. -/
theorem le_of_mem_utf8EncodeChar {c : Char} (h : 128 ≤ c.toNat) {b : UInt8}
    (hb : b ∈ utf8EncodeChar c) : 128 ≤ b := by
  have hval : ¬ c.val.toNat ≤ 127 := by
    change 128 ≤ c.val.toNat at h
    omega
  unfold utf8EncodeChar at hb
  rw [if_neg hval] at hb
  rw [UInt8.le_iff_toNat_le]
  split_ifs at hb <;>
    (simp only [List.mem_cons, List.not_mem_nil, or_false] at hb
     rcases hb with rfl | rfl | rfl | rfl <;> simp <;> omega)

theorem toNat_toUInt8 {c : Char} (h : c.toNat < 128) : c.toUInt8.toNat = c.toNat := by
  change c.toNat % 256 = c.toNat
  omega

theorem toUInt8_inj {c d : Char} (hc : c.toNat < 128) (hd : d.toNat < 128)
    (h : c.toUInt8 = d.toUInt8) : c = d := by
  have hnat := congrArg UInt8.toNat h
  rw [toNat_toUInt8 hc, toNat_toUInt8 hd] at hnat
  exact Char.toNat_inj.mp hnat

/-- The character a plus sign stands for, and other characters as they are. -/
def unplus (c : Char) : Char := if c = '+' then ' ' else c

theorem plusToSpace_of_le {b : UInt8} (h : 128 ≤ b) : plusToSpace b = b := by
  have hne : b ≠ 43 := by
    rintro rfl
    exact absurd h (by decide)
  simp [plusToSpace, hne]

/-- Reading `+` as a space, on the bytes of a character. -/
theorem map_plusToSpace_utf8EncodeChar (c : Char) :
    (utf8EncodeChar c).map plusToSpace = utf8EncodeChar (unplus c) := by
  unfold unplus
  split_ifs with hc
  · subst hc
    decide
  · by_cases hascii : c.toNat < 128
    · have hne : c.toUInt8 ≠ 43 := fun h => hc (toUInt8_inj hascii (by decide) h)
      rw [utf8EncodeChar_ascii hascii]
      simp [plusToSpace, hne]
    · refine (List.map_congr_left fun b hb => ?_).trans (List.map_id _)
      exact plusToSpace_of_le (le_of_mem_utf8EncodeChar (by omega) hb)

theorem ne_percent_of_mem_utf8EncodeChar {c : Char} (h : c ≠ '%') {b : UInt8}
    (hb : b ∈ utf8EncodeChar c) : b ≠ 37 := by
  by_cases hascii : c.toNat < 128
  · rw [utf8EncodeChar_ascii hascii, List.mem_singleton] at hb
    rintro rfl
    exact h (toUInt8_inj hascii (by decide) hb.symm)
  · have hle := le_of_mem_utf8EncodeChar (by omega) hb
    rintro rfl
    exact absurd hle (by decide)

/-! ### Decoding what was encoded -/

section Encoded

variable {encoded : Char → Bool}

/-- The bytes that form decoding starts from. -/
def rawBytes (encoded : Char → Bool) (t : List Char) : List UInt8 :=
  ((percentEncode encoded t).flatMap utf8EncodeChar).map plusToSpace

theorem rawBytes_cons_encoded {c : Char} (h : encoded c) (t : List Char) :
    rawBytes encoded (c :: t) =
      ((utf8EncodeChar c).flatMap fun b =>
        ((percentEncodeByte b).flatMap utf8EncodeChar).map plusToSpace) ++ rawBytes encoded t := by
  simp [rawBytes, percentEncode, h, List.flatMap_assoc, List.map_flatMap]

theorem rawBytes_cons_literal {c : Char} (h : encoded c = false) (t : List Char) :
    rawBytes encoded (c :: t) = utf8EncodeChar (unplus c) ++ rawBytes encoded t := by
  simp [rawBytes, percentEncode, h, map_plusToSpace_utf8EncodeChar]

theorem percentDecode_flatMap (xs bs : List UInt8) :
    percentDecode ((xs.flatMap fun b =>
      ((percentEncodeByte b).flatMap utf8EncodeChar).map plusToSpace) ++ bs) =
      xs ++ percentDecode bs := by
  induction xs with
  | nil => rfl
  | cons x xs ih =>
    rw [List.flatMap_cons, List.append_assoc, percentDecode_percentEncodeByte, ih,
      List.cons_append]

/-- A hexadecimal digit among the bytes is one of the text. -/
theorem exists_of_rawBytes_hex {t : List Char} {b : UInt8} {bs : List UInt8}
    (h : rawBytes encoded t = b :: bs) (hb : (hexValue b).isSome) :
    ∃ c t', t = c :: t' ∧ isHex c ∧ bs = rawBytes encoded t' := by
  cases t with
  | nil => cases h
  | cons c t =>
    refine ⟨c, t, rfl, ?_⟩
    cases henc : encoded c with
    | true =>
      -- an escape starts with `%`
      rw [rawBytes_cons_encoded henc] at h
      cases hbytes : utf8EncodeChar c with
      | nil =>
        have := c.utf8Size_pos
        rw [← String.length_utf8EncodeChar, hbytes] at this
        simp at this
      | cons x xs =>
        rw [hbytes] at h
        have hhead : b = 37 := by
          have := congrArg List.head? h
          simpa [percentEncodeByte, plusToSpace, utf8EncodeChar] using this.symm
        subst hhead
        exact absurd hb (by decide)
    | false =>
      rw [rawBytes_cons_literal henc] at h
      by_cases hascii : (unplus c).toNat < 128
      · rw [utf8EncodeChar_ascii hascii, List.singleton_append, List.cons.injEq] at h
        obtain ⟨rfl, rfl⟩ := h
        have hc : unplus c = c := by
          unfold unplus at hb ⊢
          split_ifs with hplus
          · rw [if_pos hplus] at hb
            exact absurd hb (by decide)
          · rfl
        rw [hc] at hb hascii
        exact ⟨by simp [isHex, hascii, hb], rfl⟩
      · exfalso
        cases hbytes : utf8EncodeChar (unplus c) with
        | nil =>
          have := (unplus c).utf8Size_pos
          rw [← String.length_utf8EncodeChar, hbytes] at this
          simp at this
        | cons x xs =>
          rw [hbytes, List.cons_append, List.cons.injEq] at h
          have hle : 128 ≤ b := by
            apply le_of_mem_utf8EncodeChar (Nat.le_of_not_lt hascii)
            rw [hbytes, h.1]
            exact List.mem_cons_self
          rw [hexValue_of_le hle] at hb
          cases hb

/-- Escapes, plus signs and hexadecimal digits are written as they are. -/
def KeepsEscapes (encoded : Char → Bool) : Prop :=
  ∀ c, encoded c → c ≠ '%' ∧ c ≠ '+' ∧ isHex c = false

theorem rawBytes_cons_hex (hkeep : KeepsEscapes encoded) {c : Char} (h : isHex c)
    (t : List Char) : rawBytes encoded (c :: t) = c.toUInt8 :: rawBytes encoded t := by
  have henc : encoded c = false := by
    by_contra henc
    rw [(hkeep c (by simpa using henc)).2.2] at h
    cases h
  have hascii := ascii_of_isHex h
  have hplus : unplus c = c := by
    unfold unplus
    split_ifs with hc
    · subst hc
      exact absurd h (by decide)
    · rfl
  rw [rawBytes_cons_literal henc, hplus, utf8EncodeChar_ascii hascii, List.singleton_append]

/-- An escape of the text is read as a byte. -/
theorem percentDecode_startsEscape (hkeep : KeepsEscapes encoded) {c h l : Char}
    {t : List Char} (hstart : startsEscape (c :: h :: l :: t)) :
    ∃ x, percentDecode (rawBytes encoded (c :: h :: l :: t)) =
      x :: percentDecode (rawBytes encoded t) := by
  simp only [startsEscape, Bool.and_eq_true, decide_eq_true_eq] at hstart
  obtain ⟨⟨rfl, hh⟩, hl⟩ := hstart
  have henc : encoded '%' = false := by
    by_contra henc
    exact (hkeep '%' (by simpa using henc)).1 rfl
  have hraw : rawBytes encoded ('%' :: h :: l :: t) =
      37 :: h.toUInt8 :: l.toUInt8 :: rawBytes encoded t := by
    rw [rawBytes_cons_literal henc, rawBytes_cons_hex hkeep hh, rawBytes_cons_hex hkeep hl]
    rfl
  have hescape : ∃ x, escapeAt 37 (h.toUInt8 :: l.toUInt8 :: rawBytes encoded t) = some x := by
    simp only [isHex, Bool.and_eq_true] at hh hl
    obtain ⟨a, ha⟩ := Option.isSome_iff_exists.mp hh.2
    obtain ⟨b, hb⟩ := Option.isSome_iff_exists.mp hl.2
    exact ⟨a * 16 + b, by simp [escapeAt, ha, hb]⟩
  obtain ⟨x, hx⟩ := hescape
  refine ⟨x, ?_⟩
  rw [hraw, percentDecode_escape hx]
  rfl

/-- Whatever starts no escape is read as it is, a plus sign as a space. -/
theorem percentDecode_literal_char (hkeep : KeepsEscapes encoded) {c : Char} {t : List Char}
    (hstart : startsEscape (c :: t) = false) :
    percentDecode (rawBytes encoded (c :: t)) =
      utf8EncodeChar (unplus c) ++ percentDecode (rawBytes encoded t) := by
  cases henc : encoded c with
  | true =>
    have hc : unplus c = c := if_neg (hkeep c henc).2.1
    rw [rawBytes_cons_encoded henc, percentDecode_flatMap, hc]
  | false =>
    rw [rawBytes_cons_literal henc]
    by_cases hc : c = '%'
    · subst hc
      have hnone : escapeAt 37 (rawBytes encoded t) = none := by
        -- two digits behind the sign would be two digits of the text
        by_contra hne
        obtain ⟨x, hx⟩ := Option.ne_none_iff_exists'.mp hne
        cases hraw : rawBytes encoded t with
        | nil => simp [hraw, escapeAt] at hx
        | cons h bs =>
          cases bs with
          | nil => simp [hraw, escapeAt] at hx
          | cons l bs =>
            simp only [hraw, escapeAt, if_true] at hx
            cases hh : hexValue h with
            | none => simp [hh] at hx
            | some a =>
              cases hl : hexValue l with
              | none => simp [hh, hl] at hx
              | some b =>
                obtain ⟨c, t', rfl, hc, hbs⟩ := exists_of_rawBytes_hex hraw (by simp [hh])
                obtain ⟨d, t'', rfl, hd, -⟩ := exists_of_rawBytes_hex hbs.symm (by simp [hl])
                simp [startsEscape, hc, hd] at hstart
      exact percentDecode_literal hnone
    · apply percentDecode_append_of_ne
      intro b hb
      refine ne_percent_of_mem_utf8EncodeChar ?_ hb
      unfold unplus
      split_ifs
      · decide
      · exact hc

@[simp] theorem hasEscape_nil : HasEscape [] = false := rfl

@[simp] theorem hasEscape_cons (c : Char) (t : List Char) :
    HasEscape (c :: t) = (startsEscape (c :: t) || HasEscape t) := by
  simp [HasEscape]

theorem formDecode_percentEncode (encoded : Char → Bool) (t : List Char) :
    formDecode (percentEncode encoded t) = lossy (percentDecode (rawBytes encoded t)) := rfl

/-- Decoding makes no text longer, and one with an escape shorter. -/
theorem length_decode_add_escape_le (hkeep : KeepsEscapes encoded) (n : ℕ) (t : List Char)
    (hn : t.length ≤ n) :
    (formDecode (percentEncode encoded t)).length + (if HasEscape t then 1 else 0) ≤
      t.length := by
  simp only [formDecode_percentEncode]
  induction n generalizing t with
  | zero =>
    obtain rfl : t = [] := List.length_eq_zero_iff.mp (Nat.le_zero.mp hn)
    exact Nat.le_refl 0
  | succ n ih =>
    cases hstart : startsEscape t with
    | true =>
      rcases t with _ | ⟨c, _ | ⟨h, _ | ⟨l, t⟩⟩⟩ <;> try cases hstart
      obtain ⟨x, hx⟩ := percentDecode_startsEscape hkeep hstart
      have hle := length_lossy_cons_le x (percentDecode (rawBytes encoded t))
      have hrest := ih t (by simp only [List.length_cons] at hn; omega)
      rw [hx]
      simp only [List.length_cons]
      split_ifs at hrest ⊢ <;> omega
    | false =>
      cases t with
      | nil => exact Nat.le_refl 0
      | cons c t =>
        have hrest := ih t (by simp only [List.length_cons] at hn; omega)
        rw [percentDecode_literal_char hkeep hstart, lossy_char, hasEscape_cons, hstart,
          Bool.false_or]
        simp only [List.length_cons]
        omega

/-- A text without escapes is read back with its plus signs turned into spaces. -/
theorem formDecode_of_not_hasEscape (hkeep : KeepsEscapes encoded) {t : List Char}
    (h : HasEscape t = false) : formDecode (percentEncode encoded t) = t.map unplus := by
  rw [formDecode_percentEncode]
  induction t with
  | nil => rfl
  | cons c t ih =>
    rw [hasEscape_cons, Bool.or_eq_false_iff] at h
    rw [percentDecode_literal_char hkeep h.1, lossy_char, ih h.2, List.map_cons]

theorem length_formDecode_percentEncode_le (hkeep : KeepsEscapes encoded) (t : List Char) :
    (formDecode (percentEncode encoded t)).length ≤ t.length := by
  have h := length_decode_add_escape_le hkeep t.length t le_rfl
  omega

/-- Form decoding gives back the text that was encoded exactly when the text has no plus sign
and no escape of its own. -/
theorem formDecode_percentEncode_eq_iff (hkeep : KeepsEscapes encoded) (t : List Char) :
    formDecode (percentEncode encoded t) = t ↔ '+' ∉ t ∧ HasEscape t = false := by
  cases hescape : HasEscape t with
  | true =>
    have hlt := length_decode_add_escape_le hkeep t.length t le_rfl
    rw [hescape, if_pos rfl] at hlt
    constructor
    · intro h
      rw [h] at hlt
      omega
    · rintro ⟨-, h⟩
      cases h
  | false =>
    rw [formDecode_of_not_hasEscape hkeep hescape]
    simp only [and_true]
    constructor
    · intro h hplus
      rw [← h] at hplus
      obtain ⟨c, -, hc⟩ := List.mem_map.mp hplus
      unfold unplus at hc
      split_ifs at hc with hne
      · exact absurd hc (by decide)
      · exact hne hc
    · intro h
      refine (List.map_congr_left fun c hc => ?_).trans (List.map_id t)
      have hne : c ≠ '+' := by
        rintro rfl
        exact h hc
      exact if_neg hne

/-! ### Pairs -/

/-- What the encoding of one character is made of. -/
theorem percentEncode_cons (encoded : Char → Bool) (c : Char) (t : List Char) :
    percentEncode encoded (c :: t) =
      (if encoded c then (utf8EncodeChar c).flatMap percentEncodeByte else [c]) ++
        percentEncode encoded t := by
  simp [percentEncode]

theorem percentEncode_ne_nil {t : List Char} (h : t ≠ []) : percentEncode encoded t ≠ [] := by
  cases t with
  | nil => exact absurd rfl h
  | cons c t =>
    intro hnil
    rw [percentEncode_cons, List.append_eq_nil_iff] at hnil
    split_ifs at hnil
    · have hbytes : utf8EncodeChar c = [] := by
        by_contra hne
        obtain ⟨b, bs, hb⟩ := List.exists_cons_of_ne_nil hne
        simp [hb, percentEncodeByte] at hnil
      have := c.utf8Size_pos
      rw [← String.length_utf8EncodeChar, hbytes] at this
      simp at this
    · simp at hnil

/-- A character that takes part in no escape and is not encoded. -/
def Separates (encoded : Char → Bool) (sep : Char) : Prop :=
  encoded sep = false ∧ sep ≠ '%' ∧ isHex sep = false

theorem isHex_hexDigit {n : UInt8} (h : n < 16) : isHex (hexDigit n) :=
  forall_digits (P := fun n => isHex (hexDigit n)) (by decide) h

theorem eq_or_isHex_of_mem_percentEncodeByte {b : UInt8} {c : Char}
    (h : c ∈ percentEncodeByte b) : c = '%' ∨ isHex c := by
  simp only [percentEncodeByte, List.mem_cons, List.not_mem_nil, or_false] at h
  rcases h with rfl | rfl | rfl
  · exact .inl rfl
  · exact .inr (isHex_hexDigit (high_lt b))
  · exact .inr (isHex_hexDigit (low_lt b))

/-- What an encoded text is made of: characters that are not encoded, and escapes. -/
theorem mem_percentEncode {c : Char} {t : List Char} (h : c ∈ percentEncode encoded t) :
    encoded c = false ∨ c = '%' ∨ isHex c := by
  obtain ⟨d, -, hd⟩ := List.mem_flatMap.mp h
  split_ifs at hd with henc
  · obtain ⟨b, -, hb⟩ := List.mem_flatMap.mp hd
    exact .inr (eq_or_isHex_of_mem_percentEncodeByte hb)
  · rw [List.mem_singleton] at hd
    exact .inl (by simpa [hd] using henc)

theorem percentEncode_eq_self {t : List Char} (h : ∀ c ∈ t, encoded c = false) :
    percentEncode encoded t = t := by
  induction t with
  | nil => rfl
  | cons c t ih =>
    rw [percentEncode_cons, ih fun d hd => h d (List.mem_cons_of_mem _ hd),
      if_neg (by simp [h c List.mem_cons_self]), List.singleton_append]

/-- The encoding of a character other than a separator has no separator in it. -/
theorem ne_of_mem_encoding {sep c x : Char} (hsep : Separates encoded sep) (hc : c ≠ sep)
    (h : x ∈ if encoded c then (utf8EncodeChar c).flatMap percentEncodeByte else [c]) :
    x ≠ sep := by
  split_ifs at h
  · obtain ⟨b, -, hb⟩ := List.mem_flatMap.mp h
    rintro rfl
    rcases eq_or_isHex_of_mem_percentEncodeByte hb with hx | hx
    · exact hsep.2.1 hx
    · rw [hsep.2.2] at hx
      cases hx
  · rw [List.mem_singleton] at h
    exact h ▸ hc

theorem takeWhile_percentEncode {sep : Char} (hsep : Separates encoded sep) (t : List Char) :
    (percentEncode encoded t).takeWhile (· ≠ sep) =
      percentEncode encoded (t.takeWhile (· ≠ sep)) := by
  induction t with
  | nil => rfl
  | cons c t ih =>
    rw [percentEncode_cons]
    by_cases hc : c = sep
    · subst hc
      simp [hsep.1, percentEncode]
    · rw [List.takeWhile_append_of_pos fun x hx => by simpa using ne_of_mem_encoding hsep hc hx,
        ih, List.takeWhile_cons_of_pos (by simpa using hc), percentEncode_cons]

theorem dropWhile_percentEncode {sep : Char} (hsep : Separates encoded sep) (t : List Char) :
    (percentEncode encoded t).dropWhile (· ≠ sep) =
      percentEncode encoded (t.dropWhile (· ≠ sep)) := by
  induction t with
  | nil => rfl
  | cons c t ih =>
    rw [percentEncode_cons]
    by_cases hc : c = sep
    · subst hc
      simp [hsep.1, percentEncode]
    · rw [List.dropWhile_append_of_pos fun x hx => by simpa using ne_of_mem_encoding hsep hc hx,
        ih, List.dropWhile_cons_of_pos (by simpa using hc)]

end Encoded

/-- Puts a character in front of the first piece. -/
def consHead (c : Char) : List (List Char) → List (List Char)
  | [] => [[c]]
  | p :: ps => (c :: p) :: ps

/-- The pieces of a text between separators. -/
def pieces (sep : Char) : List Char → List (List Char)
  | [] => [[]]
  | c :: t => if c = sep then [] :: pieces sep t else consHead c (pieces sep t)

/-- The name of a pair, as it is written. -/
def pairName (p : List Char) : List Char := p.takeWhile (· ≠ '=')

/-- The value of a pair, as it is written. -/
def pairValue (p : List Char) : List Char := (p.dropWhile (· ≠ '=')).tail

/-- The name-value pairs of a form: pieces between `&`, empty ones left out, each cut at its
first `=`. -/
def formPairs (t : List Char) : List (List Char × List Char) :=
  ((pieces '&' t).filter (· ≠ [])).map fun p => (formDecode (pairName p), formDecode (pairValue p))

theorem pieces_ne_nil (sep : Char) (t : List Char) : pieces sep t ≠ [] := by
  cases t with
  | nil => simp [pieces]
  | cons c t =>
    rw [pieces]
    split_ifs
    · simp
    · cases pieces sep t <;> simp [consHead]

theorem pieces_append {sep : Char} {xs : List Char} (h : ∀ x ∈ xs, x ≠ sep) (t : List Char) :
    ∃ p ps, pieces sep t = p :: ps ∧ pieces sep (xs ++ t) = (xs ++ p) :: ps := by
  induction xs with
  | nil =>
    obtain ⟨p, ps, hp⟩ := List.exists_cons_of_ne_nil (pieces_ne_nil sep t)
    exact ⟨p, ps, hp, hp⟩
  | cons x xs ih =>
    obtain ⟨p, ps, hp, happend⟩ := ih fun y hy => h y (List.mem_cons_of_mem _ hy)
    refine ⟨p, ps, hp, ?_⟩
    rw [List.cons_append, pieces, if_neg (h x List.mem_cons_self), happend]
    rfl

theorem pieces_of_not_mem {sep : Char} {t : List Char} (h : sep ∉ t) : pieces sep t = [t] := by
  obtain ⟨p, ps, hp, happend⟩ := pieces_append (fun x hx => ne_of_mem_of_not_mem hx h) []
  rw [pieces, List.cons.injEq] at hp
  obtain ⟨rfl, rfl⟩ := hp
  simpa using happend

theorem length_le_of_mem_pieces {sep : Char} {t p : List Char} (h : p ∈ pieces sep t) :
    p.length ≤ t.length := by
  induction t generalizing p with
  | nil =>
    simp only [pieces, List.mem_singleton] at h
    simp [h]
  | cons c t ih =>
    rw [pieces] at h
    split_ifs at h
    · rcases List.mem_cons.mp h with rfl | h
      · simp
      · exact (ih h).trans (by simp)
    · obtain ⟨q, qs, hq⟩ := List.exists_cons_of_ne_nil (pieces_ne_nil sep t)
      rw [hq, consHead] at h
      rcases List.mem_cons.mp h with rfl | h
      · simpa using ih (hq ▸ List.mem_cons_self)
      · exact (ih (hq ▸ List.mem_cons_of_mem _ h)).trans (by simp)

theorem pieces_percentEncode {encoded : Char → Bool} {sep : Char} (hsep : Separates encoded sep)
    (t : List Char) :
    pieces sep (percentEncode encoded t) = (pieces sep t).map (percentEncode encoded) := by
  induction t with
  | nil => rfl
  | cons c t ih =>
    by_cases hc : c = sep
    · subst hc
      rw [percentEncode_cons, if_neg (by simp [hsep.1]), List.singleton_append, pieces, pieces,
        if_pos rfl, if_pos rfl, ih]
      rfl
    · obtain ⟨p, ps, hp, happend⟩ := pieces_append
        (fun x hx => ne_of_mem_encoding hsep hc hx) (percentEncode encoded t)
      obtain ⟨q, qs, hq⟩ := List.exists_cons_of_ne_nil (pieces_ne_nil sep t)
      rw [percentEncode_cons, happend, pieces, if_neg hc, hq, consHead]
      rw [ih, hq, List.map_cons, List.cons.injEq] at hp
      rw [List.map_cons, percentEncode_cons, hp.1, hp.2]

/-- The pairs of an encoded form are those of the form, their parts encoded. -/
theorem formPairs_percentEncode {encoded : Char → Bool} (hand : Separates encoded '&')
    (heq : Separates encoded '=') (t : List Char) :
    formPairs (percentEncode encoded t) = ((pieces '&' t).filter (· ≠ [])).map fun p =>
      (formDecode (percentEncode encoded (pairName p)),
        formDecode (percentEncode encoded (pairValue p))) := by
  have hne : ∀ p : List Char, percentEncode encoded p = [] ↔ p = [] := by
    intro p
    constructor
    · intro h
      by_contra hp
      exact percentEncode_ne_nil hp h
    · rintro rfl
      rfl
  have htail : ∀ p : List Char, (percentEncode encoded (p.dropWhile (· ≠ '='))).tail =
      percentEncode encoded (p.dropWhile (· ≠ '=')).tail := by
    intro p
    cases hdrop : p.dropWhile (· ≠ '=') with
    | nil => rfl
    | cons c t =>
      have hc : c = '=' := by
        have hhead := List.head?_dropWhile_not (fun c => decide (c ≠ '=')) p
        rw [hdrop] at hhead
        simpa using hhead
      subst hc
      simp [percentEncode_cons, heq.1]
  rw [formPairs, pieces_percentEncode hand, List.filter_map, List.map_map]
  have hfilter : (pieces '&' t).filter ((fun p => decide (p ≠ [])) ∘ percentEncode encoded) =
      (pieces '&' t).filter (· ≠ []) := by
    apply List.filter_congr
    intro p _
    simp [hne]
  rw [hfilter]
  apply List.map_congr_left
  intro p _
  simp only [Function.comp, pairName, pairValue, takeWhile_percentEncode heq,
    dropWhile_percentEncode heq, htail]

end Cargo.Math
