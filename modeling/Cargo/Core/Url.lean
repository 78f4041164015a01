import Mathlib.Data.List.Basic
import Mathlib.Data.List.TakeWhile

/-!
# Urls

A url is its serialization: the url crate compares, orders and hashes urls by it. Query and
fragment are slices of it. Reading a text as a url and taking its path apart is left to the
crate, which the development has as a parameter.

## Main definitions

* `Url`, with `Url.base`, `Url.suffix`, `Url.query` and `Url.fragment`
* `UrlCrate` — what the sources use of the url crate
* `canonicalizeUrl` — the url that git sources are compared by
* `UrlCrate.plain` — the crate on urls that are normalized already

## Main results

* `suffix_of_canonicalizeUrl` — canonical urls keep query and fragment
-/

set_option autoImplicit false

namespace Cargo.Core

/-- A string, as its list of characters. -/
abbrev Text := List Char

/-- A url, given by its serialization. -/
structure Url where
  asStr : Text
  deriving DecidableEq, Repr

/-- Scheme, authority and path of a url: a text with neither `?` nor `#`. -/
structure Base where
  text : Text
  plain : ∀ c ∈ text, c ≠ '?' ∧ c ≠ '#'

/-- Does a character belong to the base of a url? -/
def inBase (c : Char) : Bool := c ≠ '?' ∧ c ≠ '#'

namespace Url

/-- Scheme, authority and path. -/
def base (u : Url) : Text := u.asStr.takeWhile inBase

/-- Query and fragment, with their marks. -/
def suffix (u : Url) : Text := u.asStr.dropWhile inBase

/-- The text after the first `#`, if there is one. -/
def fragment (u : Url) : Option Text := (u.asStr.dropWhile (· ≠ '#')).tail?

/-- The text between the first `?` and the fragment, if there is one. -/
def query (u : Url) : Option Text :=
  ((u.asStr.takeWhile (· ≠ '#')).dropWhile (· ≠ '?')).tail?

/-- The url with another base. -/
def withBase (u : Url) (b : Base) : Url := ⟨b.text ++ u.suffix⟩

/-- Urls are ordered by their serialization. -/
def cmp (u v : Url) : Ordering := compare u.asStr v.asStr

theorem base_append_suffix (u : Url) : u.base ++ u.suffix = u.asStr :=
  List.takeWhile_append_dropWhile

theorem inBase_of_mem_base {u : Url} {c : Char} (h : c ∈ u.base) : inBase c :=
  List.mem_takeWhile_imp h

/-- The suffix is empty or starts with a mark. -/
theorem suffix_eq_nil_or (u : Url) : u.suffix = [] ∨ ∃ c t, u.suffix = c :: t ∧ ¬ inBase c := by
  cases h : u.suffix with
  | nil => exact .inl rfl
  | cons c t =>
    have hhead := List.head?_dropWhile_not inBase u.asStr
    rw [show u.asStr.dropWhile inBase = c :: t from h] at hhead
    exact .inr ⟨c, t, rfl, by simpa using hhead⟩

@[simp] theorem suffix_withBase (u : Url) (b : Base) : (u.withBase b).suffix = u.suffix := by
  have hb : ∀ c ∈ b.text, inBase c := by
    intro c hc
    simpa [inBase] using b.plain c hc
  rw [suffix, withBase, List.dropWhile_append_of_pos hb]
  rcases u.suffix_eq_nil_or with h | ⟨c, t, h, hc⟩
  · rw [h]
    rfl
  · rw [h, List.dropWhile_cons_of_neg (by simpa using hc)]

theorem nil_of_tail?_eq_none {t : Text} (h : t.tail? = none) : t = [] := by
  cases t with
  | nil => rfl
  | cons c t => cases h

/-- A url without query and fragment is its base. -/
theorem suffix_eq_nil_iff (u : Url) : u.suffix = [] ↔ u.query = none ∧ u.fragment = none := by
  constructor
  · intro h
    have hall : ∀ c ∈ u.asStr, inBase c := by
      simpa [suffix, List.dropWhile_eq_nil_iff] using h
    have hhash : ∀ c ∈ u.asStr, decide (c ≠ '#') = true := by
      intro c hc
      have := hall c hc
      simp only [inBase, decide_eq_true_eq] at this
      simpa using this.2
    have hmark : ∀ c ∈ u.asStr, decide (c ≠ '?') = true := by
      intro c hc
      have := hall c hc
      simp only [inBase, decide_eq_true_eq] at this
      simpa using this.1
    rw [query, fragment, List.takeWhile_eq_self_iff.mpr hhash,
      List.dropWhile_eq_nil_iff.mpr hmark, List.dropWhile_eq_nil_iff.mpr hhash]
    exact ⟨rfl, rfl⟩
  · rintro ⟨hquery, hfragment⟩
    rw [suffix, List.dropWhile_eq_nil_iff]
    have hhash : u.asStr.dropWhile (· ≠ '#') = [] := by
      exact nil_of_tail?_eq_none hfragment
    rw [List.dropWhile_eq_nil_iff] at hhash
    have hmark : u.asStr.dropWhile (· ≠ '?') = [] := by
      rw [query, List.takeWhile_eq_self_iff.mpr hhash] at hquery
      exact nil_of_tail?_eq_none hquery
    rw [List.dropWhile_eq_nil_iff] at hmark
    intro c hc
    have h₁ := hmark c hc
    have h₂ := hhash c hc
    simp only [decide_eq_true_eq] at h₁ h₂
    simp [inBase, h₁, h₂]

end Url

/-- What the sources use of the url crate, besides the slices above. The functions that
change a path leave query and fragment as they are. -/
structure UrlCrate where
  /-- `Url::parse` -/
  parse : Text → Except Text Url
  cannotBeABase : Url → Bool
  path : Url → Text
  hostStr : Url → Option Text
  /-- `path_segments_mut().pop_if_empty()` -/
  popIfEmpty : Url → Base
  setScheme : Text → Url → Base
  setPath : Text → Url → Base
  /-- `path_segments().next_back()` -/
  lastSegment : Url → Text
  /-- `path_segments_mut().pop().push(..)` -/
  popPush : Text → Url → Base

variable (crate : UrlCrate)

/-- Some hacks and heuristics for making equivalent urls compare the same. -/
def canonicalizeUrl (url : Url) : Except Text Url :=
  -- cannot-be-a-base-urls are not supported
  if crate.cannotBeABase url then
    .error ("invalid url `".toList ++ url.asStr ++
      "`: cannot-be-a-base-URLs are not supported".toList)
  else
    -- strip a trailing slash
    let url :=
      if (crate.path url).getLast? = some '/' then url.withBase (crate.popIfEmpty url) else url
    -- lowercase everything on GitHub
    let url :=
      if crate.hostStr url = some "github.com".toList then
        let url := url.withBase (crate.setScheme "https".toList url)
        url.withBase (crate.setPath ((crate.path url).map Char.toLower) url)
      else url
    -- repos generally can be accessed with or without '.git'
    let url :=
      if ".git".toList <:+ crate.path url then
        let last := crate.lastSegment url
        url.withBase (crate.popPush (last.take (last.length - 4)) url)
      else url
    .ok url

variable {crate}

theorem cannotBeABase_of_canonicalizeUrl {u v : Url} (h : canonicalizeUrl crate u = .ok v) :
    crate.cannotBeABase u = false := by
  unfold canonicalizeUrl at h
  split at h
  · cases h
  · rename_i hbase
    simpa using hbase

/-- Canonical urls keep query and fragment. -/
theorem suffix_of_canonicalizeUrl {u v : Url} (h : canonicalizeUrl crate u = .ok v) :
    v.suffix = u.suffix := by
  unfold canonicalizeUrl at h
  split at h
  · cases h
  · cases h
    split_ifs <;> simp

namespace UrlCrate

/-! ### Normalized urls -/

/-- Scheme, authority and path of a text of the form `scheme://authority/path`. -/
def cut (t : Text) : Text × Text × Text :=
  let rest := (t.dropWhile (· ≠ ':')).drop 3
  (t.takeWhile (· ≠ ':'), rest.takeWhile (· ≠ '/'), rest.dropWhile (· ≠ '/'))

/-- A mark in a path is written as an escape. -/
def escapeMarks (t : Text) : Base where
  text := t.flatMap fun c =>
    if c = '?' then ['%', '3', 'F'] else if c = '#' then ['%', '2', '3'] else [c]
  plain := by
    intro c hc
    obtain ⟨d, -, hd⟩ := List.mem_flatMap.mp hc
    split_ifs at hd with h₁ h₂
    · simp only [List.mem_cons, List.not_mem_nil, or_false] at hd
      rcases hd with rfl | rfl | rfl <;> decide
    · simp only [List.mem_cons, List.not_mem_nil, or_false] at hd
      rcases hd with rfl | rfl | rfl <;> decide
    · rw [List.mem_singleton] at hd
      exact hd ▸ ⟨h₁, h₂⟩

/-- The parts of a url put together again. -/
def join (scheme authority path : Text) : Base :=
  escapeMarks (scheme ++ "://".toList ++ authority ++ path)

/-- The base of a url with another path. -/
def withPath (path : Text) (u : Url) : Base := join (cut u.base).1 (cut u.base).2.1 path

/-- The last segment of a path. -/
def lastOf (path : Text) : Text := (path.reverse.takeWhile (· ≠ '/')).reverse

/-- The path without its last segment and the slash before that, the first slash apart. -/
def popOf (path : Text) : Text :=
  let popped := ((path.reverse.dropWhile (· ≠ '/')).drop 1).reverse
  if popped = [] then ['/'] else popped

/-- The url crate on urls of the form `scheme://host/path` that are normalized already, with
the reading of texts left open. -/
def plain (parse : Text → Except Text Url) : UrlCrate where
  parse := parse
  cannotBeABase u := decide ((u.asStr.dropWhile (· ≠ ':')).tail.head? ≠ some '/')
  path u := (cut u.base).2.2
  hostStr u := some (cut u.base).2.1
  popIfEmpty u :=
    let path := (cut u.base).2.2
    if 1 < path.length ∧ path.getLast? = some '/' then withPath path.dropLast u
    else withPath path u
  setScheme scheme u := join scheme (cut u.base).2.1 (cut u.base).2.2
  setPath path u := withPath path u
  lastSegment u := lastOf (cut u.base).2.2
  popPush segment u :=
    let popped := popOf (cut u.base).2.2
    if segment = ['.'] ∨ segment = ['.', '.'] then withPath popped u
    else if popped = ['/'] then withPath ('/' :: segment) u
    else withPath (popped ++ '/' :: segment) u

end UrlCrate

end Cargo.Core
