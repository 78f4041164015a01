import Cargo.Core.Url
import Cargo.Math.Iteration
import Cargo.Math.Words
import Cargo.Util.Paths
import Cargo.Util.Toml.Targets

/-!
# The output of build scripts

A build script says in its output what its package is to be linked with, and when it is to run
again. The output is kept, together with the directory it was made for, and read again in later
builds. If the directory was moved in the meantime, then paths under it are changed to paths under
the one that it is now.

That is done for search paths and for the files to watch, as they are read; but not for paths that
are in `rustc-flags`, and to no effect for search paths that have a kind before them, since a text
that starts with a kind is a relative path.

## Main definitions

* `BuildOutput.parse` — reading an output
* `Line`, `outputOf` — what a script prints, which depends on the directory it runs for
* `Relocates` — what is read does not depend on where the output was made
* `Line.Followed` — paths under the directory are where they are changed

## Main results

* `parseLine_text` — what is read of one line
* `parse_outputOf` — and of all
* `relocates_iff` — when an output can be moved
-/

set_option autoImplicit false

namespace Cargo.Compiler.CustomBuild

open Cargo.Core Cargo.Math Cargo.Util

/-! ### Reading -/

structure BuildOutput where
  libraryPaths : List OsText
  libraryLinks : List Text
  cfgs : List Text
  env : List (Text × Text)
  metadata : List (Text × Text)
  rerunIfChanged : List OsText
  rerunIfEnvChanged : List Text
  warnings : List Text

/-- `trim_right` -/
def trimRight (t : Text) : Text := t.rdropWhile isWhitespace

def trimText (t : Text) : Text := trimRight (t.dropWhile isWhitespace)

/-- `splitn(2, sep)` -/
def splitOnce (sep : Char) (t : Text) : Text × Option Text :=
  (t.takeWhile (· ≠ sep), (t.dropWhile (· ≠ sep)).tail?)

def newline : OsChar := .char '\n'

namespace BuildOutput

def empty : BuildOutput := ⟨[], [], [], [], [], [], [], []⟩

/-- The loop of `parse_rustc_flags`, over the words of `value`. -/
def flagsLoop (value whence : Text) : List Text → Except Text (List OsText × List Text)
  | [] => .ok ([], [])
  | flag :: rest =>
    if flag ≠ "-l".toList ∧ flag ≠ "-L".toList then
      .error ("Only `-l` and `-L` flags are allowed in ".toList ++ whence ++ ": `".toList ++
        value ++ "`".toList)
    else
      match rest with
      | [] => .error ("Flag in rustc-flags has no value in ".toList ++ whence ++ ": `".toList ++
          value ++ "`".toList)
      | arg :: rest => do
        let (paths, links) ← flagsLoop value whence rest
        if flag = "-l".toList then .ok (paths, arg :: links)
        else .ok (.ofText arg :: paths, links)

def parseRustcFlags (value whence : Text) : Except Text (List OsText × List Text) :=
  let value := trimText value
  flagsLoop value whence (words isWhitespace value)

def parseRustcEnv (value whence : Text) : Except Text (Text × Text) :=
  match splitOnce '=' value with
  | (name, some val) => .ok (name, val)
  | (_, none) =>
    .error ("Variable rustc-env has no value in ".toList ++ whence ++ ": ".toList ++ value)

/-- The closure `path`: what was under the root when the output was made is under the root that it
is now. -/
def path (rootOutputWhenGenerated rootOutput val : OsText) : OsText :=
  match Paths.stripPrefix val rootOutputWhenGenerated with
  | some path => Paths.join rootOutput path
  | none => val

/-- The key and the value that a line gives, if it does. -/
def readLine (whence : Text) (line : OsText) : Except Text (Option (Text × Text)) :=
  match line.toStr with
  -- lines that are not text, and those of other programs, are skipped
  | none => .ok none
  | some line =>
    let line := trimText line
    match splitOnce ':' line with
    | (_, none) => .ok none
    | (first, some data) =>
      if first ≠ "cargo".toList then .ok none
      else
        match splitOnce '=' data with
        | (key, some value) => .ok (some (key, trimRight value))
        | (_, none) => .error ("Wrong output in ".toList ++ whence ++ ": `".toList ++ line ++
            "`".toList)

/-- What is noted for a key. -/
def note (whence : Text) (rootOutputWhenGenerated rootOutput : OsText) (out : BuildOutput)
    (key value : Text) : Except Text BuildOutput :=
  if key = "rustc-flags".toList then do
    let (paths, links) ← parseRustcFlags value whence
    .ok { out with
      libraryLinks := out.libraryLinks ++ links
      libraryPaths := out.libraryPaths ++ paths }
  else if key = "rustc-link-lib".toList then
    .ok { out with libraryLinks := out.libraryLinks ++ [value] }
  else if key = "rustc-link-search".toList then
    .ok { out with libraryPaths :=
      out.libraryPaths ++ [path rootOutputWhenGenerated rootOutput (.ofText value)] }
  else if key = "rustc-cfg".toList then
    .ok { out with cfgs := out.cfgs ++ [value] }
  else if key = "rustc-env".toList then do
    let pair ← parseRustcEnv value whence
    .ok { out with env := out.env ++ [pair] }
  else if key = "warning".toList then
    .ok { out with warnings := out.warnings ++ [value] }
  else if key = "rerun-if-changed".toList then
    .ok { out with rerunIfChanged :=
      out.rerunIfChanged ++ [path rootOutputWhenGenerated rootOutput (.ofText value)] }
  else if key = "rerun-if-env-changed".toList then
    .ok { out with rerunIfEnvChanged := out.rerunIfEnvChanged ++ [value] }
  -- any other key is metadata for dependents
  else .ok { out with metadata := out.metadata ++ [(key, value)] }

def parseLine (whence : Text) (rootOutputWhenGenerated rootOutput : OsText) (out : BuildOutput)
    (line : OsText) : Except Text BuildOutput := do
  match ← readLine whence line with
  | none => .ok out
  | some (key, value) => note whence rootOutputWhenGenerated rootOutput out key value

/-- The name of the package is for the texts of errors only. -/
def parse (input : OsText) (pkgName : Text) (rootOutputWhenGenerated rootOutput : OsText) :
    Except Text BuildOutput :=
  let whence := "build script of `".toList ++ pkgName ++ "`".toList
  (input.splitOn newline).foldlM (parseLine whence rootOutputWhenGenerated rootOutput) empty

end BuildOutput

/-! ### What scripts print -/

/-- The kinds of search paths. -/
inductive SearchKind
  | dependency
  | crate
  | native
  | framework
  | all

def SearchKind.text : SearchKind → Text
  | .dependency => "dependency=".toList
  | .crate => "crate=".toList
  | .native => "native=".toList
  | .framework => "framework=".toList
  | .all => "all=".toList

/-- A path that a script prints: one under the root that it runs for, or one that is the same for
all roots. -/
inductive Place
  | underRoot (rel : OsText) (relative : Paths.hasRoot rel = false)
  | elsewhere (path : OsText)

def Place.path (root : OsText) : Place → OsText
  | .underRoot rel _ => Paths.join root rel
  | .elsewhere path => path

structure SearchPath where
  kind : Option SearchKind
  place : Place

def SearchPath.text (root : OsText) (p : SearchPath) : OsText :=
  .ofText ((p.kind.map SearchKind.text).getD []) ++ p.place.path root

/-- White space within a line. -/
structure Blank where
  text : Text
  blank : ∀ c ∈ text, isWhitespace c = true ∧ c ≠ '\n'

inductive FlagValue
  | lib (name : OsText)
  | search (path : SearchPath)

def FlagValue.flag : FlagValue → Text
  | .lib _ => "-l".toList
  | .search _ => "-L".toList

def FlagValue.text (root : OsText) : FlagValue → OsText
  | .lib name => name
  | .search path => path.text root

/-- A flag, with the white space before and after `-l` or `-L`. -/
structure Flag where
  before : Blank
  between : Blank
  value : FlagValue

def Flag.text (root : OsText) (f : Flag) : OsText :=
  .ofText (f.before.text ++ f.value.flag ++ f.between.text) ++ f.value.text root

def flagsText (root : OsText) (flags : List Flag) : OsText := flags.flatMap (Flag.text root)

/-- A line of the output. What lines say that name no paths may depend on the root, too. -/
inductive Line
  | linkSearch (path : SearchPath) (trail : Blank)
  | rustcFlags (flags : List Flag) (trail : Blank)
  | rerunIfChanged (place : Place) (trail : Blank)
  | other (text : OsText → OsText)

def directive (key : Text) (value : OsText) : OsText :=
  .ofText ("cargo:".toList ++ key ++ ['=']) ++ value

def Line.text (root : OsText) : Line → OsText
  | .linkSearch path trail =>
    directive "rustc-link-search".toList (path.text root ++ .ofText trail.text)
  | .rustcFlags flags trail =>
    directive "rustc-flags".toList (flagsText root flags ++ .ofText trail.text)
  | .rerunIfChanged place trail =>
    directive "rerun-if-changed".toList (place.path root ++ .ofText trail.text)
  | .other text => text root

/-- The output of a script that runs for a root. -/
def outputOf (script : List Line) (root : OsText) : OsText :=
  script.flatMap fun line => line.text root ++ [newline]

/-! ### Lines that can be read -/

/-- A text that is the value of a line: it has only characters, is on one line and does not end in
white space. -/
structure IsValue (t : OsText) : Prop where
  chars : ∀ c ∈ t, ∃ d, c = .char d ∧ d ≠ '\n'
  last : ∀ d, t.getLast? = some (.char d) → isWhitespace d = false

/-- A text that is the value of a flag. -/
structure IsWord (t : OsText) : Prop where
  chars : ∀ c ∈ t, ∃ d, c = .char d ∧ isWhitespace d = false
  ne_nil : t ≠ []

/-- A line of another kind: it is no directive, or one that can be read and names no paths. -/
def IsOther (text : OsText) : Prop :=
  newline ∉ text ∧
    match BuildOutput.readLine [] text with
    | .error _ => False
    | .ok none => True
    | .ok (some (key, value)) =>
      key ≠ "rustc-flags".toList ∧ key ≠ "rustc-link-search".toList ∧
        key ≠ "rerun-if-changed".toList ∧ (key = "rustc-env".toList → '=' ∈ value)

/-- A flag starts a word, and so does its value. -/
def Flag.Printable (root : OsText) (f : Flag) : Prop :=
  f.between.text ≠ [] ∧ IsWord (f.value.text root)

/-- The line says what it is to say if the script runs for the root. -/
def Line.Printable (root : OsText) : Line → Prop
  | .linkSearch path _ => IsValue (path.text root)
  | .rustcFlags flags _ =>
    (∀ f ∈ flags, f.Printable root) ∧ ∀ f ∈ flags.tail, f.before.text ≠ []
  | .rerunIfChanged place _ => IsValue (place.path root)
  | .other text => IsOther (text root)

/-! ### Moving the root -/

/-- Reading what was printed for the root `a`, now that the root is `b`, is as reading what would
have been printed for `b`. -/
def Relocates (pkgName : Text) (script : List Line) (a b : OsText) : Prop :=
  ∃ out out',
    BuildOutput.parse (outputOf script a) pkgName a b = .ok out ∧
    BuildOutput.parse (outputOf script b) pkgName b b = .ok out' ∧
    List.Forall₂ Paths.Same out.libraryPaths out'.libraryPaths ∧
    List.Forall₂ Paths.Same out.rerunIfChanged out'.rerunIfChanged

/-- A path that is changed if it is under the root: it is not one that stays. -/
def Place.Followed (a : OsText) : Place → Prop
  | .underRoot _ _ => True
  | .elsewhere path => Paths.stripPrefix path a = none

/-- A path that is not changed: it is one that stays. -/
def Place.Fixed : Place → Prop
  | .underRoot _ _ => False
  | .elsewhere _ => True

def SearchPath.Followed (a : OsText) (p : SearchPath) : Prop :=
  match p.kind with
  | none => p.place.Followed a
  | some _ => p.place.Fixed

def FlagValue.Fixed : FlagValue → Prop
  | .lib _ => True
  | .search path => path.place.Fixed

/-- No path of the line is under the root where it is not changed, and no path is by chance where
it is. -/
def Line.Followed (a : OsText) : Line → Prop
  | .linkSearch path _ => path.Followed a
  | .rustcFlags flags _ => ∀ f ∈ flags, f.value.Fixed
  | .rerunIfChanged place _ => place.Followed a
  | .other _ => True

/-! ### Trimming -/

section Trimming

variable {front back : Text}

theorem trimRight_append_cons {c : Char} (hc : isWhitespace c = false) (front back : Text) :
    trimRight (front ++ c :: back) = front ++ c :: trimRight back := by
  unfold trimRight
  induction back using List.reverseRecOn with
  | nil =>
    rw [List.rdropWhile_concat_neg _ _ _ (by simp [hc]), List.rdropWhile_nil]
  | append_singleton back d ih =>
    rw [← List.cons_append, ← List.append_assoc]
    by_cases hd : isWhitespace d = true
    · rw [List.rdropWhile_concat_pos _ _ _ hd, List.rdropWhile_concat_pos _ _ _ hd, ih]
    · rw [List.rdropWhile_concat_neg _ _ _ hd, List.rdropWhile_concat_neg _ _ _ hd,
        List.append_assoc, List.cons_append]

theorem trimRight_append_blank (blank : Blank) (hfront : ∀ c, front.getLast? = some c →
    isWhitespace c = false) : trimRight (front ++ blank.text) = front := by
  have hblank := blank.blank
  unfold trimRight
  generalize blank.text = back at hblank
  induction back using List.reverseRecOn with
  | nil =>
    rw [List.append_nil, List.rdropWhile_eq_self_iff]
    intro hne
    have := hfront _ (List.getLast?_eq_some_getLast hne)
    simp [this]
  | append_singleton back d ih =>
    rw [← List.append_assoc, List.rdropWhile_concat_pos _ _ _ (hblank d (by simp)).1]
    exact ih fun c hc => hblank c (by simp [hc])

theorem trimRight_trimRight (t : Text) : trimRight (trimRight t) = trimRight t :=
  List.rdropWhile_idempotent isWhitespace t

theorem words_trimRight (t : Text) : words isWhitespace (trimRight t) = words isWhitespace t := by
  have hblank : ∀ c ∈ t.rtakeWhile isWhitespace, isWhitespace c = true :=
    fun c hc => List.mem_rtakeWhile_imp hc
  have h := words_append_blank (t.rdropWhile isWhitespace) hblank
  rw [List.rdropWhile_append_rtakeWhile] at h
  exact h.symm

theorem words_trimText (t : Text) : words isWhitespace (trimText t) = words isWhitespace t := by
  have hblank : ∀ c ∈ t.takeWhile isWhitespace, isWhitespace c = true :=
    fun c hc => List.mem_takeWhile_imp hc
  have h := words_blank_append hblank (t.dropWhile isWhitespace)
  rw [List.takeWhile_append_dropWhile] at h
  rw [trimText, words_trimRight, h]

theorem splitOnce_append {sep : Char} (h : sep ∉ front) (back : Text) :
    splitOnce sep (front ++ sep :: back) = (front, some back) := by
  have hne : ∀ c ∈ front, decide (c ≠ sep) = true := by
    intro c hc
    simpa using fun heq : c = sep => h (heq ▸ hc)
  rw [splitOnce, List.takeWhile_append_of_pos hne, List.dropWhile_append_of_pos hne]
  simp

end Trimming

/-! ### One line -/

section Lines

open BuildOutput

variable {a b root : OsText}

theorem readLine_directive {whence key : Text} (hkey : '=' ∉ key) (value : Text) :
    readLine whence (directive key (.ofText value)) = .ok (some (key, trimRight value)) := by
  have hline : directive key (.ofText value) =
      .ofText ("cargo".toList ++ ':' :: (key ++ '=' :: value)) := by
    simp [directive, OsText.ofText]
  have htrim : trimText ("cargo".toList ++ ':' :: (key ++ '=' :: value)) =
      "cargo".toList ++ ':' :: (key ++ '=' :: trimRight value) := by
    have hright := trimRight_append_cons (c := '=') (by decide)
      ("cargo".toList ++ ':' :: key) value
    rw [List.append_assoc, List.cons_append, List.append_assoc, List.cons_append] at hright
    -- the line starts with a letter
    exact hright
  rw [readLine, hline, OsText.toStr_ofText]
  dsimp only
  rw [htrim, splitOnce_append (by decide)]
  dsimp only
  rw [if_neg (by simp), splitOnce_append hkey]
  dsimp only
  rw [trimRight_trimRight]

/-- What is read does not depend on the name of the package. -/
theorem readLine_ok {whence : Text} {line : OsText} {said : Option (Text × Text)}
    (h : readLine [] line = .ok said) : readLine whence line = .ok said := by
  unfold readLine at h ⊢
  split at h
  · exact h
  · dsimp only at h ⊢
    split at h
    · exact h
    · split at h
      · rename_i hfirst
        rw [if_pos hfirst]
        exact h
      · rename_i hfirst
        rw [if_neg hfirst]
        split at h
        · exact h
        · cases h

theorem IsValue.exists_text {t : OsText} (h : IsValue t) :
    ∃ v, t = .ofText v ∧ '\n' ∉ v ∧ ∀ trail : Blank, trimRight (v ++ trail.text) = v := by
  obtain ⟨v, rfl⟩ := OsText.exists_ofText fun c hc => (h.chars c hc).imp fun _ hd => hd.1
  refine ⟨v, rfl, fun hmem => ?_, fun trail => trimRight_append_blank trail fun c hc => ?_⟩
  · obtain ⟨d, hd, hne⟩ := h.chars newline (List.mem_map_of_mem hmem)
    cases hd
    exact hne rfl
  · apply h.last
    rw [OsText.ofText, List.getLast?_map, hc]
    rfl

theorem IsWord.exists_text {t : OsText} (h : IsWord t) :
    ∃ v, t = .ofText v ∧ v ≠ [] ∧ ∀ c ∈ v, isWhitespace c = false := by
  obtain ⟨v, rfl⟩ := OsText.exists_ofText fun c hc => (h.chars c hc).imp fun _ hd => hd.1
  refine ⟨v, rfl, ?_, fun c hc => ?_⟩
  · rintro rfl
    exact h.ne_nil rfl
  · obtain ⟨d, hd, hblank⟩ := h.chars (.char c) (List.mem_map_of_mem hc)
    cases hd
    exact hblank

/-- The search paths of a flag. -/
def FlagValue.searched (root : OsText) : FlagValue → Option OsText
  | .lib _ => none
  | .search path => some (path.text root)

theorem plain_of_all {t : Text} (h : (t.all fun c => !isWhitespace c) = true) :
    ∀ c ∈ t, isWhitespace c = false := by
  intro c hc
  simpa using List.all_eq_true.mp h c hc

theorem FlagValue.flag_plain (value : FlagValue) :
    value.flag ≠ [] ∧ ∀ c ∈ value.flag, isWhitespace c = false := by
  have hlib : "-l".toList ≠ [] ∧ ∀ c ∈ "-l".toList, isWhitespace c = false :=
    ⟨by decide, plain_of_all rfl⟩
  have hsearch : "-L".toList ≠ [] ∧ ∀ c ∈ "-L".toList, isWhitespace c = false :=
    ⟨by decide, plain_of_all rfl⟩
  cases value with
  | lib name => exact hlib
  | search path => exact hsearch

theorem flagsLoop_flag {whence value arg : Text} {ws : List Text} {paths : List OsText}
    {links : List Text} (v : FlagValue) (hv : v.text root = .ofText arg)
    (hrest : flagsLoop value whence ws = .ok (paths, links)) :
    ∃ links', flagsLoop value whence (v.flag :: arg :: ws) =
      .ok ((v.searched root).toList ++ paths, links') := by
  cases v with
  | lib name =>
    refine ⟨arg :: links, ?_⟩
    rw [FlagValue.flag, flagsLoop, if_neg (by decide)]
    dsimp only
    rw [hrest]
    rfl
  | search path =>
    refine ⟨links, ?_⟩
    rw [FlagValue.flag, flagsLoop, if_neg (by decide)]
    dsimp only
    rw [hrest, FlagValue.searched, show path.text root = _ from hv]
    rfl

/-- The flags of a line are read as they were printed. The text starts with white space if its
first flag does. -/
theorem flagsLoop_flagsText (whence : Text) (trail : Blank) {flags : List Flag}
    (hflags : ∀ f ∈ flags, f.Printable root) (hbefore : ∀ f ∈ flags.tail, f.before.text ≠ []) :
    ∃ t, flagsText root flags ++ .ofText trail.text = .ofText t ∧ '\n' ∉ t ∧
      (∀ value, ∃ links, flagsLoop value whence (words isWhitespace t) =
        .ok (flags.flatMap fun f => (f.value.searched root).toList, links)) ∧
      ((∀ f ∈ flags.head?, f.before.text ≠ []) →
        ∀ c, t.head? = some c → isWhitespace c = true) := by
  induction flags with
  | nil =>
    refine ⟨trail.text, rfl, fun hmem => (trail.blank _ hmem).2 rfl, fun value => ⟨[], ?_⟩,
      fun _ c hc => (trail.blank c (List.mem_of_head? hc)).1⟩
    have hwords := words_blank_append (fun c hc => (trail.blank c hc).1) ([] : Text)
    rw [List.append_nil, words_nil] at hwords
    rw [hwords]
    rfl
  | cons f flags ih =>
    obtain ⟨hbetween, hword⟩ := hflags f List.mem_cons_self
    obtain ⟨t, ht, hline, hread, hhead⟩ := ih (fun g hg => hflags g (List.mem_cons_of_mem _ hg))
      fun g hg => hbefore g (List.mem_of_mem_tail hg)
    obtain ⟨v, hv, hne, hplain⟩ := hword.exists_text
    obtain ⟨hflag, hflagPlain⟩ := f.value.flag_plain
    -- the next flag begins with white space, which ends the value of this one
    have hstart : ∀ c, t.head? = some c → isWhitespace c = true :=
      hhead fun g hg => hbefore g (List.mem_of_mem_head? hg)
    refine ⟨f.before.text ++ (f.value.flag ++ (f.between.text ++ (v ++ t))), ?_, ?_, ?_, ?_⟩
    · rw [flagsText, List.flatMap_cons, List.append_assoc]
      rw [flagsText] at ht
      rw [ht, Flag.text, hv]
      simp [OsText.ofText]
    · simp only [List.mem_append, not_or]
      refine ⟨fun h => (f.before.blank _ h).2 rfl, fun h => ?_,
        fun h => (f.between.blank _ h).2 rfl, fun h => ?_, hline⟩
      · exact absurd (hflagPlain _ h) (by decide)
      · exact absurd (hplain _ h) (by decide)
    · intro value
      obtain ⟨links, hlinks⟩ := hread value
      have hgap : ∀ c, (f.between.text ++ (v ++ t)).head? = some c → isWhitespace c = true := by
        intro c hc
        rw [List.head?_append_of_ne_nil _ hbetween] at hc
        exact (f.between.blank c (List.mem_of_head? hc)).1
      rw [words_blank_append (fun c hc => (f.before.blank c hc).1),
        words_append_of_head hflag hflagPlain hgap,
        words_blank_append (fun c hc => (f.between.blank c hc).1),
        words_append_of_head hne hplain hstart]
      exact flagsLoop_flag f.value hv hlinks
    · intro hfirst c hc
      rw [List.head?_append_of_ne_nil _ (hfirst f rfl)] at hc
      exact (f.before.blank c (List.mem_of_head? hc)).1

/-- The search paths that are read of a line printed for `root`. -/
def Line.searched (a b root : OsText) : Line → List OsText
  | .linkSearch p _ => [path a b (p.text root)]
  | .rustcFlags flags _ => flags.flatMap fun f => (f.value.searched root).toList
  | _ => []

/-- The files to watch that are read of it. -/
def Line.watched (a b root : OsText) : Line → List OsText
  | .rerunIfChanged place _ => [path a b (place.path root)]
  | _ => []

theorem newline_not_mem_ofText {t : Text} (h : '\n' ∉ t) : newline ∉ OsText.ofText t := by
  intro hmem
  obtain ⟨c, hc, heq⟩ := List.mem_map.mp hmem
  cases heq
  exact h hc

theorem newline_not_mem_directive {key v : Text} (hkey : '\n' ∉ key) (hv : '\n' ∉ v) :
    newline ∉ directive key (.ofText v) := by
  have hline : directive key (.ofText v) = .ofText ("cargo:".toList ++ (key ++ '=' :: v)) := by
    simp [directive, OsText.ofText]
  rw [hline]
  apply newline_not_mem_ofText
  simp only [List.mem_append, List.mem_cons, not_or]
  exact ⟨by decide, hkey, by decide, hv⟩

theorem newline_not_mem_blank (trail : Blank) : '\n' ∉ trail.text :=
  fun h => (trail.blank _ h).2 rfl

/-- A line that names no paths adds none. -/
theorem parseLine_other {text : OsText} (h : IsOther text) (whence : Text) (a b : OsText)
    (out : BuildOutput) :
    ∃ out', parseLine whence a b out text = .ok out' ∧ out'.libraryPaths = out.libraryPaths ∧
      out'.rerunIfChanged = out.rerunIfChanged := by
  obtain ⟨-, h⟩ := h
  split at h
  · exact h.elim
  · rename_i hread
    refine ⟨out, ?_, rfl, rfl⟩
    rw [parseLine, readLine_ok hread]
    rfl
  · rename_i key value hread
    obtain ⟨hflags, hsearch, hrerun, henv⟩ := h
    have hparse : parseLine whence a b out text = note whence a b out key value := by
      rw [parseLine, readLine_ok hread]
      rfl
    rw [hparse, note, if_neg hflags]
    split
    · exact ⟨_, rfl, rfl, rfl⟩
    · split
      · exact ⟨_, rfl, rfl, rfl⟩
      · split
        · rename_i hkey
          obtain ⟨name, val, rfl, hname⟩ := List.eq_append_cons_of_mem (henv hkey)
          rw [parseRustcEnv, splitOnce_append hname]
          exact ⟨_, rfl, rfl, rfl⟩
        · split
          · exact ⟨_, rfl, rfl, rfl⟩
          · split <;> exact ⟨_, rfl, rfl, rfl⟩

/-- A value is read without the white space after it. -/
theorem parseLine_value {t : OsText} (h : IsValue t) (key : Text) (hkey : '=' ∉ key ∧ '\n' ∉ key)
    (trail : Blank) (whence : Text) (a b : OsText) :
    ∃ v, t = .ofText v ∧ newline ∉ directive key (t ++ .ofText trail.text) ∧
      ∀ out, parseLine whence a b out (directive key (t ++ .ofText trail.text)) =
        note whence a b out key v := by
  obtain ⟨v, rfl, hnewline, htrim⟩ := h.exists_text
  have htext : OsText.ofText v ++ .ofText trail.text = .ofText (v ++ trail.text) :=
    List.map_append.symm
  rw [htext]
  refine ⟨v, rfl, ?_, fun out => ?_⟩
  · apply newline_not_mem_directive hkey.2
    simpa using ⟨hnewline, newline_not_mem_blank trail⟩
  · rw [parseLine, readLine_directive hkey.1, htrim]
    rfl

/-- What is read of a line is what the script printed. -/
theorem parseLine_text {line : Line} (h : line.Printable root) (whence : Text) (a b : OsText) :
    newline ∉ line.text root ∧
      ∀ out, ∃ out', parseLine whence a b out (line.text root) = .ok out' ∧
        out'.libraryPaths = out.libraryPaths ++ line.searched a b root ∧
        out'.rerunIfChanged = out.rerunIfChanged ++ line.watched a b root := by
  cases line with
  | linkSearch p trail =>
    obtain ⟨v, hv, hnewline, hread⟩ :=
      parseLine_value h "rustc-link-search".toList (by decide) trail whence a b
    refine ⟨hnewline, fun out => ?_⟩
    rw [Line.text, hread]
    refine ⟨_, rfl, ?_, ?_⟩
    · rw [Line.searched, hv]
    · exact (List.append_nil _).symm
  | rustcFlags flags trail =>
    obtain ⟨t, ht, hnewline, hread, -⟩ :=
      flagsLoop_flagsText whence trail h.1 h.2
    rw [Line.text, ht]
    refine ⟨newline_not_mem_directive (by decide) hnewline, fun out => ?_⟩
    obtain ⟨links, hlinks⟩ := hread (trimText (trimRight t))
    -- white space around the flags does not matter
    have hparse : parseRustcFlags (trimRight t) whence =
        .ok (flags.flatMap fun f => (f.value.searched root).toList, links) := by
      rw [parseRustcFlags, words_trimText, words_trimRight, hlinks]
    rw [parseLine, readLine_directive (by decide)]
    dsimp only [bind, Except.bind]
    rw [note, if_pos rfl, hparse]
    refine ⟨_, rfl, rfl, ?_⟩
    exact (List.append_nil _).symm
  | rerunIfChanged place trail =>
    obtain ⟨v, hv, hnewline, hread⟩ :=
      parseLine_value h "rerun-if-changed".toList (by decide) trail whence a b
    refine ⟨hnewline, fun out => ?_⟩
    rw [Line.text, hread]
    refine ⟨_, rfl, ?_, ?_⟩
    · exact (List.append_nil _).symm
    · rw [Line.watched, hv]
  | other text =>
    refine ⟨h.1, fun out => ?_⟩
    obtain ⟨out', hout', hpaths, hrerun⟩ := parseLine_other h whence a b out
    exact ⟨out', hout', by rw [hpaths]; exact (List.append_nil _).symm,
      by rw [hrerun]; exact (List.append_nil _).symm⟩

/-- What is read of an output is what its lines say. -/
theorem parse_outputOf {script : List Line} (h : ∀ line ∈ script, line.Printable root)
    (pkgName : Text) (a b : OsText) :
    ∃ out, parse (outputOf script root) pkgName a b = .ok out ∧
      out.libraryPaths = script.flatMap (Line.searched a b root) ∧
      out.rerunIfChanged = script.flatMap (Line.watched a b root) := by
  unfold parse
  generalize "build script of `".toList ++ pkgName ++ "`".toList = whence
  -- whatever was read before
  suffices hall : ∀ out : BuildOutput, ∃ out',
      ((outputOf script root).splitOn newline).foldlM (parseLine whence a b) out = .ok out' ∧
      out'.libraryPaths = out.libraryPaths ++ script.flatMap (Line.searched a b root) ∧
      out'.rerunIfChanged = out.rerunIfChanged ++ script.flatMap (Line.watched a b root) from
    hall empty
  induction script with
  | nil => exact fun out => ⟨out, rfl, (List.append_nil _).symm, (List.append_nil _).symm⟩
  | cons line script ih =>
    intro out
    obtain ⟨hnewline, hline⟩ :=
      parseLine_text (h line List.mem_cons_self) whence a b
    obtain ⟨out₁, hout₁, hpaths₁, hrerun₁⟩ := hline out
    obtain ⟨out', hout', hpaths, hrerun⟩ := ih (fun l hl => h l (List.mem_cons_of_mem _ hl)) out₁
    refine ⟨out', ?_, ?_, ?_⟩
    · rw [outputOf, List.flatMap_cons, List.append_assoc, List.singleton_append,
        List.splitOn_append_cons_self_of_not_mem hnewline, List.foldlM_cons, hout₁]
      exact hout'
    · rw [hpaths, hpaths₁, List.flatMap_cons, List.append_assoc]
    · rw [hrerun, hrerun₁, List.flatMap_cons, List.append_assoc]

end Lines

/-! ### Paths that move -/

section Moving

open BuildOutput

variable {a b p rel : OsText}

theorem components_path {r : OsText} (ha : a ≠ []) (hb : b ≠ [])
    (h : Paths.stripPrefix p a = some r) :
    Paths.components p = Paths.components a ++ Paths.body (r.splitOn slash) ∧
      Paths.components (path a b p) = Paths.components b ++ Paths.body (r.splitOn slash) := by
  obtain ⟨hrelative, hcomponents, -⟩ := Paths.stripPrefix_spec h ha
  refine ⟨hcomponents, ?_⟩
  rw [path, h]
  exact Paths.components_join hb hrelative

/-- With the same root, paths stay what they are. -/
theorem same_path_self (hb : b ≠ []) (p : OsText) : Paths.Same (path b b p) p := by
  cases h : Paths.stripPrefix p b with
  | none =>
    rw [path, h]
    rfl
  | some r =>
    obtain ⟨hp, hpath⟩ := components_path hb hb h
    rw [Paths.Same, hp, hpath]

/-- A path under the root is changed to where it would have been. -/
theorem same_path_join (ha : a ≠ []) (hb : b ≠ []) (hrel : Paths.hasRoot rel = false) :
    Paths.Same (path a b (Paths.join a rel)) (Paths.join b rel) := by
  have hjoin := Paths.components_join ha hrel
  obtain ⟨r, hr⟩ := Paths.exists_stripPrefix ha hjoin
  obtain ⟨hp, hpath⟩ := components_path (b := b) ha hb hr
  rw [hjoin] at hp
  rw [Paths.Same, hpath, Paths.components_join hb hrel, List.append_cancel_left hp]

/-- Of the paths that stay, those are changed that are under the root. -/
theorem same_path_iff (ha : a ≠ []) (hb : b ≠ []) (hne : ¬Paths.Same a b) :
    Paths.Same (path a b p) p ↔ Paths.stripPrefix p a = none := by
  constructor
  · intro hsame
    cases h : Paths.stripPrefix p a with
    | none => rfl
    | some r =>
      obtain ⟨hp, hpath⟩ := components_path (b := b) ha hb h
      rw [Paths.Same, hp, hpath] at hsame
      exact absurd (List.append_cancel_right hsame).symm hne
  · intro h
    rw [path, h]
    rfl

/-- Texts with a path in them that starts at the root. -/
theorem same_append_join_iff (ha : Paths.hasRoot a = true) (hb : Paths.hasRoot b = true)
    (hrel : Paths.hasRoot rel = false) (k : OsText) :
    Paths.Same (k ++ Paths.join a rel) (k ++ Paths.join b rel) ↔ Paths.Same a b := by
  have hjoin : Paths.Same (Paths.join a rel) (Paths.join b rel) ↔ Paths.Same a b := by
    rw [Paths.Same, Paths.components_join (Paths.ne_nil_of_hasRoot ha) hrel,
      Paths.components_join (Paths.ne_nil_of_hasRoot hb) hrel, List.append_left_inj, Paths.Same]
  rw [← hjoin]
  by_cases hk : k = []
  · rw [hk, List.nil_append, List.nil_append]
  · have ha' := Paths.hasRoot_join ha rel
    have hb' := Paths.hasRoot_join hb rel
    rw [Paths.Same, Paths.Same, Paths.components_append_of_hasRoot hk ha',
      Paths.components_append_of_hasRoot hk hb', List.append_right_inj,
      Paths.components_of_hasRoot ha', Paths.components_of_hasRoot hb']
    simp

/-- A text that starts with a kind is a relative path. -/
theorem hasRoot_kind (kind : SearchKind) (t : OsText) :
    Paths.hasRoot (.ofText kind.text ++ t) = false := by
  cases kind <;> rfl

end Moving

/-! ### Lines that can be moved -/

section Lines

open BuildOutput

variable {a b : OsText}

theorem Place.followed_iff (ha : a ≠ []) (hb : b ≠ []) (hne : ¬Paths.Same a b) (place : Place) :
    Paths.Same (BuildOutput.path a b (place.path a)) (BuildOutput.path b b (place.path b)) ↔
      place.Followed a := by
  have hself := same_path_self hb (place.path b)
  cases place with
  | underRoot rel hrel => exact iff_of_true ((same_path_join ha hb hrel).trans hself.symm) trivial
  | elsewhere p =>
    change _ ↔ Paths.stripPrefix p a = none
    rw [← same_path_iff ha hb hne]
    exact ⟨fun h => h.trans hself, fun h => h.trans hself.symm⟩

theorem Place.fixed_iff (ha : Paths.hasRoot a = true) (hb : Paths.hasRoot b = true)
    (hne : ¬Paths.Same a b) (k : OsText) (place : Place) :
    Paths.Same (k ++ place.path a) (k ++ place.path b) ↔ place.Fixed := by
  cases place with
  | underRoot rel hrel =>
    exact iff_of_false (fun h => hne ((same_append_join_iff ha hb hrel k).mp h)) id
  | elsewhere p => exact iff_of_true rfl trivial

theorem SearchPath.followed_iff (ha : Paths.hasRoot a = true) (hb : Paths.hasRoot b = true)
    (hne : ¬Paths.Same a b) (p : SearchPath) :
    Paths.Same (path a b (p.text a)) (path b b (p.text b)) ↔ p.Followed a := by
  obtain ⟨kind, place⟩ := p
  cases kind with
  | none =>
    exact place.followed_iff (Paths.ne_nil_of_hasRoot ha) (Paths.ne_nil_of_hasRoot hb) hne
  | some kind =>
    -- neither root is found at the start
    have hstay : ∀ root r, Paths.hasRoot r = true →
        path r b (.ofText kind.text ++ place.path root) =
          .ofText kind.text ++ place.path root := by
      intro root r hr
      rw [path, Paths.stripPrefix_of_relative (hasRoot_kind kind _) hr]
    have htext : ∀ root, (SearchPath.mk (some kind) place).text root =
        .ofText kind.text ++ place.path root := fun _ => rfl
    rw [htext, htext, hstay a a ha, hstay b b hb]
    exact place.fixed_iff ha hb hne _

theorem FlagValue.fixed_iff (ha : Paths.hasRoot a = true) (hb : Paths.hasRoot b = true)
    (hne : ¬Paths.Same a b) (v : FlagValue) :
    List.Forall₂ Paths.Same (v.searched a).toList (v.searched b).toList ↔ v.Fixed := by
  cases v with
  | lib name => exact iff_of_true .nil trivial
  | search p =>
    change List.Forall₂ Paths.Same [p.text a] [p.text b] ↔ _
    simp only [List.forall₂_cons, List.Forall₂.nil, and_true]
    exact p.place.fixed_iff ha hb hne _

/-- A line can be moved if its paths are changed where they move, and not where they stay. -/
theorem Line.followed_iff (ha : Paths.hasRoot a = true) (hb : Paths.hasRoot b = true)
    (hne : ¬Paths.Same a b) (line : Line) :
    List.Forall₂ Paths.Same (line.searched a b a) (line.searched b b b) ∧
      List.Forall₂ Paths.Same (line.watched a b a) (line.watched b b b) ↔ line.Followed a := by
  cases line with
  | linkSearch p trail =>
    change List.Forall₂ Paths.Same [path a b (p.text a)] [path b b (p.text b)] ∧
      List.Forall₂ Paths.Same [] [] ↔ _
    simp only [List.forall₂_cons, List.Forall₂.nil, and_true]
    exact p.followed_iff ha hb hne
  | rustcFlags flags trail =>
    have hflags := forall₂_flatMap_iff (R := Paths.Same) (l := flags)
      (f := fun f => (f.value.searched a).toList) (g := fun f => (f.value.searched b).toList)
      fun f _ => by cases f.value <;> rfl
    refine (and_iff_left .nil).trans (hflags.trans ?_)
    exact forall₂_congr fun f _ => f.value.fixed_iff ha hb hne
  | rerunIfChanged place trail =>
    change List.Forall₂ Paths.Same [] [] ∧
      List.Forall₂ Paths.Same [path a b (place.path a)] [path b b (place.path b)] ↔ _
    simp only [List.forall₂_cons, List.Forall₂.nil, and_true, true_and]
    exact place.followed_iff (Paths.ne_nil_of_hasRoot ha) (Paths.ne_nil_of_hasRoot hb) hne
  | other text => exact iff_of_true ⟨.nil, .nil⟩ trivial

theorem length_searched (r : OsText) (line : Line) :
    (line.searched r b a).length = (line.searched b b b).length := by
  cases line with
  | rustcFlags flags trail =>
    rw [Line.searched, Line.searched, List.length_flatMap, List.length_flatMap]
    congr 1
    apply List.map_congr_left
    intro f _
    cases f.value <;> rfl
  | linkSearch p trail => rfl
  | rerunIfChanged place trail => rfl
  | other text => rfl

theorem length_watched (r : OsText) (line : Line) :
    (line.watched r b a).length = (line.watched b b b).length := by
  cases line <;> rfl

/-- An output can be moved exactly if no path that has a kind or is in `rustc-flags` is under the
root, and no path that stays is under it by chance. -/
theorem relocates_iff (pkgName : Text) {script : List Line} (ha : Paths.hasRoot a = true)
    (hb : Paths.hasRoot b = true) (hne : ¬Paths.Same a b)
    (hprintable : ∀ line ∈ script, line.Printable a ∧ line.Printable b) :
    Relocates pkgName script a b ↔ ∀ line ∈ script, line.Followed a := by
  obtain ⟨out, hout, hpaths, hrerun⟩ :=
    parse_outputOf (fun line hline => (hprintable line hline).1) pkgName a b
  obtain ⟨out', hout', hpaths', hrerun'⟩ :=
    parse_outputOf (fun line hline => (hprintable line hline).2) pkgName b b
  have hlists : List.Forall₂ Paths.Same out.libraryPaths out'.libraryPaths ∧
      List.Forall₂ Paths.Same out.rerunIfChanged out'.rerunIfChanged ↔
        ∀ line ∈ script, line.Followed a := by
    rw [hpaths, hpaths', hrerun, hrerun', forall₂_flatMap_iff fun l _ => length_searched a l,
      forall₂_flatMap_iff fun l _ => length_watched a l, ← forall₂_and]
    exact forall₂_congr fun line _ => line.followed_iff ha hb hne
  rw [← hlists]
  constructor
  · rintro ⟨o, o', ho, ho', h⟩
    rw [hout, Except.ok.injEq] at ho
    rw [hout', Except.ok.injEq] at ho'
    rw [ho, ho']
    exact h
  · exact fun h => ⟨out, out', hout, hout', h⟩

end Lines

/-! ### An output that is moved -/

theorem isValue_ofText {t : Text} (hline : '\n' ∉ t)
    (hlast : ∀ d, t.getLast? = some d → isWhitespace d = false) : IsValue (.ofText t) where
  chars c hc := by
    obtain ⟨d, hd, rfl⟩ := List.mem_map.mp hc
    exact ⟨d, rfl, fun heq => hline (heq ▸ hd)⟩
  last d hd := by
    rw [OsText.ofText, List.getLast?_map] at hd
    obtain ⟨d', hd', heq⟩ := Option.map_eq_some_iff.mp hd
    cases heq
    exact hlast d hd'

theorem isWord_ofText {t : Text} (hne : t ≠ []) (hplain : ∀ c ∈ t, isWhitespace c = false) :
    IsWord (.ofText t) where
  chars c hc := by
    obtain ⟨d, hd, rfl⟩ := List.mem_map.mp hc
    exact ⟨d, rfl, hplain d hd⟩
  ne_nil h := hne (List.map_eq_nil_iff.mp h)

def noBlank : Blank := ⟨[], by simp⟩

def oneBlank : Blank where
  text := [' ']
  blank c hc := by
    rw [List.mem_singleton.mp hc]
    decide

def libDir : Place := .underRoot (.ofText "lib".toList) rfl

def systemDir : Place := .elsewhere (.ofText "/usr/lib".toList)

/-- Search paths under the root and elsewhere, and a flag. -/
def movable : List Line :=
  [.linkSearch ⟨none, libDir⟩ oneBlank, .linkSearch ⟨some .native, systemDir⟩ noBlank,
    .rustcFlags [⟨noBlank, oneBlank, .search ⟨none, systemDir⟩⟩] noBlank,
    .rerunIfChanged libDir noBlank]

theorem movable_relocates :
    Relocates "zlib".toList movable (.ofText "/old".toList) (.ofText "/new".toList) := by
  refine (relocates_iff "zlib".toList rfl rfl (by decide) ?_).mpr ?_
  · have hold : IsValue (.ofText "/old/lib".toList) :=
      isValue_ofText (by decide) fun d hd => by cases hd; rfl
    have hnew : IsValue (.ofText "/new/lib".toList) :=
      isValue_ofText (by decide) fun d hd => by cases hd; rfl
    have hnative : IsValue (.ofText "native=/usr/lib".toList) :=
      isValue_ofText (by decide) fun d hd => by cases hd; rfl
    have hflag : IsWord (.ofText "/usr/lib".toList) := isWord_ofText (by decide) (plain_of_all rfl)
    have hflags : ∀ root, (Line.rustcFlags [⟨noBlank, oneBlank, .search ⟨none, systemDir⟩⟩]
        noBlank).Printable root := by
      intro root
      refine ⟨fun f hf => ?_, fun f hf => by cases hf⟩
      rw [List.mem_singleton.mp hf]
      exact ⟨by decide, hflag⟩
    simp only [movable, List.forall_mem_cons, List.not_mem_nil, false_implies, implies_true,
      and_true]
    exact ⟨⟨hold, hnew⟩, ⟨hnative, hnative⟩, ⟨hflags _, hflags _⟩, hold, hnew⟩
  · simp only [movable, List.forall_mem_cons, List.not_mem_nil, false_implies, implies_true,
      and_true]
    refine ⟨trivial, trivial, fun f hf => ?_, trivial⟩
    rw [List.mem_singleton.mp hf]
    trivial

/-- Search paths under the root that have a kind, or are in flags, are still where they were. -/
theorem native_and_flags_stay :
    ¬Relocates "zlib".toList [.linkSearch ⟨some .native, libDir⟩ noBlank]
        (.ofText "/old".toList) (.ofText "/new".toList) ∧
      ¬Relocates "zlib".toList
        [.rustcFlags [⟨noBlank, oneBlank, .search ⟨none, libDir⟩⟩] noBlank]
        (.ofText "/old".toList) (.ofText "/new".toList) := by
  constructor
  · rintro ⟨out, out', hout, hout', hpaths, -⟩
    cases hout
    cases hout'
    obtain _ | ⟨hsame, -⟩ := hpaths
    exact absurd hsame (by decide)
  · rintro ⟨out, out', hout, hout', hpaths, -⟩
    cases hout
    cases hout'
    obtain _ | ⟨hsame, -⟩ := hpaths
    exact absurd hsame (by decide)

end Cargo.Compiler.CustomBuild
