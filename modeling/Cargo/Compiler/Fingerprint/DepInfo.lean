import Cargo.Core.Url
import Cargo.Math.Iteration
import Cargo.Math.Memo
import Cargo.Util.Paths
import Cargo.Util.Toml.Targets

/-!
# Dep-info

The compiler lists the files that it has read in a makefile: a line for each rule, which has a
target and the files it depends on, with a backslash before each space in a name. For a package,
the files of the first rule are kept in a format of its own: paths that end with a NUL, relative
to the root of the package if they are under it.

A backslash at the end of a word is taken for that of a space in a name, wherever it comes from,
and words end at whitespace of any kind. So names survive if they end neither in a space nor in a
backslash, and hold no whitespace other than spaces. A rule that ends in a backslash cannot be
read, and with it the whole file.

## Main definitions

* `parseRustcDepInfo` — the rules of a makefile
* `translateDepInfo`, `parseDepInfo` — the paths that are kept, and how they are found again
* `ListsFirst` — the first rule lists these files
* `Survives` — the files are found again
* `Translatable` — what a makefile has to be like for that

## Main results

* `translateDepInfo_eq_ok` — what is written
* `parseDepInfo_written` — what is read back
* `survives_of_translatable`, `translatable_of_survives` — when the files are found again
-/

set_option autoImplicit false

namespace Cargo.Compiler.Fingerprint

open Cargo.Core Cargo.Math Cargo.Util

/-! ### Reading -/

/-- A carriage return before a line feed belongs to the end of the line. -/
def withoutReturn (line : Text) : Text :=
  if line.getLast? = some '\r' then line.dropLast else line

/-- `lines`: the line feed at the end of the last one is optional. -/
def lines (contents : Text) : List Text :=
  let pieces := contents.splitOn '\n'
  pieces.dropLast.map withoutReturn ++ pieces.getLast?.toList.filter fun line => !line.isEmpty

/-- The target and the dependencies that a line gives, if it is a rule: what is before and what
is after the first colon with a space. -/
def ruleOf : Text → Option (Text × Text)
  | c :: d :: line =>
    if c = ':' ∧ d = ' ' then some ([], line)
    else (ruleOf (d :: line)).map fun (target, deps) => (c :: target, deps)
  | _ => none

/-- The names after a target. One that ends with a backslash goes on with the next word. -/
def readDeps (deps : Text) : Except Text (List Text) :=
  match joinWords '\\' ' ' (words isWhitespace deps) with
  | none => .error "malformed dep-info format, trailing \\".toList
  | some files => .ok files

def readRule : Text × Text → Except Text (Text × List Text)
  | (target, deps) => (readDeps deps).map fun files => (target, files)

/-- `parse_rustc_dep_info` -/
def parseRustcDepInfo (contents : Text) : Except Text (List (Text × List Text)) :=
  ((lines contents).filterMap ruleOf).mapM readRule

/-! ### Translating -/

def nul : OsChar := .char '\x00'

/-- How a file is kept. -/
def depPath (pkgRoot rustcCwd : OsText) (file : Text) : OsText :=
  let absolute := Paths.join rustcCwd (.ofText file)
  (Paths.stripPrefix absolute pkgRoot).getD absolute

/-- `translate_dep_info`: what is written for the contents of a makefile. -/
def translateDepInfo (contents : Text) (pkgRoot rustcCwd : OsText) : Except Text OsText := do
  let target ← parseRustcDepInfo contents
  match target with
  | [] => .error "malformed dep-info format, no targets".toList
  | (_, deps) :: _ => .ok (deps.flatMap fun file => depPath pkgRoot rustcCwd file ++ [nul])

/-- `parse_dep_info`: the paths that are kept in a file, if it can be read. -/
def parseDepInfo (pkgRoot : OsText) : Option OsText → Option (List OsText)
  | none => none
  | some data =>
    let paths := (words (fun c => decide (c = nul)) data).map (Paths.join pkgRoot)
    if paths = [] then none else some paths

example : parseRustcDepInfo "a.d: x\\ y.rs z.rs\n\nz.rs:\n".toList =
    .ok [("a.d".toList, ["x y.rs".toList, "z.rs".toList])] := by decide

/-! ### Files that are found again -/

/-- The directory that a process runs in, as the operating system has it. -/
structure WorkingDir where
  path : OsText
  absolute : Paths.hasRoot path = true
  noNul : nul ∉ path

/-- The first rule of a makefile lists these names, with a backslash before each space. The other
lines after it are `rest`. -/
def ListsFirst (contents : Text) (names rest : List Text) : Prop :=
  ∃ before target, lines contents =
      before ++ (target ++ ':' :: ' ' :: lineOf '\\' ' ' names) :: rest ∧
    (∀ line ∈ before, ruleOf line = none) ∧ ¬[':', ' '] <:+: target

/-- What is read back are the names, joined to the working directory, as paths. -/
def Survives (contents : Text) (names : List Text) (pkgRoot rustcCwd : OsText) : Prop :=
  ∃ data paths, translateDepInfo contents pkgRoot rustcCwd = .ok data ∧
    parseDepInfo pkgRoot (some data) = some paths ∧
    List.Forall₂ Paths.Same paths (names.map fun name => Paths.join rustcCwd (.ofText name))

/-- Only spaces, of all whitespace. -/
def Spaced (name : Text) : Prop := ∀ c ∈ name, isWhitespace c = true → c = ' '

instance (name : Text) : Decidable (Spaced name) :=
  List.decidableBAll (fun c => isWhitespace c = true → c = ' ') name

def SpacedPath (path : OsText) : Prop :=
  ∀ c, .char c ∈ path → isWhitespace c = true → c = ' '

/-- The last word of the dependencies ends in a backslash. -/
def EndsInBackslash (deps : Text) : Prop :=
  (deps.filter fun c => !isWhitespace c).getLast? = some '\\'

instance (deps : Text) : Decidable (EndsInBackslash deps) :=
  inferInstanceAs (Decidable (_ = _))

/-- The names end, neither in a space nor in a backslash, and hold no whitespace other than
spaces; no other rule ends in a backslash. -/
structure Translatable (names rest : List Text) : Prop where
  whole : ∀ name ∈ names, EndsWhole '\\' ' ' name
  spaced : ∀ name ∈ names, Spaced name
  readable : ∀ line ∈ rest, ∀ rule, ruleOf line = some rule → ¬EndsInBackslash rule.2

/-! ### Rules -/

section Rules

variable {line target deps : Text}

theorem ruleOf_append (h : ¬[':', ' '] <:+: target) (deps : Text) :
    ruleOf (target ++ ':' :: ' ' :: deps) = some (target, deps) := by
  induction target with
  | nil =>
    rw [List.nil_append, ruleOf, if_pos ⟨rfl, rfl⟩]
  | cons c target ih =>
    have htail : ¬[':', ' '] <:+: target := fun hin =>
      h (hin.trans (List.suffix_cons c target).isInfix)
    cases target with
    | nil =>
      rw [List.singleton_append, ruleOf, if_neg (by simp)]
      rfl
    | cons d target =>
      have hcd : ¬(c = ':' ∧ d = ' ') := by
        rintro ⟨rfl, rfl⟩
        exact h ⟨[], target, rfl⟩
      rw [List.cons_append, List.cons_append, ruleOf, if_neg hcd, ← List.cons_append, ih htail]
      rfl

theorem eq_append_of_ruleOf {rule : Text × Text} (h : ruleOf line = some rule) :
    line = rule.1 ++ ':' :: ' ' :: rule.2 := by
  induction line using ruleOf.induct generalizing rule with
  | case1 c d line hcd =>
    rw [ruleOf, if_pos hcd] at h
    cases h
    rw [hcd.1, hcd.2]
    rfl
  | case2 c d line hcd ih =>
    rw [ruleOf, if_neg hcd] at h
    obtain ⟨rule', hrule', rfl⟩ := Option.map_eq_some_iff.mp h
    rw [ih hrule']
    rfl
  | case3 line hline =>
    rw [ruleOf] at h
    · cases h
    · exact hline

/-- A line without a colon and a space is no rule. -/
theorem ruleOf_eq_none (h : ¬[':', ' '] <:+: line) : ruleOf line = none := by
  by_contra hsome
  obtain ⟨rule, hrule⟩ := Option.ne_none_iff_exists'.mp hsome
  rw [eq_append_of_ruleOf hrule] at h
  exact h ⟨rule.1, rule.2, by simp⟩

end Rules

/-! ### Names -/

section Names

variable {deps : Text} {names files : List Text}

theorem isWhitespace_space : isWhitespace ' ' = true := by decide

theorem isWhitespace_backslash : isWhitespace '\\' = false := by decide

theorem readDeps_eq_ok : readDeps deps = .ok files ↔
    joinWords '\\' ' ' (words isWhitespace deps) = some files := by
  rw [readDeps]
  cases joinWords '\\' ' ' (words isWhitespace deps) <;> simp

/-- Dependencies can be read unless the last word is to go on. -/
theorem exists_readDeps_iff : (∃ files, readDeps deps = .ok files) ↔ ¬EndsInBackslash deps := by
  simp only [readDeps_eq_ok]
  rw [← Option.isSome_iff_exists, joinWords_isSome_iff fun w hw => ne_nil_of_mem_words hw,
    flatten_words, EndsInBackslash]

theorem readDeps_lineOf (hwhole : ∀ name ∈ names, EndsWhole '\\' ' ' name)
    (hspaced : ∀ name ∈ names, Spaced name) : readDeps (lineOf '\\' ' ' names) = .ok names :=
  readDeps_eq_ok.mpr
    (joinWords_lineOf isWhitespace_space isWhitespace_backslash hspaced hwhole)

/-- As many names are read as end whole. -/
theorem length_readDeps (hspaced : ∀ name ∈ names, Spaced name)
    (h : readDeps (lineOf '\\' ' ' names) = .ok files) :
    files.length = names.countP fun name => decide (EndsWhole '\\' ' ' name) :=
  length_joinWords_lineOf isWhitespace_space isWhitespace_backslash hspaced (readDeps_eq_ok.mp h)

/-- If no fewer names are read, they all end whole. -/
theorem endsWhole_of_length_le (hspaced : ∀ name ∈ names, Spaced name)
    (h : readDeps (lineOf '\\' ' ' names) = .ok files) (hlength : names.length ≤ files.length) :
    ∀ name ∈ names, EndsWhole '\\' ' ' name := by
  have hle : (names.countP fun name => decide (EndsWhole '\\' ' ' name)) ≤ names.length :=
    List.countP_le_length
  have hcount := length_readDeps hspaced h
  intro name hname
  have hall := List.countP_eq_length.mp (hle.antisymm (by omega)) name hname
  exact of_decide_eq_true hall

/-- Whitespace is read only as the space between words that were put together. -/
theorem mem_of_mem_readDeps (h : readDeps deps = .ok files) {file : Text} (hfile : file ∈ files)
    {c : Char} (hc : c ∈ file) : c = ' ' ∨ c ∈ deps ∧ isWhitespace c = false := by
  refine (mem_joinWords (readDeps_eq_ok.mp h) hfile hc).imp_right ?_
  rintro ⟨w, hw, hcw⟩
  have hmem : c ∈ (words isWhitespace deps).flatten := List.mem_flatten.mpr ⟨w, hw, hcw⟩
  rw [flatten_words, List.mem_filter] at hmem
  simpa using hmem

theorem readRule_eq_ok {rule : Text × Text} {read : Text × List Text} :
    readRule rule = .ok read ↔ readDeps rule.2 = .ok read.2 ∧ rule.1 = read.1 := by
  rw [readRule, map_eq_ok]
  constructor
  · rintro ⟨files, hfiles, rfl⟩
    exact ⟨hfiles, rfl⟩
  · rintro ⟨hfiles, htarget⟩
    exact ⟨read.2, hfiles, Prod.ext htarget rfl⟩

theorem spaced_of_mem_readDeps (h : readDeps deps = .ok files) {file : Text}
    (hfile : file ∈ files) : Spaced file := by
  intro c hc hwhite
  rcases mem_of_mem_readDeps h hfile hc with hspace | ⟨-, hnot⟩
  · exact hspace
  · rw [hwhite] at hnot
    cases hnot

end Names

/-! ### Lines -/

section Lines

variable {contents line : Text}

/-- A file of one line. -/
theorem lines_concat (hline : '\n' ∉ line) (hlast : line.getLast? ≠ some '\r') :
    lines (line ++ ['\n']) = [line] := by
  have hsplit : (line ++ ['\n']).splitOn '\n' = [line, []] := by
    rw [List.splitOn_append_cons_self_of_not_mem hline]
    rfl
  rw [lines, hsplit]
  simp [withoutReturn, hlast]

theorem lines_nil : lines [] = [] := rfl

/-- A text can be cut after a line. -/
theorem lines_append_newline (front back : Text) :
    lines (front ++ '\n' :: back) = lines (front ++ ['\n']) ++ lines back := by
  have hback : back.splitOn '\n' ≠ [] := List.splitOnP_ne_nil _ _
  have hcut : (front ++ '\n' :: back).splitOn '\n' =
      front.splitOn '\n' ++ back.splitOn '\n' := List.splitOn_append_cons_self _ _
  have hline : (front ++ ['\n']).splitOn '\n' = front.splitOn '\n' ++ [[]] :=
    List.splitOn_append_cons_self _ _
  rw [lines, hcut, lines, hline, lines]
  simp [List.dropLast_append_of_ne_nil hback, List.getLast?_append_of_ne_nil _ hback]

theorem newline_not_mem_lines (h : line ∈ lines contents) : '\n' ∉ line := by
  have hpieces : ∀ piece ∈ contents.splitOn '\n', '\n' ∉ piece := by
    clear h
    induction contents using sep_induction '\n' with
    | plain l hl =>
      rw [List.splitOn_eq_singleton hl]
      simpa using hl
    | step front back hfront ih =>
      rw [List.splitOn_append_cons_self_of_not_mem hfront]
      exact List.forall_mem_cons.mpr ⟨hfront, ih⟩
  rcases List.mem_append.mp h with h | h
  · obtain ⟨piece, hpiece, rfl⟩ := List.mem_map.mp h
    have hnot := hpieces piece (List.dropLast_subset _ hpiece)
    rw [withoutReturn]
    split
    · exact fun hmem => hnot (List.dropLast_subset _ hmem)
    · exact hnot
  · have hmem := List.mem_of_mem_filter h
    exact hpieces line (List.mem_of_getLast? (Option.mem_toList.mp hmem))

/-- Targets are on one line, and names have only spaces, of all whitespace. -/
theorem mem_parseRustcDepInfo {rules : List (Text × List Text)}
    (h : parseRustcDepInfo contents = .ok rules) {target : Text} {files : List Text}
    (hrule : (target, files) ∈ rules) : '\n' ∉ target ∧ ∀ file ∈ files, Spaced file := by
  obtain ⟨rule, hmem, hread⟩ := (mem_of_mapM_ok h _).mp hrule
  obtain ⟨line, hline, hruleOf⟩ := List.mem_filterMap.mp hmem
  obtain ⟨hfiles, rfl⟩ := readRule_eq_ok.mp hread
  refine ⟨fun hnewline => newline_not_mem_lines hline ?_, fun file hfile =>
    spaced_of_mem_readDeps hfiles hfile⟩
  rw [eq_append_of_ruleOf hruleOf]
  exact List.mem_append_left _ hnewline

end Lines

/-! ### What is written -/

section Written

variable {contents : Text} {names rest : List Text} {pkgRoot rustcCwd data : OsText}

/-- The rules can be read if those that come later end as they should. -/
theorem exists_readRules_iff {rules : List (Text × Text)} :
    (∃ read, rules.mapM readRule = .ok read) ↔ ∀ rule ∈ rules, ¬EndsInBackslash rule.2 := by
  have hrule : ∀ rule, (∃ read, readRule rule = .ok read) ↔ ¬EndsInBackslash rule.2 := by
    intro rule
    rw [← exists_readDeps_iff]
    constructor
    · rintro ⟨read, hread⟩
      exact ⟨read.2, (readRule_eq_ok.mp hread).1⟩
    · rintro ⟨files, hfiles⟩
      exact ⟨(rule.1, files), readRule_eq_ok.mpr ⟨hfiles, rfl⟩⟩
  constructor
  · rintro ⟨read, hread⟩ rule hmem
    obtain ⟨b, -, hb⟩ := exists_of_mapM_ok hread hmem
    exact (hrule rule).mp ⟨b, hb⟩
  · intro h
    exact exists_mapM_ok fun rule hmem => (hrule rule).mpr (h rule hmem)

/-- What is written: the files of the first rule, if all rules can be read. -/
theorem translateDepInfo_eq_ok (h : ListsFirst contents names rest) :
    translateDepInfo contents pkgRoot rustcCwd = .ok data ↔
      ∃ files, readDeps (lineOf '\\' ' ' names) = .ok files ∧
        (∀ line ∈ rest, ∀ rule, ruleOf line = some rule → ¬EndsInBackslash rule.2) ∧
        data = files.flatMap fun file => depPath pkgRoot rustcCwd file ++ [nul] := by
  obtain ⟨before, target, hlines, hbefore, htarget⟩ := h
  have hrules : (lines contents).filterMap ruleOf =
      (target, lineOf '\\' ' ' names) :: rest.filterMap ruleOf := by
    rw [hlines, List.filterMap_append, List.filterMap_eq_nil_iff.mpr hbefore, List.nil_append,
      List.filterMap_cons, ruleOf_append htarget]
  have hrest : (∀ line ∈ rest, ∀ rule, ruleOf line = some rule → ¬EndsInBackslash rule.2) ↔
      ∀ rule ∈ rest.filterMap ruleOf, ¬EndsInBackslash rule.2 := by
    constructor
    · intro h rule hrule
      obtain ⟨line, hline, hsome⟩ := List.mem_filterMap.mp hrule
      exact h line hline rule hsome
    · intro h line hline rule hsome
      exact h rule (List.mem_filterMap.mpr ⟨line, hline, hsome⟩)
  rw [hrest, ← exists_readRules_iff, translateDepInfo, bind_eq_ok, parseRustcDepInfo, hrules]
  constructor
  · rintro ⟨read, hread, hdata⟩
    obtain ⟨first, read', hfirst, hread', rfl⟩ :=
      List.forall₂_cons_left_iff.mp (mapM_eq_ok.mp hread)
    cases hdata
    exact ⟨first.2, (readRule_eq_ok.mp hfirst).1, ⟨read', mapM_eq_ok.mpr hread'⟩, rfl⟩
  · rintro ⟨files, hfiles, ⟨read', hread'⟩, rfl⟩
    have hfirst : readRule (target, lineOf '\\' ' ' names) = .ok (target, files) :=
      readRule_eq_ok.mpr ⟨hfiles, rfl⟩
    exact ⟨(target, files) :: read', mapM_eq_ok.mpr (.cons hfirst (mapM_eq_ok.mp hread')), rfl⟩

/-- How a file is kept says where it is, and holds no NUL if its name does not. -/
theorem depPath_spec (cwd : WorkingDir) (pkgRoot : OsText) {file : Text} (hfile : '\x00' ∉ file) :
    Paths.Same (Paths.join pkgRoot (depPath pkgRoot cwd.path file))
      (Paths.join cwd.path (.ofText file)) ∧
    (¬Paths.Same (Paths.join cwd.path (.ofText file)) pkgRoot →
      depPath pkgRoot cwd.path file ≠ []) ∧ nul ∉ depPath pkgRoot cwd.path file := by
  obtain ⟨hsame, hne⟩ := Paths.same_join_stripPrefix
    (Paths.hasRoot_join cwd.absolute (.ofText file)) pkgRoot
  refine ⟨hsame, hne, fun hnul => ?_⟩
  rcases Paths.mem_getD_stripPrefix hnul with hmem | hslash
  · rcases Paths.mem_join hmem with hcwd | htext | hslash
    · exact cwd.noNul hcwd
    · obtain ⟨c, hc, hceq⟩ := List.mem_map.mp htext
      cases hceq
      exact hfile hc
    · cases hslash
  · cases hslash

/-- What is read back: the files that are not the root of the package. -/
theorem parseDepInfo_written {pieces : List OsText} (h : ∀ piece ∈ pieces, nul ∉ piece)
    (pkgRoot : OsText) (paths : List OsText) :
    parseDepInfo pkgRoot (some (pieces.flatMap fun piece => piece ++ [nul])) = some paths ↔
      paths ≠ [] ∧
        paths = (pieces.filter fun piece => !piece.isEmpty).map (Paths.join pkgRoot) := by
  -- the zero bytes are where the pieces end, and nowhere else
  have hwords : words (fun c => decide (c = nul)) (pieces.flatMap fun piece => piece ++ [nul]) =
      pieces.filter fun piece => !piece.isEmpty := by
    induction pieces with
    | nil => exact words_nil
    | cons piece pieces ih =>
      rw [List.flatMap_cons, List.append_assoc, List.singleton_append,
        words_append_cons _ _ (by simp), ih fun p hp => h p (List.mem_cons_of_mem _ hp)]
      have hpiece : nul ∉ piece := h piece List.mem_cons_self
      by_cases hnil : piece = []
      · subst hnil
        rw [words_nil]
        rfl
      · rw [words_eq_singleton hnil, List.filter_cons_of_pos (by simp [hnil])]
        · rfl
        · intro c hc
          simpa using fun hceq : c = nul => hpiece (hceq ▸ hc)
  rw [parseDepInfo, hwords]
  split
  · rename_i hnil
    rw [hnil]
    constructor
    · intro h
      cases h
    · rintro ⟨hne, rfl⟩
      exact absurd rfl hne
  · rename_i hne
    rw [Option.some.injEq]
    constructor
    · rintro rfl
      exact ⟨hne, rfl⟩
    · rintro ⟨-, rfl⟩
      rfl

end Written

/-! ### When files are found again -/

section Survival

variable {contents : Text} {names rest : List Text} {cwd : WorkingDir} {pkgRoot : OsText}

theorem survives_of_translatable (hlists : ListsFirst contents names rest) (hnames : names ≠ [])
    (hnul : ∀ name ∈ names, '\x00' ∉ name)
    (hroot : ∀ name ∈ names, ¬Paths.Same (Paths.join cwd.path (.ofText name)) pkgRoot)
    (h : Translatable names rest) : Survives contents names pkgRoot cwd.path := by
  have hread := readDeps_lineOf h.whole h.spaced
  have hspec := fun name hname => depPath_spec cwd pkgRoot (hnul name hname)
  refine ⟨_, names.map fun name => Paths.join pkgRoot (depPath pkgRoot cwd.path name),
    (translateDepInfo_eq_ok hlists).mpr ⟨names, hread, h.readable, rfl⟩, ?_, ?_⟩
  · have hpieces : ∀ piece ∈ names.map (depPath pkgRoot cwd.path), nul ∉ piece ∧ piece ≠ [] := by
      intro piece hpiece
      obtain ⟨name, hname, rfl⟩ := List.mem_map.mp hpiece
      obtain ⟨-, hne, hno⟩ := hspec name hname
      exact ⟨hno, hne (hroot name hname)⟩
    have hwritten := (parseDepInfo_written (fun piece hp => (hpieces piece hp).1) pkgRoot
      ((names.map (depPath pkgRoot cwd.path)).map (Paths.join pkgRoot))).mpr
    rw [List.flatMap_map, List.map_map] at hwritten
    refine hwritten ⟨by simpa using hnames, ?_⟩
    rw [List.filter_eq_self.mpr fun piece hp => by simp [(hpieces piece hp).2], List.map_map]
  · rw [List.forall₂_map_left_iff, List.forall₂_map_right_iff, List.forall₂_same]
    exact fun name hname => (hspec name hname).1

/-- The same path has the same whitespace. -/
theorem spacedPath_of_same {p q : OsText} (h : Paths.Same p q) (hp : SpacedPath p) :
    SpacedPath q := by
  intro c hc hwhite
  refine hp c ((h.mem_iff ?_ ?_).mpr hc) hwhite
  · rintro ⟨⟩
    cases hwhite
  · rintro ⟨⟩
    cases hwhite

/-- Each path that is read back is that of a file. -/
theorem exists_file_of_survives (hlists : ListsFirst contents names rest)
    (hnul : ∀ name ∈ names, '\x00' ∉ name) (h : Survives contents names pkgRoot cwd.path) :
    ∃ files paths, readDeps (lineOf '\\' ' ' names) = .ok files ∧
      (∀ line ∈ rest, ∀ rule, ruleOf line = some rule → ¬EndsInBackslash rule.2) ∧
      paths.length ≤ files.length ∧
      (∀ path ∈ paths, ∃ file ∈ files,
        Paths.Same path (Paths.join cwd.path (.ofText file))) ∧
      List.Forall₂ Paths.Same paths
        (names.map fun name => Paths.join cwd.path (.ofText name)) := by
  obtain ⟨data, paths, hdata, hpaths, hsame⟩ := h
  obtain ⟨files, hfiles, hrest, rfl⟩ := (translateDepInfo_eq_ok hlists).mp hdata
  -- the pieces of the line have the characters of the names, spaces and backslashes only
  have hnone : ∀ file ∈ files, '\x00' ∉ file := by
    intro file hfile hmem
    rcases mem_of_mem_readDeps hfiles hfile hmem with hspace | ⟨hline, -⟩
    · cases hspace
    · rcases mem_lineOf hline with hspace | hback | ⟨name, hname, hc⟩
      · cases hspace
      · cases hback
      · exact hnul name hname hc
  have hspec := fun file hfile => depPath_spec cwd pkgRoot (hnone file hfile)
  have hpieces : ∀ piece ∈ files.map (depPath pkgRoot cwd.path), nul ∉ piece := by
    intro piece hpiece
    obtain ⟨file, hfile, rfl⟩ := List.mem_map.mp hpiece
    exact (hspec file hfile).2.2
  have hwritten := parseDepInfo_written hpieces pkgRoot paths
  rw [List.flatMap_map] at hwritten
  obtain ⟨-, rfl⟩ := hwritten.mp hpaths
  refine ⟨files, _, hfiles, hrest, ?_, fun path hpath => ?_, hsame⟩
  · rw [List.length_map]
    exact (List.length_filter_le _ _).trans_eq (List.length_map _)
  · obtain ⟨piece, hpiece, rfl⟩ := List.mem_map.mp hpath
    obtain ⟨file, hfile, rfl⟩ := List.mem_map.mp (List.mem_filter.mp hpiece).1
    exact ⟨file, hfile, (hspec file hfile).1⟩

theorem translatable_of_survives (hlists : ListsFirst contents names rest)
    (hnul : ∀ name ∈ names, '\x00' ∉ name)
    (hcwd : SpacedPath cwd.path)
    (h : Survives contents names pkgRoot cwd.path) : Translatable names rest := by
  obtain ⟨files, paths, hfiles, hrest, hlength, hfrom, hsame⟩ :=
    exists_file_of_survives hlists hnul h
  -- other whitespace is neither in the working directory nor in what is read
  have hpaths : ∀ path ∈ paths, SpacedPath path := by
    intro path hpath
    obtain ⟨file, hfile, hsameFile⟩ := hfrom path hpath
    refine spacedPath_of_same hsameFile.symm fun c hc hwhite => ?_
    rcases Paths.mem_join hc with hmem | htext | hslash
    · exact hcwd c hmem hwhite
    · obtain ⟨d, hd, hcd⟩ := List.mem_map.mp htext
      cases hcd
      exact spaced_of_mem_readDeps hfiles hfile c hd hwhite
    · cases hslash
      cases hwhite
  have hjoined := (forall_mem_iff_of_forall₂ hsame fun _ _ hpath =>
    ⟨spacedPath_of_same hpath, spacedPath_of_same hpath.symm⟩).mp hpaths
  have hspaced : ∀ name ∈ names, Spaced name := by
    intro name hname c hc
    refine hjoined _ (List.mem_map_of_mem hname) c ?_
    exact Paths.mem_join_right (List.mem_map_of_mem hc) cwd.path
  have hwhole : ∀ name ∈ names, EndsWhole '\\' ' ' name := by
    refine endsWhole_of_length_le hspaced hfiles ?_
    have hlengths := hsame.length_eq
    rw [List.length_map] at hlengths
    omega
  exact ⟨hwhole, hspaced, hrest⟩

/-- Files survive if their names are translatable, and for no other reason: unless the working
directory has other whitespace of its own, in which case two files may be lost and found in turn
by an accident of their names. -/
theorem survives_iff_translatable (hlists : ListsFirst contents names rest) (hnames : names ≠ [])
    (hnul : ∀ name ∈ names, '\x00' ∉ name)
    (hroot : ∀ name ∈ names, ¬Paths.Same (Paths.join cwd.path (.ofText name)) pkgRoot) :
    (Translatable names rest → Survives contents names pkgRoot cwd.path) ∧
      (SpacedPath cwd.path →
        (Survives contents names pkgRoot cwd.path ↔ Translatable names rest)) := by
  have hsufficient := survives_of_translatable hlists hnames hnul hroot
  exact ⟨hsufficient, fun hcwd => ⟨translatable_of_survives hlists hnul hcwd, hsufficient⟩⟩

end Survival

/-! ### Files -/

section Files

def workingDir : WorkingDir where
  path := .ofText "/home/my work".toList
  absolute := by decide
  noNul := by decide

/-- The files of a package in a directory with a space. -/
def sourceNames : List Text := ["src/main.rs".toList, "/home/my work/src/a b.rs".toList]

def sourceDepInfo : Text := "main.d: src/main.rs /home/my\\ work/src/a\\ b.rs\n".toList

/-- Spaces within names do no harm. -/
theorem sources_survive : Survives sourceDepInfo sourceNames workingDir.path workingDir.path := by
  have hlists : ListsFirst sourceDepInfo sourceNames [] :=
    ⟨[], "main.d".toList, by decide, by simp, by decide⟩
  have htranslatable : Translatable sourceNames [] := by
    exact ⟨by decide, by decide, by simp⟩
  exact (survives_iff_translatable hlists (by decide) (by decide) (by decide)).1 htranslatable

/-- A name that ends in a space is taken for the start of the next. -/
theorem name_ending_in_space_lost :
    ListsFirst "main.d: a\\  b\n".toList ["a ".toList, "b".toList] [] ∧
      (∀ name ∈ ["a ".toList, "b".toList], '\x00' ∉ name ∧
        ¬Paths.Same (Paths.join workingDir.path (.ofText name)) workingDir.path) ∧
      ¬Survives "main.d: a\\  b\n".toList ["a ".toList, "b".toList] workingDir.path
        workingDir.path := by
  refine ⟨⟨[], "main.d".toList, by decide, by simp, by decide⟩, by decide, ?_⟩
  rintro ⟨data, paths, hdata, hpaths, hsame⟩
  have hwritten : translateDepInfo "main.d: a\\  b\n".toList workingDir.path workingDir.path =
      .ok (.ofText "a b\x00".toList) := by decide
  rw [hwritten] at hdata
  cases hdata
  have hone : parseDepInfo workingDir.path (some (.ofText "a b\x00".toList)) =
      some [.ofText "/home/my work/a b".toList] := by decide
  rw [hone] at hpaths
  cases hpaths
  have hlength := hsame.length_eq
  simp at hlength

end Files

end Cargo.Compiler.Fingerprint
