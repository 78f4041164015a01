import Cargo.Compiler.Fingerprint.DepInfo
import Mathlib.Logic.Function.Basic

/-!
# Dep-info for other build systems

Next to each artifact, a makefile says what it was made from: a rule whose target is the artifact,
and whose dependencies are all files that went into it. The file is left alone if it says so
already, for its time would change otherwise.

What it says is found out by reading it as a dep-info of the compiler, which takes off the
backslashes before spaces; it is compared with names that still have them. So a file with a
dependency that has a space is written each time. Without dependencies the colon is not followed
by a space, and what was written is not a rule. Artifacts whose files have one name, such as those
of the crate types of a library, take turns.

## Main definitions

* `renderFilename` — a name as the makefile has it
* `outputDepinfo` — the makefiles of a unit
* `Idempotent` — what was written is read back, and is not written again
* `Recordable` — what the names have to be like for that

## Main results

* `parseRustcDepInfo_contentsOf` — what was written is read back
* `outputFile_eq_ok` — when a makefile is written
* `idempotent_iff` — makefiles are written once if there is nothing to write or the names are
  recordable
-/

set_option autoImplicit false

namespace Cargo.Compiler.OutputDepinfo

open Cargo.Core Cargo.Math Cargo.Util Cargo.Compiler.Fingerprint

/-! ### Files -/

inductive Failure
  | internal (message : Text)
  | io
  deriving DecidableEq, Repr

/-- A file, and how often it was written. -/
structure DepFile where
  contents : OsText
  version : Nat
  deriving DecidableEq, Repr

/-- The files that are there, and those that can be written. -/
structure FileSystem where
  files : List Paths.Component → Option DepFile
  writable : List Paths.Component → Bool

namespace FileSystem

def version (fs : FileSystem) (path : List Paths.Component) : Nat :=
  (fs.files path).elim 0 DepFile.version

/-- `paths::read`: the contents of a file, if they are characters. -/
def read (fs : FileSystem) (path : List Paths.Component) : Option Text :=
  (fs.files path).bind fun file => file.contents.toStr

def put (fs : FileSystem) (path : List Paths.Component) (contents : Text) : FileSystem :=
  let file := ⟨.ofText contents, fs.version path + 1⟩
  { fs with files := Function.update fs.files path (some file) }

def write (fs : FileSystem) (path : List Paths.Component) (contents : Text) :
    Except Failure FileSystem :=
  if fs.writable path then .ok (fs.put path contents) else .error .io

def remove (fs : FileSystem) (path : List Paths.Component) : Except Failure FileSystem :=
  if fs.writable path then .ok { fs with files := Function.update fs.files path none }
  else .error .io

section Put

variable {fs : FileSystem} {path path' : List Paths.Component} {contents : Text}

theorem read_put_self : (fs.put path contents).read path = some contents := by
  simp [read, put, OsText.toStr_ofText]

theorem read_put_of_ne (h : path' ≠ path) : (fs.put path contents).read path' = fs.read path' := by
  simp [read, put, Function.update_of_ne h]

/-- Files are not unwritten. -/
theorem version_le_put (fs : FileSystem) (path path' : List Paths.Component) (contents : Text) :
    fs.version path' ≤ (fs.put path contents).version path' := by
  by_cases h : path' = path
  · subst h
    simp [version, put]
  · simp [version, put, Function.update_of_ne h]

theorem version_lt_put (fs : FileSystem) (path : List Paths.Component) (contents : Text) :
    fs.version path < (fs.put path contents).version path := by
  simp [version, put]

end Put

end FileSystem

/-! ### Names -/

/-- The name of a file without what is after its last dot. A dot at the start does not count. -/
def fileStem (name : OsText) : OsText :=
  let (_, before) := name.reverse.span (· ≠ dot)
  match before with
  | _ :: c :: stem => (c :: stem).reverse
  | _ => name

/-- `with_extension` -/
def withExtension (path ext : OsText) : List Paths.Component :=
  match (Paths.components path).getLast? with
  | some (.normal name) =>
    (Paths.components path).dropLast ++ [.normal (fileStem name ++ dot :: ext)]
  | _ => Paths.components path

/-- Where the makefile of an artifact is. -/
def depFile (linkDst : OsText) : List Paths.Component := withExtension linkDst (.ofText ['d'])

/-- A path as the makefile names it: after the base directory, if it is there. -/
def relPath (path : OsText) : Option Text → OsText
  | none => path
  | some base => (Paths.stripPrefix path (.ofText base)).getD path

def renderFilename (path : OsText) (basedir : Option Text) : Except Failure Text :=
  match (relPath path basedir).toStr with
  | none => .error (.internal "path not utf-8".toList)
  | some f => .ok (escape '\\' ' ' f)

/-- The setting `build.dep-info-basedir`. -/
def basedirOf : Option OsText → Except Failure (Option Text)
  | none => .ok none
  | some value =>
    match value.toStr with
    | none => .error (.internal "build.dep-info-basedir path not utf-8".toList)
    | some basedir => .ok (some basedir)

/-! ### Writing -/

def contentsOf (targetFn : Text) (deps : List Text) : Text :=
  targetFn ++ ':' :: deps.flatMap (fun dep => ' ' :: dep) ++ ['\n']

/-- What a makefile says, if it can be read. -/
def previous (fs : FileSystem) (path : List Paths.Component) : Option (List (Text × List Text)) :=
  (fs.read path).bind fun contents => (parseRustcDepInfo contents).toOption

/-- The turn of `output_depinfo` for one artifact. Without success the makefile is removed. -/
def outputFile (success : Bool) (deps : List Text) (basedir : Option Text) (fs : FileSystem)
    (linkDst : OsText) : Except Failure FileSystem :=
  let outputPath := depFile linkDst
  if success then do
    let targetFn ← renderFilename linkDst basedir
    if previous fs outputPath = some [(targetFn, deps)] then .ok fs
    else fs.write outputPath (contentsOf targetFn deps)
  else if (fs.files outputPath).isSome then fs.remove outputPath
  else .ok fs

/-- `output_depinfo`, with the dependencies that were found and whether all were. An output may
have no artifact. -/
def outputDepinfo (success : Bool) (deps : List OsText) (basedir : Option OsText)
    (outputs : List (Option OsText)) (fs : FileSystem) : Except Failure FileSystem := do
  let basedir ← basedirOf basedir
  let deps ← deps.mapM fun f => renderFilename f basedir
  (outputs.filterMap id).foldlM (outputFile success deps basedir) fs

/-! ### Makefiles that are written once -/

/-- The makefile of each artifact has one rule: for the artifact, with the dependencies. -/
def Recorded (deps : List OsText) (basedir : Option Text) (outputs : List (Option OsText))
    (fs : FileSystem) : Prop :=
  ∀ link, some link ∈ outputs → ∃ target names, renderFilename link basedir = .ok target ∧
    (deps.map fun dep => relPath dep basedir) = names.map OsText.ofText ∧
    previous fs (depFile link) = some [(target, names)]

/-- When the makefiles have been written, they say what they should, and the next time they are
left alone. -/
def Idempotent (deps : List OsText) (value : Option OsText) (basedir : Option Text)
    (outputs : List (Option OsText)) : Prop :=
  ∀ fs fs', outputDepinfo true deps value outputs fs = .ok fs' →
    Recorded deps basedir outputs fs' ∧ outputDepinfo true deps value outputs fs' = .ok fs'

/-- A name without whitespace that does not end in a backslash. -/
structure PlainName (name : OsText) : Prop where
  ne_nil : name ≠ []
  noBackslash : name.getLast? ≠ some (.char '\\')
  noWhitespace : ∀ c, .char c ∈ name → isWhitespace c = false

/-- There is a dependency, and all have plain names; artifacts are on one line, and if their
makefiles are the same file then so are they. -/
structure Recordable (deps : List OsText) (basedir : Option Text)
    (outputs : List (Option OsText)) : Prop where
  nonempty : deps ≠ []
  plain : ∀ dep ∈ deps, PlainName (relPath dep basedir)
  oneLine : ∀ link, some link ∈ outputs → .char '\n' ∉ relPath link basedir
  agree : ∀ link link', some link ∈ outputs → some link' ∈ outputs →
    depFile link = depFile link' → renderFilename link basedir = renderFilename link' basedir

/-! ### Reading what was written -/

section Contents

variable {target name : Text} {deps names : List Text}

/-- No rendered name has a colon before a space. -/
theorem not_infix_escape (name : Text) : ¬[':', ' '] <:+: escape '\\' ' ' name := by
  rintro ⟨front, back, h⟩
  have hsplit : escape '\\' ' ' name = front ++ ':' :: ' ' :: back := by
    rw [← h]
    simp
  exact absurd (eq_mark_of_escape (by decide) hsplit) (by decide)

theorem not_infix_escape_colon (name : Text) :
    ¬[':', ' '] <:+: escape '\\' ' ' name ++ [':'] := by
  rintro ⟨front, back, h⟩
  cases back using List.reverseRecOn with
  | nil => simpa using congrArg List.getLast? h
  | append_singleton back c _ =>
    rw [← List.append_assoc] at h
    exact not_infix_escape name ⟨front, back, (List.append_inj' h rfl).1⟩

theorem not_mem_escape {c : Char} (hback : c ≠ '\\') (hc : c ∉ name) :
    c ∉ escape '\\' ' ' name := by
  intro hmem
  obtain ⟨d, hd, hcd⟩ := List.mem_flatMap.mp hmem
  split at hcd
  · rcases List.mem_pair.mp hcd with rfl | rfl
    · exact hback rfl
    · exact hc hd
  · exact hc (List.mem_singleton.mp hcd ▸ hd)

/-- With dependencies, the colon is followed by a space. -/
theorem contentsOf_escape (target : Text) (hnames : names ≠ []) :
    contentsOf target (names.map (escape '\\' ' ')) =
      (target ++ ':' :: ' ' :: lineOf '\\' ' ' names) ++ ['\n'] := by
  have hflat : ((names.map (escape '\\' ' ')).flatMap fun dep => ' ' :: dep) =
      ' ' :: lineOf '\\' ' ' names := by
    induction names with
    | nil => exact absurd rfl hnames
    | cons name names ih =>
      cases names with
      | nil => simp [lineOf]
      | cons name' names =>
        rw [List.map_cons, List.flatMap_cons, ih (by simp)]
        simp [lineOf, List.intercalate_cons_cons]
  rw [contentsOf, hflat]

theorem spaced_lineOf (h : ∀ name ∈ names, Spaced name) : Spaced (lineOf '\\' ' ' names) := by
  intro c hc hwhite
  rcases mem_lineOf hc with hspace | rfl | ⟨name, hname, hmem⟩
  · exact hspace
  · cases hwhite
  · exact h name hname c hmem hwhite

theorem parseRustcDepInfo_line {line : Text} (hline : '\n' ∉ line)
    (hlast : line.getLast? ≠ some '\r') :
    parseRustcDepInfo (line ++ ['\n']) = (ruleOf line).toList.mapM readRule := by
  rw [parseRustcDepInfo, lines_concat hline hlast]
  cases hrule : ruleOf line <;> simp [hrule]

/-- Without dependencies, no rule is written. -/
theorem parseRustcDepInfo_contentsOf_nil (hname : '\n' ∉ name) :
    parseRustcDepInfo (contentsOf (escape '\\' ' ' name) []) = .ok [] := by
  have hline : '\n' ∉ escape '\\' ' ' name ++ [':'] := by
    simp [not_mem_escape (c := '\n') (by decide) hname]
  rw [contentsOf, List.flatMap_nil, parseRustcDepInfo_line hline (by simp),
    ruleOf_eq_none (not_infix_escape_colon name)]
  rfl

/-- What is read of a rule with dependencies. -/
theorem parseRustcDepInfo_contentsOf (hname : '\n' ∉ name) (hnames : names ≠ [])
    (hspaced : ∀ name ∈ names, Spaced name) :
    parseRustcDepInfo (contentsOf (escape '\\' ' ' name) (names.map (escape '\\' ' '))) =
      (readDeps (lineOf '\\' ' ' names)).map fun files => [(escape '\\' ' ' name, files)] := by
  have hnot : ∀ c, isWhitespace c = true → c ≠ ' ' → c ∉ lineOf '\\' ' ' names :=
    fun c hwhite hne hmem => hne (spaced_lineOf hspaced c hmem hwhite)
  have hline : '\n' ∉ escape '\\' ' ' name ++ ':' :: ' ' :: lineOf '\\' ' ' names := by
    simp [not_mem_escape (c := '\n') (by decide) hname, hnot '\n' (by decide) (by decide)]
  have hlast : (escape '\\' ' ' name ++ ':' :: ' ' :: lineOf '\\' ' ' names).getLast? ≠
      some '\r' := by
    intro h
    rw [List.append_cons, List.getLast?_append_of_ne_nil _ (by simp)] at h
    have hmem := List.mem_of_getLast? h
    rcases List.mem_cons.mp hmem with hspace | hmem
    · exact absurd hspace (by decide)
    · exact hnot '\r' (by decide) (by decide) hmem
  rw [contentsOf_escape _ hnames, parseRustcDepInfo_line hline hlast,
    ruleOf_append (not_infix_escape name), Option.toList_some, List.mapM_cons, readRule]
  cases readDeps (lineOf '\\' ' ' names) <;> rfl

/-- Names are read back if they are plain. -/
theorem readDeps_lineOf_iff (hwhite : ∀ name ∈ names, ∀ c ∈ name, isWhitespace c = false) :
    readDeps (lineOf '\\' ' ' names) = .ok names ↔
      ∀ name ∈ names, name ≠ [] ∧ name.getLast? ≠ some '\\' := by
  have hspaced : ∀ name ∈ names, Spaced name := by
    intro name hname c hc hspace
    rw [hwhite name hname c hc] at hspace
    cases hspace
  have hwhole : ∀ name ∈ names, EndsWhole '\\' ' ' name ↔
      name ≠ [] ∧ name.getLast? ≠ some '\\' := by
    intro name hname
    have hlast : name.getLast? ≠ some ' ' := by
      intro h
      have hspace := hwhite name hname ' ' (List.mem_of_getLast? h)
      cases hspace
    simp [EndsWhole, hlast]
  constructor
  · intro h name hname
    exact (hwhole name hname).mp (endsWhole_of_length_le hspaced h le_rfl name hname)
  · intro h
    exact readDeps_lineOf (fun name hname => (hwhole name hname).mpr (h name hname)) hspaced

end Contents

/-! ### The turn of an artifact -/

section Turn

variable {deps : List Text} {basedir : Option Text} {fs fs' : FileSystem} {link : OsText}
  {links : List OsText}

/-- The makefile of an artifact says what would be written. -/
def UpToDate (deps : List Text) (basedir : Option Text) (fs : FileSystem) (link : OsText) : Prop :=
  ∃ target, renderFilename link basedir = .ok target ∧
    previous fs (depFile link) = some [(target, deps)]

/-- A makefile is written unless it is up to date. -/
theorem outputFile_eq_ok : outputFile true deps basedir fs link = .ok fs' ↔
    UpToDate deps basedir fs link ∧ fs' = fs ∨
    ¬UpToDate deps basedir fs link ∧ ∃ target, renderFilename link basedir = .ok target ∧
      fs.writable (depFile link) = true ∧
      fs' = fs.put (depFile link) (contentsOf target deps) := by
  unfold outputFile UpToDate
  rw [if_pos rfl]
  cases htarget : renderFilename link basedir with
  | error e => simp [bind, Except.bind]
  | ok target =>
    by_cases hprevious : previous fs (depFile link) = some [(target, deps)]
    · simp [bind, Except.bind, hprevious, @eq_comm _ fs fs']
    · by_cases hwritable : fs.writable (depFile link) = true
      · simp [bind, Except.bind, hprevious, hwritable, FileSystem.write,
          @eq_comm _ (fs.put (depFile link) (contentsOf target deps)) fs']
      · simp [bind, Except.bind, hprevious, hwritable, FileSystem.write]

theorem previous_eq_some {path : List Paths.Component} {rules : List (Text × List Text)} :
    previous fs path = some rules ↔
      ∃ contents, fs.read path = some contents ∧ parseRustcDepInfo contents = .ok rules := by
  rw [previous, Option.bind_eq_some_iff]
  refine exists_congr fun contents => and_congr_right fun _ => ?_
  cases parseRustcDepInfo contents <;> simp [Except.toOption]

theorem previous_put_self (fs : FileSystem) (path : List Paths.Component) (contents : Text) :
    previous (fs.put path contents) path = (parseRustcDepInfo contents).toOption := by
  rw [previous, FileSystem.read_put_self, Option.bind_some]

theorem previous_put_of_ne {path path' : List Paths.Component} (h : path' ≠ path)
    (fs : FileSystem) (contents : Text) :
    previous (fs.put path contents) path' = previous fs path' := by
  rw [previous, FileSystem.read_put_of_ne h, previous]

theorem version_le_of_outputFile (h : outputFile true deps basedir fs link = .ok fs')
    (path : List Paths.Component) : fs.version path ≤ fs'.version path := by
  rcases outputFile_eq_ok.mp h with ⟨-, rfl⟩ | ⟨-, target, -, -, rfl⟩
  · exact le_rfl
  · exact FileSystem.version_le_put fs _ path _

/-- Nothing is written if all makefiles are up to date. -/
theorem foldlM_of_upToDate (h : ∀ link ∈ links, UpToDate deps basedir fs link) :
    links.foldlM (outputFile true deps basedir) fs = .ok fs := by
  induction links with
  | nil => rfl
  | cons link links ih =>
    rw [List.forall_mem_cons] at h
    rw [List.foldlM_cons, outputFile_eq_ok.mpr (.inl ⟨h.1, rfl⟩)]
    exact ih h.2

/-- If no file was written, all makefiles were up to date. -/
theorem upToDate_of_foldlM (h : links.foldlM (outputFile true deps basedir) fs = .ok fs')
    (hversion : ∀ path, fs'.version path ≤ fs.version path) :
    ∀ link ∈ links, UpToDate deps basedir fs link := by
  induction links generalizing fs with
  | nil => simp
  | cons link links ih =>
    rw [List.foldlM_cons] at h
    obtain ⟨mid, hmid, hrest⟩ := bind_eq_ok.mp h
    have hle : ∀ path, mid.version path ≤ fs'.version path := by
      intro path
      exact foldlM_ok_induction (P := fun _ s => mid.version path ≤ s.version path) hrest le_rfl
        fun _ _ _ s s' _ hs hstep => hs.trans (version_le_of_outputFile hstep path)
    rcases outputFile_eq_ok.mp hmid with ⟨hfresh, rfl⟩ | ⟨-, target, -, -, rfl⟩
    · exact List.forall_mem_cons.mpr ⟨hfresh, ih hrest hversion⟩
    · have hlt := FileSystem.version_lt_put fs (depFile link) (contentsOf target deps)
      have := hle (depFile link)
      have := hversion (depFile link)
      omega

end Turn

/-! ### Runs -/

section Runs

variable {deps : List OsText} {names : List Text} {value : Option OsText} {basedir : Option Text}
  {outputs : List (Option OsText)} {link : OsText} {target : Text} {fs : FileSystem}

theorem exists_relPath {path : OsText} (h : path.toStr.isSome) (basedir : Option Text) :
    ∃ name, relPath path basedir = .ofText name := by
  obtain ⟨text, htext⟩ := Option.isSome_iff_exists.mp h
  have hpath := OsText.eq_ofText_of_toStr htext
  cases basedir with
  | none => exact ⟨text, hpath⟩
  | some base =>
    refine OsText.exists_ofText fun c hc => ?_
    rcases Paths.mem_getD_stripPrefix hc with hmem | hslash
    · rw [hpath] at hmem
      obtain ⟨d, -, hd⟩ := List.mem_map.mp hmem
      exact ⟨d, hd.symm⟩
    · exact ⟨'/', hslash⟩

theorem renderFilename_eq_ok {path : OsText} : renderFilename path basedir = .ok target ↔
    ∃ name, relPath path basedir = .ofText name ∧ target = escape '\\' ' ' name := by
  rw [renderFilename]
  constructor
  · intro h
    cases hstr : (relPath path basedir).toStr with
    | none =>
      rw [hstr] at h
      cases h
    | some name =>
      rw [hstr] at h
      cases h
      exact ⟨name, OsText.eq_ofText_of_toStr hstr, rfl⟩
  · rintro ⟨name, hname, rfl⟩
    rw [hname, OsText.toStr_ofText]

/-- The names of dependencies. -/
def Names (deps : List OsText) (basedir : Option Text) (names : List Text) : Prop :=
  List.Forall₂ (fun dep name => relPath dep basedir = .ofText name) deps names

theorem exists_names (h : ∀ dep ∈ deps, dep.toStr.isSome) (basedir : Option Text) :
    ∃ names, Names deps basedir names := by
  induction deps with
  | nil => exact ⟨[], .nil⟩
  | cons dep deps ih =>
    rw [List.forall_mem_cons] at h
    obtain ⟨name, hname⟩ := exists_relPath h.1 basedir
    obtain ⟨names, hnames⟩ := ih h.2
    exact ⟨name :: names, .cons hname hnames⟩

theorem names_iff : Names deps basedir names ↔
    (deps.map fun dep => relPath dep basedir) = names.map OsText.ofText := by
  have hmap : List.Forall₂ (· = ·) (deps.map fun dep => relPath dep basedir)
      (names.map OsText.ofText) ↔ Names deps basedir names := by
    rw [List.forall₂_map_left_iff, List.forall₂_map_right_iff, Names]
  rw [← hmap, List.forall₂_eq_eq_eq]

theorem Names.eq {names' : List Text} (h : Names deps basedir names)
    (h' : Names deps basedir names') : names = names' := by
  have hmap := (names_iff.mp h).symm.trans (names_iff.mp h')
  have hinj : Function.Injective OsText.ofText :=
    List.map_injective_iff.mpr fun c d hcd => OsChar.char.inj hcd
  exact List.map_injective_iff.mpr hinj hmap

theorem outputDepinfo_eq (hbase : basedirOf value = .ok basedir) (h : Names deps basedir names)
    (outputs : List (Option OsText)) (fs : FileSystem) :
    outputDepinfo true deps value outputs fs = (outputs.filterMap id).foldlM
      (outputFile true (names.map (escape '\\' ' ')) basedir) fs := by
  have hrender : (deps.mapM fun f => renderFilename f basedir) =
      .ok (names.map (escape '\\' ' ')) := by
    rw [mapM_eq_ok, List.forall₂_map_right_iff]
    exact h.imp fun dep name hname => renderFilename_eq_ok.mpr ⟨name, hname, rfl⟩
  rw [outputDepinfo, hbase]
  change ((deps.mapM fun f => renderFilename f basedir) >>= _) = _
  rw [hrender]
  rfl

theorem plainName_ofText {name : Text} : PlainName (.ofText name) ↔
    name ≠ [] ∧ name.getLast? ≠ some '\\' ∧ ∀ c ∈ name, isWhitespace c = false := by
  have hmem : ∀ c, OsChar.char c ∈ OsText.ofText name ↔ c ∈ name := by
    intro c
    simp [OsText.ofText]
  have hlast : (OsText.ofText name).getLast? = some (.char '\\') ↔
      name.getLast? = some '\\' := by
    rw [OsText.ofText, List.getLast?_map]
    cases name.getLast? <;> simp
  have hnil : OsText.ofText name = [] ↔ name = [] := List.map_eq_nil_iff
  constructor
  · intro h
    exact ⟨fun h' => h.ne_nil (hnil.mpr h'), fun h' => h.noBackslash (hlast.mpr h'),
      fun c hc => h.noWhitespace c ((hmem c).mpr hc)⟩
  · rintro ⟨hne, hback, hwhite⟩
    exact ⟨fun h' => hne (hnil.mp h'), fun h' => hback (hlast.mp h'),
      fun c hc => hwhite c ((hmem c).mp hc)⟩

theorem plain_iff (h : Names deps basedir names) :
    (∀ dep ∈ deps, PlainName (relPath dep basedir)) ↔ ∀ name ∈ names,
      name ≠ [] ∧ name.getLast? ≠ some '\\' ∧ ∀ c ∈ name, isWhitespace c = false := by
  refine forall_mem_iff_of_forall₂ h fun dep name hname => ?_
  rw [hname, plainName_ofText]

/-! ### Makefiles that are written once -/

/-- Plain names are written as they are, and read back. -/
theorem parseRustcDepInfo_plain (hnames : names ≠ [])
    (hplain : ∀ name ∈ names,
      name ≠ [] ∧ name.getLast? ≠ some '\\' ∧ ∀ c ∈ name, isWhitespace c = false)
    (hrender : renderFilename link basedir = .ok target)
    (hline : .char '\n' ∉ relPath link basedir) :
    names.map (escape '\\' ' ') = names ∧
      parseRustcDepInfo (contentsOf target names) = .ok [(target, names)] := by
  have hwhite := fun name hname => (hplain name hname).2.2
  have hescape : names.map (escape '\\' ' ') = names := by
    refine List.map_congr_left (g := id) (fun name hname => ?_) |>.trans (List.map_id names)
    refine escape_of_not_mem fun hspace => ?_
    have := hwhite name hname ' ' hspace
    cases this
  obtain ⟨name, hname, rfl⟩ := renderFilename_eq_ok.mp hrender
  have hnewline : '\n' ∉ name := by
    rw [hname] at hline
    exact fun hmem => hline (List.mem_map_of_mem hmem)
  have hspaced : ∀ name ∈ names, Spaced name := by
    intro name hname c hc hspace
    rw [hwhite name hname c hc] at hspace
    cases hspace
  have hread := (readDeps_lineOf_iff hwhite).mpr fun name hname =>
    ⟨(hplain name hname).1, (hplain name hname).2.1⟩
  have hparse := parseRustcDepInfo_contentsOf hnewline hnames hspaced
  rw [hescape, hread] at hparse
  exact ⟨hescape, hparse⟩

/-- Names that are read back as they were written are plain. -/
theorem plain_of_parseRustcDepInfo {name : Text} (hname : '\n' ∉ name)
    (hescape : names.map (escape '\\' ' ') = names) (hspaced : ∀ name ∈ names, Spaced name)
    (hwritten : parseRustcDepInfo
      (contentsOf (escape '\\' ' ' name) (names.map (escape '\\' ' '))) =
      .ok [(escape '\\' ' ' name, names)]) :
    names ≠ [] ∧ ∀ name ∈ names,
      name ≠ [] ∧ name.getLast? ≠ some '\\' ∧ ∀ c ∈ name, isWhitespace c = false := by
  have hwhite : ∀ name ∈ names, ∀ c ∈ name, isWhitespace c = false := by
    intro name hname c hc
    have hself : escape '\\' ' ' name = name :=
      List.map_inj_left.mp (hescape.trans (List.map_id names).symm) name hname
    by_contra hspace
    exact escape_eq_self_iff.mp hself (hspaced name hname c hc (by simpa using hspace) ▸ hc)
  have hne : names ≠ [] := by
    rintro rfl
    rw [List.map_nil, parseRustcDepInfo_contentsOf_nil hname] at hwritten
    cases hwritten
  have hread : readDeps (lineOf '\\' ' ' names) = .ok names := by
    rw [parseRustcDepInfo_contentsOf hname hne hspaced] at hwritten
    obtain ⟨files, hfiles, heq⟩ := map_eq_ok.mp hwritten
    rwa [(Prod.mk.inj (List.cons.inj heq).1).2] at hfiles
  have hwhole := (readDeps_lineOf_iff hwhite).mp hread
  exact ⟨hne, fun name hname =>
    ⟨(hwhole name hname).1, (hwhole name hname).2, hwhite name hname⟩⟩

theorem idempotent_of_recordable (hbase : basedirOf value = .ok basedir)
    (hdeps : ∀ dep ∈ deps, dep.toStr.isSome) (h : Recordable deps basedir outputs) :
    Idempotent deps value basedir outputs := by
  obtain ⟨names, hnames⟩ := exists_names hdeps basedir
  have hplain := (plain_iff hnames).mp h.plain
  have hne : names ≠ [] := by
    rintro rfl
    exact h.nonempty (List.forall₂_nil_right_iff.mp hnames)
  intro fs fs' hrun
  rw [outputDepinfo_eq hbase hnames] at hrun ⊢
  have hlinks : ∀ link, link ∈ outputs.filterMap id ↔ some link ∈ outputs := by
    intro link
    simp
  -- each turn leaves the makefiles so far up to date
  have hfresh : ∀ link ∈ outputs.filterMap id,
      UpToDate (names.map (escape '\\' ' ')) basedir fs' link := by
    refine foldlM_ok_induction (P := fun before s => ∀ link ∈ before,
      UpToDate (names.map (escape '\\' ' ')) basedir s link) hrun (by simp) ?_
    intro before link after s s' hsplit hbefore hturn
    have hlink : some link ∈ outputs := (hlinks link).mp (by rw [hsplit]; simp)
    rcases outputFile_eq_ok.mp hturn with ⟨hlinkFresh, rfl⟩ | ⟨-, target, htarget, -, rfl⟩
    · intro link' hlink'
      rcases List.mem_append.mp hlink' with hmem | hmem
      · exact hbefore link' hmem
      · rw [List.mem_singleton.mp hmem]
        exact hlinkFresh
    · obtain ⟨hescape, hparse⟩ :=
        parseRustcDepInfo_plain hne hplain htarget (h.oneLine link hlink)
      intro link' hlink'
      have hlink'' : some link' ∈ outputs := by
        refine (hlinks link').mp ?_
        rw [hsplit]
        rcases List.mem_append.mp hlink' with hmem | hmem
        · exact List.mem_append_left _ hmem
        · rw [List.mem_singleton.mp hmem]
          simp
      by_cases hsame : depFile link' = depFile link
      · refine ⟨target, (h.agree link' link hlink'' hlink hsame).trans htarget, ?_⟩
        rw [hsame, previous_put_self, hescape, hparse]
        rfl
      · have hmem : link' ∈ before := by
          rcases List.mem_append.mp hlink' with hmem | hmem
          · exact hmem
          · exact absurd (by rw [List.mem_singleton.mp hmem]) hsame
        obtain ⟨target', htarget', hprevious⟩ := hbefore link' hmem
        exact ⟨target', htarget', by rw [previous_put_of_ne hsame, hprevious]⟩
  refine ⟨fun link hlink => ?_, foldlM_of_upToDate hfresh⟩
  obtain ⟨target, htarget, hprevious⟩ := hfresh link ((hlinks link).mpr hlink)
  obtain ⟨hescape, -⟩ := parseRustcDepInfo_plain hne hplain htarget (h.oneLine link hlink)
  rw [hescape] at hprevious
  exact ⟨target, names, htarget, names_iff.mp hnames, hprevious⟩

/-- What was written into nothing was written by the turn of some artifact. -/
theorem exists_link_of_foldlM {rendered : List Text} {links : List OsText} {fs fs' : FileSystem}
    (hempty : fs.files = fun _ => none)
    (h : links.foldlM (outputFile true rendered basedir) fs = .ok fs')
    {path : List Paths.Component} {contents : Text} (hread : fs'.read path = some contents) :
    ∃ link ∈ links, depFile link = path ∧ ∃ target, renderFilename link basedir = .ok target ∧
      contents = contentsOf target rendered := by
  refine foldlM_ok_induction (P := fun before s => ∀ path contents, s.read path = some contents →
    ∃ link ∈ before, depFile link = path ∧ ∃ target, renderFilename link basedir = .ok target ∧
      contents = contentsOf target rendered) h ?_ ?_ path contents hread
  · intro path contents hread
    rw [FileSystem.read, hempty] at hread
    cases hread
  · intro before link after s s' _ hbefore hturn path contents hread
    rcases outputFile_eq_ok.mp hturn with ⟨-, rfl⟩ | ⟨-, target, htarget, -, rfl⟩
    · obtain ⟨link', hlink', hwritten⟩ := hbefore path contents hread
      exact ⟨link', List.mem_append_left _ hlink', hwritten⟩
    · by_cases hpath : path = depFile link
      · subst hpath
        rw [FileSystem.read_put_self] at hread
        cases hread
        exact ⟨link, by simp, rfl, target, htarget, rfl⟩
      · rw [FileSystem.read_put_of_ne hpath] at hread
        obtain ⟨link', hlink', hwritten⟩ := hbefore path contents hread
        exact ⟨link', List.mem_append_left _ hlink', hwritten⟩

/-- Where nothing is in the way, a run succeeds. -/
theorem exists_foldlM_ok_of_writable (rendered : List Text) (basedir : Option Text)
    {links : List OsText} (hlinks : ∀ link ∈ links, link.toStr.isSome) (fs : FileSystem)
    (hwritable : ∀ path, fs.writable path = true) :
    ∃ fs', links.foldlM (outputFile true rendered basedir) fs = .ok fs' := by
  obtain ⟨fs', hrun, -⟩ := exists_foldlM_ok (f := outputFile true rendered basedir)
    (P := fun _ s => ∀ path, s.writable path = true) (l := links) hwritable <| by
      intro before link after s hsplit hs
      obtain ⟨name, hname⟩ := exists_relPath (hlinks link (by rw [hsplit]; simp)) basedir
      have htarget := renderFilename_eq_ok.mpr ⟨name, hname, rfl⟩
      by_cases hfresh : UpToDate rendered basedir s link
      · exact ⟨s, outputFile_eq_ok.mpr (.inl ⟨hfresh, rfl⟩), hs⟩
      · exact ⟨_, outputFile_eq_ok.mpr (.inr ⟨hfresh, _, htarget, hs _, rfl⟩), hs⟩
  exact ⟨fs', hrun⟩

section Recorded

variable {link' : OsText}

theorem Recorded.previous_eq (h : Recorded deps basedir outputs fs)
    (hnames : Names deps basedir names) (hlink : some link ∈ outputs) :
    ∃ target, renderFilename link basedir = .ok target ∧
      previous fs (depFile link) = some [(target, names)] := by
  obtain ⟨target, names', htarget, hnames', hprevious⟩ := h link hlink
  rw [hnames.eq (names_iff.mpr hnames')]
  exact ⟨target, htarget, hprevious⟩

/-- A makefile can only name one artifact. -/
theorem Recorded.agree (h : Recorded deps basedir outputs fs) (hlink : some link ∈ outputs)
    (hlink' : some link' ∈ outputs) (hsame : depFile link = depFile link') :
    renderFilename link basedir = renderFilename link' basedir := by
  obtain ⟨target, _, htarget, -, hprevious⟩ := h link hlink
  obtain ⟨target', _, htarget', -, hprevious'⟩ := h link' hlink'
  rw [hsame, hprevious'] at hprevious
  cases hprevious
  rw [htarget, htarget']

theorem Recorded.oneLine (h : Recorded deps basedir outputs fs) (hlink : some link ∈ outputs) :
    .char '\n' ∉ relPath link basedir := by
  obtain ⟨target, names, htarget, -, hprevious⟩ := h link hlink
  obtain ⟨contents, -, hread⟩ := previous_eq_some.mp hprevious
  obtain ⟨name, hname, rfl⟩ := renderFilename_eq_ok.mp htarget
  rw [hname]
  intro hnewline
  obtain ⟨c, hc, hceq⟩ := List.mem_map.mp hnewline
  cases hceq
  exact (mem_parseRustcDepInfo hread List.mem_cons_self).1 (mem_escape hc)

end Recorded

theorem recordable_of_idempotent (hbase : basedirOf value = .ok basedir)
    (hdeps : ∀ dep ∈ deps, dep.toStr.isSome)
    (hlinks : ∀ link, some link ∈ outputs → link.toStr.isSome)
    (h : Idempotent deps value basedir outputs) {link₀ : OsText} (hlink₀ : some link₀ ∈ outputs) :
    Recordable deps basedir outputs := by
  obtain ⟨names, hnames⟩ := exists_names hdeps basedir
  have hmem : ∀ link, link ∈ outputs.filterMap id ↔ some link ∈ outputs := by
    intro link
    simp
  -- a run with no file there at first, and one after it
  obtain ⟨fs, hrun⟩ := exists_foldlM_ok_of_writable (names.map (escape '\\' ' ')) basedir
    (fun link hlink => hlinks link ((hmem link).mp hlink)) ⟨fun _ => none, fun _ => true⟩
    fun _ => rfl
  have hboth := h ⟨fun _ => none, fun _ => true⟩ fs
  rw [outputDepinfo_eq hbase hnames, outputDepinfo_eq hbase hnames] at hboth
  obtain ⟨hrecorded, hagain⟩ := hboth hrun
  obtain ⟨target, htarget, hprevious⟩ := hrecorded.previous_eq hnames hlink₀
  obtain ⟨name, hname, rfl⟩ := renderFilename_eq_ok.mp htarget
  obtain ⟨contents, hcontents, hread⟩ := previous_eq_some.mp hprevious
  -- nothing is written again, so what is read is what was rendered
  have hescape : names.map (escape '\\' ' ') = names := by
    obtain ⟨target', htarget', hprevious'⟩ :=
      upToDate_of_foldlM hagain (fun _ => le_rfl) link₀ ((hmem link₀).mpr hlink₀)
    rw [hprevious] at hprevious'
    exact (Prod.mk.inj (List.cons.inj (Option.some.inj hprevious')).1).2.symm
  have hnewline : '\n' ∉ name := by
    have hnot := hrecorded.oneLine hlink₀
    rw [hname] at hnot
    exact fun hmem => hnot (List.mem_map_of_mem hmem)
  -- the makefile was written by an artifact that is rendered alike
  have hwritten : contents =
      contentsOf (escape '\\' ' ' name) (names.map (escape '\\' ' ')) := by
    obtain ⟨link, hlink, hpath, target, hrender, rfl⟩ := exists_link_of_foldlM rfl hrun hcontents
    have hsame := hrecorded.agree ((hmem link).mp hlink) hlink₀ hpath
    rw [hrender, htarget, Except.ok.injEq] at hsame
    rw [hsame]
  have hspaced := (mem_parseRustcDepInfo hread List.mem_cons_self).2
  rw [hwritten] at hread
  obtain ⟨hne, hplain⟩ := plain_of_parseRustcDepInfo hnewline hescape hspaced hread
  refine ⟨?_, (plain_iff hnames).mpr hplain, fun link => hrecorded.oneLine,
    fun link link' => hrecorded.agree⟩
  rintro rfl
  exact hne (List.forall₂_nil_left_iff.mp hnames)

/-- Makefiles are written once if there is no artifact, or the names are recordable. -/
theorem idempotent_iff (hbase : basedirOf value = .ok basedir)
    (hdeps : ∀ dep ∈ deps, dep.toStr.isSome)
    (hlinks : ∀ link, some link ∈ outputs → link.toStr.isSome) :
    Idempotent deps value basedir outputs ↔
      (∀ link, some link ∉ outputs) ∨ Recordable deps basedir outputs := by
  constructor
  · intro h
    by_cases hnone : ∀ link, some link ∉ outputs
    · exact .inl hnone
    · obtain ⟨link, hlink⟩ := not_forall_not.mp hnone
      exact .inr (recordable_of_idempotent hbase hdeps hlinks h hlink)
  · rintro (hnone | hrecordable)
    · obtain ⟨names, hnames⟩ := exists_names hdeps basedir
      have hnil : outputs.filterMap id = [] :=
        List.filterMap_eq_nil_iff.mpr fun output houtput => by
          cases output with
          | none => rfl
          | some link => exact absurd houtput (hnone link)
      intro fs fs' _
      refine ⟨fun link hlink => absurd hlink (hnone link), ?_⟩
      rw [outputDepinfo_eq hbase hnames, hnil]
      rfl
    · exact idempotent_of_recordable hbase hdeps hrecordable

end Runs

/-! ### Artifacts -/

section Artifacts

def artifact : OsText := .ofText "/w/target/debug/my app".toList

/-- Spaces in the name of the artifact do no harm. -/
theorem artifact_written_once : Idempotent
    [.ofText "/w/build.rs".toList, .ofText "/usr/include/x.h".toList]
    (some (.ofText "/w".toList)) (some "/w".toList) [none, some artifact] := by
  have hnames : Names [.ofText "/w/build.rs".toList, .ofText "/usr/include/x.h".toList]
      (some "/w".toList) ["build.rs".toList, "/usr/include/x.h".toList] :=
    names_iff.mpr (by decide)
  refine (idempotent_iff (by decide) (by decide) (by simp; decide)).mpr (.inr ?_)
  refine ⟨by decide, (plain_iff hnames).mpr fun name hname => ?_, ?_, ?_⟩
  · have hwhite : name.any isWhitespace = false := by
      rcases List.mem_pair.mp hname with rfl | rfl <;> decide
    refine ⟨?_, ?_, by simpa using hwhite⟩
    · rcases List.mem_pair.mp hname with rfl | rfl <;> decide
    · rcases List.mem_pair.mp hname with rfl | rfl <;> decide
  · intro link hlink
    obtain rfl : link = artifact := by simpa using hlink
    decide
  · intro link link' hlink hlink' _
    obtain rfl : link = artifact := by simpa using hlink
    obtain rfl : link' = artifact := by simpa using hlink'
    rfl

/-- A dependency with a space is read back without its backslash, so that the makefile is written
each time. -/
theorem dependency_with_space_rewritten :
    ¬Idempotent [.ofText "/w/a b.rs".toList] none none [some artifact] := by
  intro h
  obtain ⟨-, hagain⟩ := h ⟨fun _ => none, fun _ => true⟩ _ rfl
  have hversion := congrArg
    (fun run => run.toOption.map fun fs => fs.version (depFile artifact)) hagain
  exact absurd hversion (by decide)

end Artifacts

end Cargo.Compiler.OutputDepinfo
