import Cargo.Math.Iteration
import Cargo.Util.Rustc

/-!
# Whether the cache can be noticed

An answer that is found in the cache was made by an earlier command. Its key has the arguments of
this command and the variables that were set for it, and the file was only used because the
compiler is the same. Neither has the program, which is the wrapper if there is one, nor the
variables that were inherited. So the cache cannot be noticed as long as commands with one key
have the same program and the same environment.

## Main definitions

* `Transparent` — each answer is what running the command would give
* `Shares` — two runs may find each other's answers
* `Alike` — commands with one key have the same program and environment
* `Agreeing` — commands with one key give the same

## Main results

* `session_kept` — what is found was made by a command that was asked for
* `transparent_iff_alike` — when the cache cannot be noticed
-/

set_option autoImplicit false

namespace Cargo.Util

open Cargo.Math

/-! ### What the keys cover -/

/-- The key has the arguments, and the variables that are set or removed. -/
theorem sortedEnvs_injective {cmd cmd' : ProcessBuilder} (h : cmd.sortedEnvs = cmd'.sortedEnvs) :
    cmd.env = cmd'.env := by
  have hmem : ∀ (c : ProcessBuilder) (key : String) (value : Option String),
      (key, value) ∈ c.sortedEnvs ↔ c.env.lookup key = some value := by
    intro c key value
    simp only [ProcessBuilder.sortedEnvs, Core.sortedKeys, List.mem_map, Finset.mem_sort,
      Prod.mk.injEq, Finmap.mem_keys]
    constructor
    · rintro ⟨k, hk, rfl, rfl⟩
      obtain ⟨v, hv⟩ := Finmap.mem_iff.mp hk
      simp [hv]
    · intro hlookup
      exact ⟨key, Finmap.mem_iff.mpr ⟨value, hlookup⟩, rfl, by simp [hlookup]⟩
  apply Finmap.ext_lookup
  intro key
  apply Option.ext
  intro value
  rw [← hmem, ← hmem, h]

theorem processFingerprint_eq_iff {T U : Type} {hashes : Hashes T U}
    {cmd cmd' : ProcessBuilder} :
    processFingerprint hashes cmd = processFingerprint hashes cmd' ↔
      cmd.args = cmd'.args ∧ cmd.env = cmd'.env := by
  rw [processFingerprint, processFingerprint, hashes.command_injective.eq_iff, Prod.mk.injEq]
  refine and_congr_right fun _ => ⟨sortedEnvs_injective, fun h => ?_⟩
  simp only [ProcessBuilder.sortedEnvs, h]

theorem rustcFingerprint_eq_ok_iff {T U : Type} {hashes : Hashes T U} {s : Setup T} {u : U} :
    rustcFingerprint hashes s = .ok u ↔ ∃ i, s.identity = .ok i ∧ hashes.identity i = u := by
  rw [rustcFingerprint]
  cases s.identity <;> simp [Except.map]

/-! ### Which commands get in each other's way -/

section Conditions

variable {T : Type}

/-- Two runs may find each other's answers: they are one, or both have the file and the same
compiler. -/
def Shares (s s' : Setup T) : Prop :=
  s = s' ∨ s.cacheLocation = true ∧ s'.cacheLocation = true ∧
    ∃ i, s.identity = .ok i ∧ s'.identity = .ok i

theorem Shares.sameCompiler {s s' : Setup T} (h : Shares s s') : SameCompiler s s' := by
  rcases h with rfl | ⟨-, -, i, hi, hi'⟩
  · exact .inl rfl
  · exact .inr ⟨i, hi, hi'⟩

theorem Shares.trans {s s₁ s₂ : Setup T} (h : Shares s s₁) (h' : Shares s₁ s₂) :
    Shares s s₂ := by
  rcases h with rfl | ⟨hs, hs₁, i, hi, hi₁⟩
  · exact h'
  · rcases h' with rfl | ⟨-, hs₂, j, hj, hj₂⟩
    · exact .inr ⟨hs, hs₁, i, hi, hi₁⟩
    · cases hi₁.symm.trans hj
      exact .inr ⟨hs, hs₂, i, hi, hj₂⟩

/-- Runs that have the file and one fingerprint of the compiler find each other's answers. -/
theorem shares_of_rustcFingerprint {U : Type} {hashes : Hashes T U} {s s' : Setup T} {u : U}
    (hs : s.cacheLocation = true)
    (hs' : s'.cacheLocation = true) (h : rustcFingerprint hashes s = .ok u)
    (h' : rustcFingerprint hashes s' = .ok u) : Shares s s' := by
  obtain ⟨i, hi, rfl⟩ := rustcFingerprint_eq_ok_iff.mp h
  obtain ⟨i', hi', heq⟩ := rustcFingerprint_eq_ok_iff.mp h'
  rw [hashes.identity_injective heq] at hi'
  exact .inr ⟨hs, hs', i, hi, hi'⟩

/-- The calls look for the same answer. -/
def Call.SameKey : Call → Call → Prop
  | .output cmd, .output cmd' | .success cmd, .success cmd' =>
    cmd.args = cmd'.args ∧ cmd.env = cmd'.env
  | _, _ => False

/-- All commands of the runs are among those that are asked for. -/
def Within (asked : Setup T → Call → Prop) (runs : List (CargoRun T)) : Prop :=
  ∀ run ∈ runs, ∀ call ∈ run.calls, asked run.setup call

/-- The command is one of the runs'. -/
def Asked (runs : List (CargoRun T)) (s : Setup T) (call : Call) : Prop :=
  ∃ run ∈ runs, run.setup = s ∧ call ∈ run.calls

theorem within_asked (runs : List (CargoRun T)) : Within (Asked runs) runs :=
  fun run hrun _ hcall => ⟨run, hrun, rfl, hcall⟩

/-- Commands that look for the same answer are of the same program and see the same
environment. -/
def Alike (asked : Setup T → Call → Prop) : Prop :=
  ∀ s s' call call', asked s call → asked s' call' → Shares s s' → call.SameKey call' →
    call.cmd.program = call'.cmd.program ∧
      call.cmd.getEnv s.var = call'.cmd.getEnv s'.var

/-- What running a command gives: a text, or whether it succeeds. -/
def Commands.gives (commands : Commands T) (s : Setup T) :
    Call → Except ExecError ((String × String) ⊕ Bool)
  | .output cmd => (commands.runOutput s cmd).map .inl
  | .success cmd => (commands.runSuccess s cmd).map .inr

/-- Commands that look for the same answer give the same. -/
def Agreeing (commands : Commands T) (asked : Setup T → Call → Prop) : Prop :=
  ∀ s s' call call', asked s call → asked s' call' → Shares s s' → call.SameKey call' →
    ∀ value, commands.gives s call = .ok value → commands.gives s' call' = .ok value

end Conditions

/-! ### What is kept -/

section Kept

variable {T U E O S : Type} [DecidableEq U] {hashes : Hashes T U} {runner : Runner T E O S}
  {asked : Setup T → Call → Prop}

/-- A call returns what is kept, or what running the command gives, and keeps it. -/
theorem cached_kept {V : Type} {R : V → Prop} {entries : Finmap fun _ : U => V} {key : U}
    {run : Except E V} (hentries : ∀ value, entries.lookup key = some value → R value)
    (hrun : ∀ value, run = .ok value → R value) :
    (∀ value, (cached entries key run).1 = .ok value → R value) ∧
      ∀ key' value, (cached entries key run).2.1.lookup key' = some value →
        entries.lookup key' = some value ∨ key' = key ∧ R value := by
  unfold cached
  cases hlookup : entries.lookup key with
  | some value =>
    refine ⟨fun value' hvalue => ?_, fun key' value' hvalue => .inl hvalue⟩
    cases hvalue
    exact hentries value hlookup
  | none =>
    cases run with
    | error e => exact ⟨nofun, fun key' value hvalue => .inl hvalue⟩
    | ok value =>
      refine ⟨fun value' hvalue => hrun value' hvalue, fun key' value' hvalue => ?_⟩
      by_cases hkey : key' = key
      · subst hkey
        rw [Finmap.lookup_insert] at hvalue
        cases hvalue
        exact .inr ⟨rfl, hrun value rfl⟩
      · rw [Finmap.lookup_insert_of_ne _ hkey] at hvalue
        exact .inl hvalue

variable (hashes runner asked) in
/-- The entries of a run's tables were made by commands that were asked for, in runs whose answers
it may find. -/
structure Kept (s : Setup T) (d : CacheData U O S) : Prop where
  outputs : ∀ key value, d.outputs.lookup key = some value → ∃ s₀ cmd,
    asked s₀ (.output cmd) ∧ Shares s₀ s ∧ processFingerprint hashes cmd = key ∧
      runner.output s₀ cmd = .ok value
  successes : ∀ key value, d.successes.lookup key = some value → ∃ s₀ cmd,
    asked s₀ (.success cmd) ∧ Shares s₀ s ∧ processFingerprint hashes cmd = key ∧
      runner.success s₀ cmd = .ok value

variable (hashes runner asked) in
/-- The cache of a run is as it should be. One that has a file is that of the compiler. -/
structure CacheKept (s : Setup T) (c : Cache U O S) : Prop where
  data : Kept hashes runner asked s c.data
  own : c.cacheLocation = true →
    s.cacheLocation = true ∧ rustcFingerprint hashes s = .ok c.data.rustcFingerprint

variable (hashes runner asked) in
/-- The file is as it should be, for each run that would use it. -/
def FileKept (file : Option (CacheData U O S)) : Prop :=
  ∀ d ∈ file, ∀ s, s.cacheLocation = true →
    rustcFingerprint hashes s = .ok d.rustcFingerprint → Kept hashes runner asked s d

variable (hashes runner asked) in
/-- The answer was made by a command that was asked for, in a run whose answers this one may
find. -/
def Answer.Kept : Answer T E O S → Prop
  | .output s cmd result => asked s (.output cmd) ∧ ∀ value, result = .ok value → ∃ s₀ cmd₀,
    asked s₀ (.output cmd₀) ∧ Shares s₀ s ∧
      processFingerprint hashes cmd₀ = processFingerprint hashes cmd ∧
      runner.output s₀ cmd₀ = .ok value
  | .success s cmd result => asked s (.success cmd) ∧ ∀ value, result = .ok value → ∃ s₀ cmd₀,
    asked s₀ (.success cmd₀) ∧ Shares s₀ s ∧
      processFingerprint hashes cmd₀ = processFingerprint hashes cmd ∧
      runner.success s₀ cmd₀ = .ok value

theorem Kept.shares {s s' : Setup T} {d : CacheData U O S} (h : Kept hashes runner asked s d)
    (hs : Shares s s') : Kept hashes runner asked s' d where
  outputs key value hvalue := by
    obtain ⟨s₀, cmd, hasked, hshares, hkey, hrun⟩ := h.outputs key value hvalue
    exact ⟨s₀, cmd, hasked, hshares.trans hs, hkey, hrun⟩
  successes key value hvalue := by
    obtain ⟨s₀, cmd, hasked, hshares, hkey, hrun⟩ := h.successes key value hvalue
    exact ⟨s₀, cmd, hasked, hshares.trans hs, hkey, hrun⟩

theorem kept_empty (s : Setup T) (u : U) : Kept hashes runner asked s (Cache.empty u) where
  outputs key value hvalue := by
    rw [Cache.empty, Finmap.lookup_empty] at hvalue
    cases hvalue
  successes key value hvalue := by
    rw [Cache.empty, Finmap.lookup_empty] at hvalue
    cases hvalue

/-- A call keeps the cache as it should be. -/
theorem answer_kept {s : Setup T} {call : Call} (hcall : asked s call) {c : Cache U O S}
    (hc : CacheKept hashes runner asked s c) :
    (call.answer hashes runner s c).1.Kept hashes runner asked ∧
      CacheKept hashes runner asked s (call.answer hashes runner s c).2 := by
  cases call with
  | output cmd =>
    obtain ⟨hanswer, htable⟩ := cached_kept (hc.data.outputs (processFingerprint hashes cmd))
      (fun value hvalue => ⟨s, cmd, hcall, .inl rfl, rfl, hvalue⟩)
    refine ⟨⟨hcall, hanswer⟩, ⟨fun key value hvalue => ?_, hc.data.successes⟩, hc.own⟩
    rcases htable key value hvalue with hold | ⟨rfl, hnew⟩
    · exact hc.data.outputs key value hold
    · exact hnew
  | success cmd =>
    obtain ⟨hanswer, htable⟩ := cached_kept (hc.data.successes (processFingerprint hashes cmd))
      (fun value hvalue => ⟨s, cmd, hcall, .inl rfl, rfl, hvalue⟩)
    refine ⟨⟨hcall, hanswer⟩, ⟨hc.data.outputs, fun key value hvalue => ?_⟩, hc.own⟩
    rcases htable key value hvalue with hold | ⟨rfl, hnew⟩
    · exact hc.data.successes key value hold
    · exact hnew

theorem fileKept_none : FileKept hashes runner asked (none : Option (CacheData U O S)) := by
  rintro d ⟨⟩

/-- Dropping the cache leaves the file as it should be. -/
theorem drop_kept {s : Setup T} {c : Cache U O S} (hc : CacheKept hashes runner asked s c)
    {file : Option (CacheData U O S)} (hfile : FileKept hashes runner asked file)
    (write : Write) : FileKept hashes runner asked (c.drop write file) := by
  unfold Cache.drop
  split
  · rename_i hwrites
    cases write with
    | untouched => exact hfile
    | truncated => exact fileKept_none
    | written =>
      rintro _ ⟨⟩ s' hlocation hfingerprint
      obtain ⟨hlocation₀, hfingerprint₀⟩ := hc.own hwrites.2
      exact hc.data.shares
        (shares_of_rustcFingerprint hlocation₀ hlocation hfingerprint₀ hfingerprint)
  · exact hfile

variable [Inhabited U]

/-- Loading the file gives a cache that is as it should be. -/
theorem load_kept {file : Option (CacheData U O S)} (hfile : FileKept hashes runner asked file)
    (s : Setup T) : CacheKept hashes runner asked s (Cache.load hashes s file) := by
  unfold Cache.load
  cases hlocation : s.cacheLocation with
  | false => exact ⟨kept_empty s _, nofun⟩
  | true =>
    cases hs : rustcFingerprint hashes s with
    | error e => exact ⟨kept_empty s _, nofun⟩
    | ok u =>
      cases file with
      | none => exact ⟨kept_empty s u, fun _ => ⟨hlocation, hs⟩⟩
      | some d =>
        dsimp only
        split
        · rename_i hu
          subst hu
          exact ⟨hfile d rfl s hlocation hs, fun _ => ⟨hlocation, hs⟩⟩
        · exact ⟨kept_empty s u, fun _ => ⟨hlocation, hs⟩⟩

/-- A run keeps the file as it should be. -/
theorem exec_kept {run : CargoRun T} (hrun : ∀ call ∈ run.calls, asked run.setup call)
    {file : Option (CacheData U O S)} (hfile : FileKept hashes runner asked file) :
    (∀ answer ∈ (run.exec hashes runner file).1, answer.Kept hashes runner asked) ∧
      FileKept hashes runner asked (run.exec hashes runner file).2 := by
  obtain ⟨hanswers, hcache⟩ := forall_mem_traverse run.calls
    (fun call hcall c hc => answer_kept (hrun call hcall) hc) (load_kept hfile run.setup)
  exact ⟨hanswers, drop_kept hcache hfile run.write⟩

/-- What is found was made by a command that was asked for. -/
theorem session_kept {runs : List (CargoRun T)} (hruns : Within asked runs) :
    ∀ answers ∈ session hashes runner runs, ∀ answer ∈ answers,
      answer.Kept hashes runner asked :=
  (forall_mem_traverse (I := FileKept hashes runner asked) runs
    (fun run hrun _ hfile => exec_kept (hruns run hrun) hfile) fileKept_none).1

end Kept

/-! ### Whether the answers are right -/

section Right

variable {T U : Type} {hashes : Hashes T U} {commands : Commands T}

/-- The answer, if it is not an error, is what running the command would give now. -/
def Answer.Right (commands : Commands T) : Answer T ExecError (String × String) Bool → Prop
  | .output s cmd result => ∀ value, result = .ok value → commands.runOutput s cmd = .ok value
  | .success s cmd result => ∀ value, result = .ok value → commands.runSuccess s cmd = .ok value

instance (answer : Answer T ExecError (String × String) Bool) :
    Decidable (answer.Right commands) :=
  match answer with
  | .output s cmd (.ok value) =>
    decidable_of_iff ((commands.runOutput s cmd).toOption = some value) (by
      simp only [Answer.Right, Except.ok.injEq, forall_eq']
      cases commands.runOutput s cmd <;> simp [Except.toOption])
  | .success s cmd (.ok value) =>
    decidable_of_iff ((commands.runSuccess s cmd).toOption = some value) (by
      simp only [Answer.Right, Except.ok.injEq, forall_eq']
      cases commands.runSuccess s cmd <;> simp [Except.toOption])
  | .output _ _ (.error _) => .isTrue nofun
  | .success _ _ (.error _) => .isTrue nofun

variable (hashes commands) in
/-- Each call of the runs that returns something returns what running its command would give. -/
def Transparent [DecidableEq U] [Inhabited U] (runs : List (CargoRun T)) : Prop :=
  ∀ answers ∈ session hashes commands.runner runs, ∀ answer ∈ answers, answer.Right commands

instance [DecidableEq U] [Inhabited U] (runs : List (CargoRun T)) :
    Decidable (Transparent hashes commands runs) :=
  inferInstanceAs (Decidable (∀ answers ∈ _, ∀ answer ∈ answers, Answer.Right commands answer))

/-- What was made by a command that was asked for is right if commands with one key agree. -/
theorem Answer.Kept.right {asked : Setup T → Call → Prop} (hagreeing : Agreeing commands asked)
    {answer : Answer T ExecError (String × String) Bool}
    (h : answer.Kept hashes commands.runner asked) : answer.Right commands := by
  cases answer with
  | output s cmd result =>
    intro value hvalue
    obtain ⟨s₀, cmd₀, hasked, hshares, hkey, hrun⟩ := h.2 value hvalue
    have hrun' : commands.runOutput s₀ cmd₀ = .ok value := hrun
    have hgives := hagreeing s₀ s (.output cmd₀) (.output cmd) hasked h.1 hshares
      (processFingerprint_eq_iff.mp hkey) (.inl value) (map_eq_ok.mpr ⟨value, hrun', rfl⟩)
    obtain ⟨value', hvalue', heq⟩ := map_eq_ok.mp hgives
    cases heq
    exact hvalue'
  | success s cmd result =>
    intro value hvalue
    obtain ⟨s₀, cmd₀, hasked, hshares, hkey, hrun⟩ := h.2 value hvalue
    have hrun' : commands.runSuccess s₀ cmd₀ = .ok value := hrun
    have hgives := hagreeing s₀ s (.success cmd₀) (.success cmd) hasked h.1 hshares
      (processFingerprint_eq_iff.mp hkey) (.inr value) (map_eq_ok.mpr ⟨value, hrun', rfl⟩)
    obtain ⟨value', hvalue', heq⟩ := map_eq_ok.mp hgives
    cases heq
    exact hvalue'

theorem transparent_of_agreeing [DecidableEq U] [Inhabited U] {asked : Setup T → Call → Prop}
    (hagreeing : Agreeing commands asked) {runs : List (CargoRun T)} (hruns : Within asked runs) :
    Transparent hashes commands runs := by
  intro answers hanswers answer hanswer
  exact (session_kept hruns answers hanswers answer hanswer).right hagreeing

/-! ### What commands do -/

theorem Call.SameKey.args {call call' : Call} (h : call.SameKey call') :
    call.cmd.args = call'.cmd.args := by
  cases call <;> cases call' <;> first | exact h.1 | exact h.elim

/-- A command with the same arguments, compiler, program and environment does the same. -/
theorem output_eq_of_like {s s' : Setup T} {cmd cmd' : ProcessBuilder}
    (hargs : cmd.args = cmd'.args) (hsame : SameCompiler s s')
    (hprogram : cmd.program = cmd'.program) (henv : cmd.getEnv s.var = cmd'.getEnv s'.var) :
    commands.output s cmd = commands.output s' cmd' := by
  rw [Commands.output, Commands.output, commands.run_congr hsame, hprogram, henv, hargs]

theorem execWithOutput_eq_ok_iff {s : Setup T} {cmd : ProcessBuilder} {output : Output} :
    commands.execWithOutput s cmd = .ok output ↔
      commands.output s cmd = some output ∧ output.success = true := by
  rw [Commands.execWithOutput]
  cases commands.output s cmd with
  | none => simp
  | some output' =>
    by_cases hsuccess : output'.success = true
    · simp only [hsuccess, if_true, Except.ok.injEq, Option.some.injEq]
      exact ⟨fun h => ⟨h, h ▸ hsuccess⟩, And.left⟩
    · simp only [hsuccess, Bool.false_eq_true, if_false, reduceCtorEq, Option.some.injEq, false_iff]
      rintro ⟨rfl, h⟩
      exact hsuccess h

theorem runOutput_eq_ok_iff {s : Setup T} {cmd : ProcessBuilder} {value : String × String} :
    commands.runOutput s cmd = .ok value ↔
      ∃ output, commands.output s cmd = some output ∧ output.success = true ∧
        Commands.fromUtf8 output.stdout = .ok value.1 ∧
        Commands.fromUtf8 output.stderr = .ok value.2 := by
  simp only [Commands.runOutput, bind_eq_ok]
  constructor
  · rintro ⟨output, houtput, stdout, hstdout, stderr, hstderr, hvalue⟩
    cases hvalue
    exact ⟨output, (execWithOutput_eq_ok_iff.mp houtput).1, (execWithOutput_eq_ok_iff.mp houtput).2,
      hstdout, hstderr⟩
  · rintro ⟨output, houtput, hsuccess, hstdout, hstderr⟩
    exact ⟨output, execWithOutput_eq_ok_iff.mpr ⟨houtput, hsuccess⟩, _, hstdout, _, hstderr, rfl⟩

theorem runSuccess_eq_ok_iff {s : Setup T} {cmd : ProcessBuilder} {value : Bool} :
    commands.runSuccess s cmd = .ok value ↔
      ∃ output, commands.output s cmd = some output ∧ output.success = value := by
  rw [Commands.runSuccess]
  cases commands.output s cmd <;> simp

/-- Commands that do the same give the same. -/
theorem gives_congr {s s' : Setup T} {call call' : Call} (hkey : call.SameKey call')
    (h : commands.output s call.cmd = commands.output s' call'.cmd)
    {value : (String × String) ⊕ Bool} (hvalue : commands.gives s call = .ok value) :
    commands.gives s' call' = .ok value := by
  cases call with
  | output cmd =>
    cases call' with
    | output cmd' =>
      obtain ⟨texts, htexts, rfl⟩ := map_eq_ok.mp hvalue
      refine map_eq_ok.mpr ⟨texts, ?_, rfl⟩
      rw [runOutput_eq_ok_iff] at htexts ⊢
      exact h ▸ htexts
    | success cmd' => exact hkey.elim
  | success cmd =>
    cases call' with
    | output cmd' => exact hkey.elim
    | success cmd' =>
      obtain ⟨success, hsuccess, rfl⟩ := map_eq_ok.mp hvalue
      refine map_eq_ok.mpr ⟨success, ?_, rfl⟩
      rw [runSuccess_eq_ok_iff] at hsuccess ⊢
      exact h ▸ hsuccess

theorem Alike.agreeing {asked : Setup T → Call → Prop} (h : Alike asked) :
    Agreeing commands asked := by
  intro s s' call call' hasked hasked' hshares hkey value hvalue
  obtain ⟨hprogram, henv⟩ := h s s' call call' hasked hasked' hshares hkey
  exact gives_congr hkey (output_eq_of_like hkey.args hshares.sameCompiler hprogram henv) hvalue

/-! ### Runs in which an earlier answer is found -/

/-- What a cache has for a call. -/
def Cache.find [DecidableEq U] {O S : Type} (hashes : Hashes T U) (c : Cache U O S) :
    Call → Option (O ⊕ S)
  | .output cmd => (c.data.outputs.lookup (processFingerprint hashes cmd)).map .inl
  | .success cmd => (c.data.successes.lookup (processFingerprint hashes cmd)).map .inr

variable [DecidableEq U]

theorem find_congr {O S : Type} {call call' : Call} (h : call.SameKey call') (c : Cache U O S) :
    c.find hashes call = c.find hashes call' := by
  cases call with
  | output cmd =>
    cases call' with
    | output cmd' => rw [Cache.find, Cache.find, processFingerprint_eq_iff.mpr h]
    | success cmd' => exact h.elim
  | success cmd =>
    cases call' with
    | output cmd' => exact h.elim
    | success cmd' => rw [Cache.find, Cache.find, processFingerprint_eq_iff.mpr h]

/-- A new answer is kept. -/
theorem find_answer {s : Setup T} {call : Call} {c : Cache U (String × String) Bool}
    (hnone : c.find hashes call = none) {value : (String × String) ⊕ Bool}
    (hvalue : commands.gives s call = .ok value) :
    (call.answer hashes commands.runner s c).2.find hashes call = some value ∧
      (call.answer hashes commands.runner s c).2.dirty = true := by
  cases call with
  | output cmd =>
    obtain ⟨texts, htexts, rfl⟩ := map_eq_ok.mp hvalue
    have hrun : commands.runner.output s cmd = .ok texts := htexts
    have hkey := Option.map_eq_none_iff.mp hnone
    simp [Cache.find, Call.answer, Cache.cachedOutput, cached, hkey, hrun]
  | success cmd =>
    obtain ⟨success, hsuccess, rfl⟩ := map_eq_ok.mp hvalue
    have hrun : commands.runner.success s cmd = .ok success := hsuccess
    have hkey := Option.map_eq_none_iff.mp hnone
    simp [Cache.find, Call.answer, Cache.cachedSuccess, cached, hkey, hrun]

/-- If what is found is right, then it is what running the command gives. -/
theorem gives_of_find {s : Setup T} {call : Call} {c : Cache U (String × String) Bool}
    {value : (String × String) ⊕ Bool} (hfind : c.find hashes call = some value)
    (hright : (call.answer hashes commands.runner s c).1.Right commands) :
    commands.gives s call = .ok value := by
  cases call with
  | output cmd =>
    obtain ⟨texts, hkey, rfl⟩ := Option.map_eq_some_iff.mp hfind
    have hanswer : ((Call.output cmd).answer hashes commands.runner s c).1 =
        .output s cmd (.ok texts) := by
      simp [Call.answer, Cache.cachedOutput, cached, hkey]
    rw [hanswer] at hright
    exact map_eq_ok.mpr ⟨texts, hright texts rfl, rfl⟩
  | success cmd =>
    obtain ⟨success, hkey, rfl⟩ := Option.map_eq_some_iff.mp hfind
    have hanswer : ((Call.success cmd).answer hashes commands.runner s c).1 =
        .success s cmd (.ok success) := by
      simp [Call.answer, Cache.cachedSuccess, cached, hkey]
    rw [hanswer] at hright
    exact map_eq_ok.mpr ⟨success, hright success rfl, rfl⟩

/-- A call keeps whose cache it is. -/
theorem answer_own {E O S : Type} {runner : Runner T E O S} {s : Setup T} (call : Call)
    (c : Cache U O S) :
    (call.answer hashes runner s c).2.cacheLocation = c.cacheLocation ∧
      (call.answer hashes runner s c).2.data.rustcFingerprint = c.data.rustcFingerprint := by
  cases call <;> exact ⟨rfl, rfl⟩

variable [Inhabited U]

/-- Without a file nothing is found. -/
theorem find_load_none {O S : Type} (s : Setup T) (call : Call) :
    (Cache.load hashes s (none : Option (CacheData U O S))).find hashes call = none := by
  unfold Cache.load
  cases call <;> split <;> simp [Cache.find, Cache.empty]

/-- In one run, the second of two calls with one key finds the answer to the first. -/
theorem gives_of_one_run {s : Setup T} {call call' : Call} (hkey : call.SameKey call')
    {value : (String × String) ⊕ Bool} (hvalue : commands.gives s call = .ok value)
    (h : Transparent hashes commands [⟨s, [call, call'], .untouched⟩]) :
    commands.gives s call' = .ok value := by
  let c : Cache U (String × String) Bool := Cache.load hashes s none
  have hnone : c.find hashes call = none := find_load_none s call
  have hfind := (find_answer hnone hvalue).1
  rw [find_congr hkey] at hfind
  apply gives_of_find hfind
  exact h _ (List.mem_cons_self) _ (by simp [CargoRun.exec, Math.traverse, c])

/-- In two runs with one compiler, the second finds the answer to a call of the first. -/
theorem gives_of_two_runs {s s' : Setup T} (hs : s.cacheLocation = true)
    (hs' : s'.cacheLocation = true) {i : Identity T} (hi : s.identity = .ok i)
    (hi' : s'.identity = .ok i) {call call' : Call} (hkey : call.SameKey call')
    {value : (String × String) ⊕ Bool} (hvalue : commands.gives s call = .ok value)
    (h : Transparent hashes commands [⟨s, [call], .written⟩, ⟨s', [call'], .untouched⟩]) :
    commands.gives s' call' = .ok value := by
  have hu : rustcFingerprint hashes s = .ok (hashes.identity i) :=
    rustcFingerprint_eq_ok_iff.mpr ⟨i, hi, rfl⟩
  have hu' : rustcFingerprint hashes s' = .ok (hashes.identity i) :=
    rustcFingerprint_eq_ok_iff.mpr ⟨i, hi', rfl⟩
  let c : Cache U (String × String) Bool := Cache.load hashes s none
  -- there is no file yet, so that the first run begins with nothing
  have hload : c = ⟨true, true, Cache.empty (hashes.identity i)⟩ := by
    simp [c, Cache.load, hs, hu]
  have hnone : c.find hashes call = none := find_load_none s call
  obtain ⟨hfind, hdirty⟩ := find_answer hnone hvalue
  rw [find_congr hkey] at hfind
  -- the file holds what the first run has noted, and is that of the compiler of the second
  let noted := (call.answer hashes commands.runner s c).2
  have hlocation : noted.cacheLocation = true := by
    rw [(answer_own call c).1, hload]
  have hfingerprint : noted.data.rustcFingerprint = hashes.identity i := by
    rw [(answer_own call c).2, hload]
    rfl
  have hdrop : noted.drop .written none = some noted.data := by
    rw [Cache.drop, if_pos ⟨hdirty, hlocation⟩]
  have hfound : (Cache.load hashes s' (some noted.data)).find hashes call' = some value := by
    have hload' : Cache.load hashes s' (some noted.data) = ⟨true, false, noted.data⟩ := by
      simp [Cache.load, hs', hu', hfingerprint]
    rw [hload', ← hfind]
    cases call' <;> rfl
  apply gives_of_find hfound
  have hsecond := h
    [(call'.answer hashes commands.runner s' (Cache.load hashes s' (some noted.data))).1] (by
      rw [← hdrop]
      exact List.mem_cons_of_mem _ (List.mem_singleton_self _))
  exact hsecond _ (List.mem_singleton_self _)

/-- Commands whose answers are always right agree. -/
theorem agreeing_of_transparent {asked : Setup T → Call → Prop}
    (h : ∀ runs, Within asked runs → Transparent hashes commands runs) :
    Agreeing commands asked := by
  intro s s' call call' hasked hasked' hshares hkey value hvalue
  rcases hshares with rfl | ⟨hs, hs', i, hi, hi'⟩
  · refine gives_of_one_run hkey hvalue (h _ ?_)
    rintro run hrun call₀ hcall
    rw [List.mem_singleton] at hrun
    subst hrun
    rcases List.mem_cons.mp hcall with rfl | hcall
    · exact hasked
    · exact List.mem_singleton.mp hcall ▸ hasked'
  · refine gives_of_two_runs hs hs' hi hi' hkey hvalue (h _ ?_)
    rintro run hrun call₀ hcall
    rcases List.mem_cons.mp hrun with rfl | hrun
    · exact List.mem_singleton.mp hcall ▸ hasked
    · rw [List.mem_singleton] at hrun
      subst hrun
      exact List.mem_singleton.mp hcall ▸ hasked'

/-- One program in one environment succeeds, and nothing else does. -/
noncomputable def Commands.only (program : String) (env : String → Option String) :
    Commands T where
  run _ program' _ env' := some {
    stdout := "".toUTF8
    stderr := "".toUTF8
    success := @decide (program' = program ∧ env' = env) (Classical.propDecidable _) }
  run_congr _ := rfl

theorem success_only {program : String} {env : String → Option String} {s : Setup T}
    {cmd : ProcessBuilder} {output : Output}
    (h : (Commands.only program env).output s cmd = some output) :
    output.success = true ↔ cmd.program = program ∧ cmd.getEnv s.var = env := by
  cases h
  exact @decide_eq_true_iff _ (Classical.propDecidable _)

/-- What that program gives in its environment. -/
def onlyGives : Call → (String × String) ⊕ Bool
  | .output _ => .inl ("", "")
  | .success _ => .inr true

theorem gives_only {program : String} {env : String → Option String} {s : Setup T} {call : Call} :
    (Commands.only program env).gives s call = .ok (onlyGives call) ↔
      call.cmd.program = program ∧ call.cmd.getEnv s.var = env := by
  obtain ⟨output, houtput⟩ : ∃ output,
      (Commands.only program env).output s call.cmd = some output := ⟨_, rfl⟩
  have htext : Commands.fromUtf8 "".toUTF8 = .ok "" := by rfl
  have hstdout : output.stdout = "".toUTF8 ∧ output.stderr = "".toUTF8 := by
    cases houtput
    exact ⟨rfl, rfl⟩
  rw [← success_only houtput]
  cases call with
  | output cmd =>
    change ((Commands.only program env).runOutput s cmd).map Sum.inl = _ ↔ _
    rw [map_eq_ok]
    constructor
    · rintro ⟨texts, htexts, -⟩
      obtain ⟨output', houtput', hsuccess, -⟩ := runOutput_eq_ok_iff.mp htexts
      cases houtput.symm.trans houtput'
      exact hsuccess
    · intro hsuccess
      refine ⟨("", ""), runOutput_eq_ok_iff.mpr ⟨output, houtput, hsuccess, ?_, ?_⟩, rfl⟩
      · rw [hstdout.1, htext]
      · rw [hstdout.2, htext]
  | success cmd =>
    change ((Commands.only program env).runSuccess s cmd).map Sum.inr = _ ↔ _
    rw [map_eq_ok]
    constructor
    · rintro ⟨success, hrun, heq⟩
      cases heq
      obtain ⟨output', houtput', hsuccess⟩ := runSuccess_eq_ok_iff.mp hrun
      cases houtput.symm.trans houtput'
      exact hsuccess
    · intro hsuccess
      exact ⟨true, runSuccess_eq_ok_iff.mpr ⟨output, houtput, hsuccess⟩, rfl⟩

theorem onlyGives_congr {call call' : Call} (h : call.SameKey call') :
    onlyGives call = onlyGives call' := by
  cases call <;> cases call' <;> first | rfl | exact h.elim

/-- The cache cannot be noticed in any runs with the commands that are asked for exactly if those
of them that look for the same answer, with one compiler, give the same; and not whatever the
commands do exactly if they are of the same program and see the same environment. -/
theorem transparent_iff_alike (hashes : Hashes T U) (asked : Setup T → Call → Prop) :
    (∀ commands : Commands T, (∀ runs, Within asked runs → Transparent hashes commands runs) ↔
      Agreeing commands asked) ∧
    ((∀ (commands : Commands T) (runs : List (CargoRun T)), Within asked runs →
      Transparent hashes commands runs) ↔ Alike asked) := by
  refine ⟨fun commands => ⟨agreeing_of_transparent, ?_⟩, ?_, ?_⟩
  · exact fun hagreeing runs hruns => transparent_of_agreeing hagreeing hruns
  · intro h s s' call call' hasked hasked' hshares hkey
    -- commands that only succeed as the first one does
    have hagreeing := agreeing_of_transparent (h (.only call.cmd.program (call.cmd.getEnv s.var)))
    have hgives := hagreeing s s' call call' hasked hasked' hshares hkey _
      (gives_only.mpr ⟨rfl, rfl⟩)
    rw [onlyGives_congr hkey] at hgives
    obtain ⟨hprogram, henv⟩ := gives_only.mp hgives
    exact ⟨hprogram.symm, henv.symm⟩
  · exact fun halike commands runs hruns => transparent_of_agreeing halike.agreeing hruns

end Right

/-! ### Two wrappers -/

section Wrappers

/-- What is hashed. -/
abbrev HashInput : Type :=
  Identity ℕ ⊕ (List String × List (String × Option String))

/-- Hashes that are what is hashed. -/
def plainHashes : Hashes ℕ HashInput where
  identity := .inl
  command := .inr
  identity_injective := Sum.inl_injective
  command_injective := Sum.inr_injective

instance : Inhabited HashInput :=
  ⟨.inr ([], [])⟩

/-- A compiler at `/rustc`, behind a wrapper. -/
def wrapped (wrapper : String) : Setup ℕ where
  path := "/rustc"
  wrapper := some wrapper
  rustupRustc := "/shim"
  cacheLocation := true
  var _ := none
  resolveExecutable := some
  mtime _ := some 0

/-- A run of cargo with this wrapper, which asks for the version and the configuration. -/
def wrappedRun (wrapper : String) : CargoRun ℕ where
  setup := wrapped wrapper
  calls := [.output (wrapped wrapper).versionCommand,
    .output ((wrapped wrapper).rustcProcess.arg "--print=cfg")]
  write := .written

/-- Programs that print their names, and their host if they are asked for the version. -/
def echo : Commands ℕ where
  run _ program args _ := some {
    stdout := (if args = ["-vV"] then "host: unix" else program).toUTF8
    stderr := "".toUTF8
    success := true }
  run_congr _ := rfl

/-- The second run is told what the wrapper of the first one prints. -/
theorem other_wrapper_noticed :
    ¬ Transparent plainHashes echo [wrappedRun "a", wrappedRun "b"] := by
  decide +kernel

/-- With one wrapper the answers of the first run are right in the second one. -/
theorem transparent_same_wrapper : Alike (Asked [wrappedRun "a", wrappedRun "a"]) ∧
    Transparent plainHashes echo [wrappedRun "a", wrappedRun "a"] := by
  have hasked : ∀ s call, Asked [wrappedRun "a", wrappedRun "a"] s call → s = wrapped "a" ∧
      (call = .output (wrapped "a").versionCommand ∨
        call = .output ((wrapped "a").rustcProcess.arg "--print=cfg")) := by
    rintro s call ⟨run, hrun, rfl, hcall⟩
    simp only [List.mem_cons, List.not_mem_nil, or_false, or_self] at hrun
    subst hrun
    simp only [wrappedRun, List.mem_cons, List.not_mem_nil, or_false] at hcall
    exact ⟨rfl, hcall⟩
  have halike : Alike (Asked [wrappedRun "a", wrappedRun "a"]) := by
    intro s s' call call' hs hs' _ hkey
    obtain ⟨rfl, rfl | rfl⟩ := hasked s call hs <;> obtain ⟨rfl, rfl | rfl⟩ := hasked s' call' hs'
    · exact ⟨rfl, rfl⟩
    · exact absurd hkey.args (by decide)
    · exact absurd hkey.args (by decide)
    · exact ⟨rfl, rfl⟩
  exact ⟨halike, (transparent_iff_alike plainHashes _).2.mpr halike _ _ (within_asked _)⟩

end Wrappers

end Cargo.Util
