import Cargo.Core.Summary
import Cargo.Math.Memo

/-!
# The `rustc` info cache

Before each build cargo asks the compiler about itself. The answers are kept in a file in the
target directory, under a fingerprint of the compiler; each of them is found by a fingerprint of
the command. A run of cargo loads the file, makes its calls, and writes the file if something is
new.

The values that are kept are a parameter. In cargo itself they are texts and exit statuses.

## Main definitions

* `ProcessBuilder` — a command
* `Setup` — what a run of cargo finds when it starts
* `Setup.identity` — what `rustc_fingerprint` hashes
* `Cache.load`, `Cache.cachedOutput`, `Cache.cachedSuccess`, `Cache.drop`
* `session` — runs of cargo, one after the other
* `Commands` — what commands print, and how they exit
-/

set_option autoImplicit false

namespace Cargo.Util

open Cargo.Math

/-! ### Commands -/

/-- A command. `None` for a variable says that the command is run without it. A job server is not
part of it, since no command whose answer is kept has one. -/
structure ProcessBuilder where
  program : String
  args : List String
  env : Finmap fun _ : String => Option String
  cwd : Option String

/-- A command without arguments. -/
def process (cmd : String) : ProcessBuilder where
  program := cmd
  args := []
  env := ∅
  cwd := none

namespace ProcessBuilder

def arg (cmd : ProcessBuilder) (arg : String) : ProcessBuilder :=
  { cmd with args := cmd.args ++ [arg] }

def envRemove (cmd : ProcessBuilder) (key : String) : ProcessBuilder :=
  { cmd with env := cmd.env.insert key none }

/-- A variable as the process sees it: it is inherited, unless it is set or removed. -/
def getEnv (cmd : ProcessBuilder) (inherited : String → Option String) (var : String) :
    Option String :=
  match cmd.env.lookup var with
  | some value => value
  | none => inherited var

/-- The variables that are set or removed, in the order of their names. -/
def sortedEnvs (cmd : ProcessBuilder) : List (String × Option String) :=
  (Core.sortedKeys cmd.env).map fun key => (key, (cmd.env.lookup key).join)

end ProcessBuilder

/-! ### The compiler -/

/-- What a run of cargo finds when it starts: the compiler and the wrapper that are configured,
where the shim of rustup would be, whether there is a cache file, the environment, and the files
of the system. -/
structure Setup (T : Type) where
  path : String
  wrapper : Option String
  rustupRustc : String
  cacheLocation : Bool
  var : String → Option String
  resolveExecutable : String → Option String
  mtime : String → Option T

/-- What tells compilers apart: the executable and its time, and what rustup makes of it (the
toolchain, its home, and the time of the compiler that is meant). -/
structure Identity (T : Type) where
  path : String
  mtime : T
  rustup : Option (String × String × T)
  deriving DecidableEq

/-- Why there is no fingerprint. -/
inductive FingerprintError
  /-- no executable found in PATH -/
  | noExecutable (path : String)
  /-- failed to stat -/
  | failedToStat (path : String)
  /-- probably rustup rustc, but without rustup's env vars -/
  | probablyRustup

/-- `Path::join`. -/
def joinPath (base path : String) : String :=
  if path.front = '/' ∨ base = "" then path
  else if base.back = '/' then base ++ path
  else base ++ "/" ++ path

/-- The compiler that a shim of rustup runs. -/
def realRustc (home toolchain : String) : String :=
  joinPath (joinPath (joinPath (joinPath home "toolchains") toolchain) "bin") "rustc"

namespace Setup

variable {T : Type} (s : Setup T)

/-- The time of a file. -/
def statMtime (path : String) : Except FingerprintError T :=
  match s.mtime path with
  | some time => .ok time
  | none => .error (.failedToStat path)

/-- What `rustc_fingerprint` adds about rustup. -/
def rustupInfo (path : String) : Except FingerprintError (Option (String × String × T)) :=
  match s.var "RUSTUP_HOME", s.var "RUSTUP_TOOLCHAIN" with
  | some home, some toolchain => do
    let time ← s.statMtime (realRustc home toolchain)
    return some (toolchain, home, time)
  | _, _ => if s.rustupRustc = path then .error .probablyRustup else .ok none

/-- All that `rustc_fingerprint` hashes. -/
def identity : Except FingerprintError (Identity T) :=
  match s.resolveExecutable s.path with
  | none => .error (.noExecutable s.path)
  | some path => do
    let mtime ← s.statMtime path
    let rustup ← s.rustupInfo path
    return { path, mtime, rustup }

/-- `Rustc::process`: the wrapper, if there is one, is given the compiler as its first
argument. -/
def rustcProcess : ProcessBuilder :=
  match s.wrapper with
  | some wrapper => if wrapper = "" then process s.path else (process wrapper).arg s.path
  | none => process s.path

/-- The command of `Rustc::new`. -/
def versionCommand : ProcessBuilder :=
  (process s.path).arg "-vV"

end Setup

/-- The hash functions. They do not give one value for two compilers or for two commands. -/
structure Hashes (T U : Type) where
  identity : Identity T → U
  command : List String × List (String × Option String) → U
  identity_injective : Function.Injective identity
  command_injective : Function.Injective command

section

variable {T U : Type} (hashes : Hashes T U)

def rustcFingerprint (s : Setup T) : Except FingerprintError U :=
  s.identity.map hashes.identity

def processFingerprint (cmd : ProcessBuilder) : U :=
  hashes.command (cmd.args, cmd.sortedEnvs)

end

/-! ### The cache -/

structure CacheData (U O S : Type) where
  rustcFingerprint : U
  outputs : Finmap fun _ : U => O
  successes : Finmap fun _ : U => S

structure Cache (U O S : Type) where
  cacheLocation : Bool
  dirty : Bool
  data : CacheData U O S

/-- How commands are run: for what they print, and for whether they succeed. -/
structure Runner (T E O S : Type) where
  output : Setup T → ProcessBuilder → Except E O
  success : Setup T → ProcessBuilder → Except E S

/-- The answer that is kept for a key, or else a new one, which is kept from then on unless it is
an error. The last component says whether something is new. -/
def cached {U E V : Type} [DecidableEq U] (entries : Finmap fun _ : U => V) (key : U)
    (run : Except E V) : Except E V × (Finmap fun _ : U => V) × Bool :=
  match entries.lookup key with
  | some value => (.ok value, entries, false)
  | none =>
    match run with
    | .ok value => (.ok value, entries.insert key value, true)
    | .error e => (.error e, entries, false)

/-- What becomes of the file when it is written. -/
inductive Write
  | written
  /-- the file could not be opened -/
  | untouched
  /-- the file has been emptied, but not all could be written -/
  | truncated
  deriving DecidableEq

namespace Cache

variable {T U E O S : Type} [DecidableEq U] [Inhabited U] (hashes : Hashes T U)

/-- A cache without entries for a compiler. -/
def empty (rustcFingerprint : U) : CacheData U O S where
  rustcFingerprint
  outputs := ∅
  successes := ∅

/-- Load the cache. There is no data in a file that is missing or cannot be read. -/
def load (s : Setup T) (file : Option (CacheData U O S)) : Cache U O S :=
  match s.cacheLocation, rustcFingerprint hashes s with
  | true, .ok rustcFingerprint =>
    match file with
    | some data =>
      if data.rustcFingerprint = rustcFingerprint then
        { cacheLocation := true, dirty := false, data }
      else { cacheLocation := true, dirty := true, data := empty rustcFingerprint }
    | none => { cacheLocation := true, dirty := true, data := empty rustcFingerprint }
  | _, _ => { cacheLocation := false, dirty := false, data := empty default }

def cachedOutput (run : ProcessBuilder → Except E O) (cmd : ProcessBuilder) (c : Cache U O S) :
    Except E O × Cache U O S :=
  let (result, outputs, missed) :=
    cached c.data.outputs (processFingerprint hashes cmd) (run cmd)
  (result, { c with dirty := c.dirty || missed, data := { c.data with outputs } })

def cachedSuccess (run : ProcessBuilder → Except E S) (cmd : ProcessBuilder) (c : Cache U O S) :
    Except E S × Cache U O S :=
  let (result, successes, missed) :=
    cached c.data.successes (processFingerprint hashes cmd) (run cmd)
  (result, { c with dirty := c.dirty || missed, data := { c.data with successes } })

/-- `Drop for Cache`: what is in the file afterwards. -/
def drop (c : Cache U O S) (write : Write) (file : Option (CacheData U O S)) :
    Option (CacheData U O S) :=
  if c.dirty ∧ c.cacheLocation then
    match write with
    | .written => some c.data
    | .untouched => file
    | .truncated => none
  else file

end Cache

/-! ### Runs of cargo -/

inductive Call
  | output (cmd : ProcessBuilder)
  | success (cmd : ProcessBuilder)

def Call.cmd : Call → ProcessBuilder
  | .output cmd => cmd
  | .success cmd => cmd

/-- A call with what it returned. -/
inductive Answer (T E O S : Type)
  | output (s : Setup T) (cmd : ProcessBuilder) (result : Except E O)
  | success (s : Setup T) (cmd : ProcessBuilder) (result : Except E S)

/-- A run of cargo. The first call is that of `Rustc::new`, and the only one if this function
fails. -/
structure CargoRun (T : Type) where
  setup : Setup T
  calls : List Call
  write : Write

section Session

variable {T U E O S : Type} [DecidableEq U] [Inhabited U] (hashes : Hashes T U)
  (runner : Runner T E O S)

def Call.answer (s : Setup T) (call : Call) (c : Cache U O S) : Answer T E O S × Cache U O S :=
  match call with
  | .output cmd => (c.cachedOutput hashes (runner.output s) cmd).map (.output s cmd) id
  | .success cmd => (c.cachedSuccess hashes (runner.success s) cmd).map (.success s cmd) id

/-- One run: the answers, and the file afterwards. -/
def CargoRun.exec (run : CargoRun T) (file : Option (CacheData U O S)) :
    List (Answer T E O S) × Option (CacheData U O S) :=
  let (answers, cache) := traverse (Call.answer hashes runner run.setup) run.calls
    (Cache.load hashes run.setup file)
  (answers, cache.drop run.write file)

/-- The answers in runs that share a cache file, which is missing at first. -/
def session (runs : List (CargoRun T)) : List (List (Answer T E O S)) :=
  (traverse (CargoRun.exec hashes runner) runs (none : Option (CacheData U O S))).1

end Session

/-! ### What commands print -/

/-- What a process leaves. -/
structure Output where
  stdout : ByteArray
  stderr : ByteArray
  success : Bool

/-- Why there is no answer. -/
inductive ExecError
  /-- could not execute process -/
  | couldNotExecute (cmd : ProcessBuilder)
  /-- process didn't exit successfully -/
  | unsuccessful (cmd : ProcessBuilder)
  /-- rustc didn't return utf8 output -/
  | notUtf8

/-- Two runs have the same compiler, as far as can be told. -/
def SameCompiler {T : Type} (s s' : Setup T) : Prop :=
  s = s' ∨ ∃ i, s.identity = .ok i ∧ s'.identity = .ok i

/-- The behaviour of commands. It is a function of the program, the arguments, the environment
and the compiler; a program that does not start leaves nothing. -/
structure Commands (T : Type) where
  run : Setup T → String → List String → (String → Option String) → Option Output
  run_congr : ∀ {s s'}, SameCompiler s s' → run s = run s'

namespace Commands

variable {T : Type} (commands : Commands T)

/-- Run a command. -/
def output (s : Setup T) (cmd : ProcessBuilder) : Option Output :=
  commands.run s cmd.program cmd.args (cmd.getEnv s.var)

def execWithOutput (s : Setup T) (cmd : ProcessBuilder) : Except ExecError Output :=
  match commands.output s cmd with
  | none => .error (.couldNotExecute cmd)
  | some output => if output.success then .ok output else .error (.unsuccessful cmd)

/-- Bytes as text. -/
def fromUtf8 (bytes : ByteArray) : Except ExecError String :=
  match String.fromUTF8? bytes with
  | some text => .ok text
  | none => .error .notUtf8

/-- What running a command for its output gives. -/
def runOutput (s : Setup T) (cmd : ProcessBuilder) : Except ExecError (String × String) := do
  let output ← commands.execWithOutput s cmd
  let stdout ← fromUtf8 output.stdout
  let stderr ← fromUtf8 output.stderr
  return (stdout, stderr)

/-- What running a command for its exit status gives. -/
def runSuccess (s : Setup T) (cmd : ProcessBuilder) : Except ExecError Bool :=
  match commands.output s cmd with
  | none => .error (.couldNotExecute cmd)
  | some output => .ok output.success

/-- Commands are run to see what they print, and whether they succeed. -/
def runner : Runner T ExecError (String × String) Bool where
  output := commands.runOutput
  success := commands.runSuccess

end Commands

end Cargo.Util
