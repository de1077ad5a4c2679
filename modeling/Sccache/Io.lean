import Sccache.Path

set_option autoImplicit false

/-! # Processes, files and the I/O of the pipeline

The MSVC functions reach the outside world through a few effects: starting a compiler
process and collecting its output, testing whether a path exists, creating and writing
files, and removing a temporary directory. They are modelled as state passing in
`EStateM`. The state `World` holds the file system, the log of the processes started and
two counters; an `Env` fixes how the outside world answers: the output of the `n`-th
process (given the file system it sees), the name of the `n`-th temporary directory, and
which file operations fail and how many bytes a failing write gets to the file first. Any
answers are allowed, so a statement over every `Env` is a statement over every compiler and
every disk. An error keeps the state reached so far: files already written stay written,
processes already started stay started.

Three judgements compose along `bind` and carry the results from one step to a whole
function: `AppendsTo` (what a run appends to one file when no write fails), `FailsWith`
(which errors a run can end with) and `LeavesFs` (that a run leaves the file system as it
found it), with `AppendsPrefix` as the counterpart of `AppendsTo` when writes may fail.
-/

namespace Sccache

/-- An exit status; `ExitStatus::success` holds for code `0`. -/
structure ExitStatus where
  code : Int
  deriving DecidableEq, Repr

/-- `ExitStatus::success`. -/
def ExitStatus.success (e : ExitStatus) : Bool := e.code == 0

/-- `process::Output`. -/
structure Output where
  status : ExitStatus
  stdout : List UInt8
  stderr : List UInt8
  deriving DecidableEq, Repr

/-- A process as the command creator builds it: executable, arguments, `current_dir`. -/
structure Command where
  exe : String
  args : List String
  cwd : Option String
  deriving DecidableEq, Repr

/-- The errors of the pipeline: a message (`bail!`, `"...".into()`), an I/O error, text
the code page cannot decode, and the panic of a string slice off a character boundary. -/
inductive Error where
  | msg (text : String)
  | io (what : String)
  | decode
  | panic
  deriving DecidableEq, Repr

/-- What a path names on disk. -/
inductive Node where
  | dir
  | file (bytes : List UInt8)
  deriving DecidableEq, Repr

/-- The state the pipeline acts on. -/
structure World where
  /-- What each path names, if anything. -/
  fs : String → Option Node
  /-- The processes started so far, oldest first. -/
  spawned : List Command
  /-- The number of temporary directories created so far. -/
  tempDirs : Nat
  /-- The number of file operations done so far. -/
  fileOps : Nat

/-- A failed file operation: its error, and how many bytes of a write reach the file before
it fails. `write!` on an unbuffered `File` writes each piece of its format with `write_all`,
which can stop in the middle of a piece. -/
structure Fault where
  what : String
  written : Nat
  deriving DecidableEq, Repr

/-- How the outside world answers. -/
structure Env where
  /-- The result of starting the `n`-th process on a file system: its output, or the
  error of a failed spawn. -/
  respond : Nat → (String → Option Node) → Command → Except String Output
  /-- The path of the `n`-th temporary directory. -/
  tempDir : Nat → String
  /-- How the `n`-th file operation fails, if it does. -/
  fault : Nat → Option Fault

/-- Computations of the pipeline. -/
abbrev Io := EStateM Error World

/-- A host's native code page, as `local_encoding` decodes text with it. -/
structure CodePage where
  decode : List UInt8 → Option String

/-- A single-byte code page: each byte is one character, read from a table. -/
def CodePage.singleByte (table : UInt8 → Option Char) : CodePage :=
  ⟨fun bytes => (bytes.mapM table).map String.mk⟩

/-- `from_local_codepage`: `Encoding::OEM.to_string`, which fails on bytes the code page
cannot decode. -/
def fromLocalCodepage (cp : CodePage) (bytes : List UInt8) : Except Error String :=
  match cp.decode bytes with
  | some s => .ok s
  | none => .error .decode

theorem fromLocalCodepage_eq_ok_iff (cp : CodePage) (bytes : List UInt8) (s : String) :
    fromLocalCodepage cp bytes = .ok s ↔ cp.decode bytes = some s := by
  unfold fromLocalCodepage
  split <;> simp_all

/-- The only error of `from_local_codepage` is undecodable text. -/
theorem fromLocalCodepage_eq_error {cp : CodePage} {bytes : List UInt8} {e : Error}
    (h : fromLocalCodepage cp bytes = .error e) : e = .decode := by
  unfold fromLocalCodepage at h
  split at h <;> cases h
  rfl

namespace World

/-- `Path::exists`. -/
def pathExists (w : World) (p : String) : Bool := (w.fs p).isSome

/-- The bytes of the file at `p`, empty when there is none. -/
def contents (w : World) (p : String) : List UInt8 :=
  match w.fs p with
  | some (.file bytes) => bytes
  | _ => []

/-- `p` now names `n`. -/
def put (w : World) (p : String) (n : Node) : World :=
  { w with fs := fun q => if q = p then some n else w.fs q }

/-- `bytes` appended to the file at `p`. -/
def append (w : World) (p : String) (bytes : List UInt8) : World :=
  w.put p (.file (w.contents p ++ bytes))

/-- The directory `dir` and everything below it, by the host's separators, removed. -/
def removeTree (w : World) (host : Host) (dir : String) : World :=
  { w with fs := fun q => if q = dir || Path.below host dir q then none else w.fs q }

/-- `cmd` appended to the log of processes started. -/
def spawn (w : World) (cmd : Command) : World := { w with spawned := w.spawned ++ [cmd] }

/-- One more file operation counted. -/
def tick (w : World) : World := { w with fileOps := w.fileOps + 1 }

@[simp] theorem put_fs_self (w : World) (p : String) (n : Node) : (w.put p n).fs p = some n := by
  simp [put]

@[simp] theorem put_spawned (w : World) (p : String) (n : Node) :
    (w.put p n).spawned = w.spawned := rfl

@[simp] theorem put_fileOps (w : World) (p : String) (n : Node) :
    (w.put p n).fileOps = w.fileOps := rfl

@[simp] theorem tick_fs (w : World) : w.tick.fs = w.fs := rfl

@[simp] theorem tick_spawned (w : World) : w.tick.spawned = w.spawned := rfl

@[simp] theorem tick_fileOps (w : World) : w.tick.fileOps = w.fileOps + 1 := rfl

@[simp] theorem spawn_spawned (w : World) (cmd : Command) :
    (w.spawn cmd).spawned = w.spawned ++ [cmd] := rfl

@[simp] theorem spawn_fs (w : World) (cmd : Command) : (w.spawn cmd).fs = w.fs := rfl

@[simp] theorem spawn_fileOps (w : World) (cmd : Command) :
    (w.spawn cmd).fileOps = w.fileOps := rfl

@[simp] theorem removeTree_spawned (w : World) (host : Host) (dir : String) :
    (w.removeTree host dir).spawned = w.spawned := rfl

@[simp] theorem removeTree_fileOps (w : World) (host : Host) (dir : String) :
    (w.removeTree host dir).fileOps = w.fileOps := rfl

@[simp] theorem contents_put_file (w : World) (p : String) (bytes : List UInt8) :
    (w.put p (.file bytes)).contents p = bytes := by
  simp [contents]

@[simp] theorem contents_append_self (w : World) (p : String) (bytes : List UInt8) :
    (w.append p bytes).contents p = w.contents p ++ bytes := by
  simp [append]

theorem append_fs_of_ne (w : World) {p q : String} (bytes : List UInt8) (h : q ≠ p) :
    (w.append p bytes).fs q = w.fs q :=
  if_neg h

@[simp] theorem contents_tick (w : World) : w.tick.contents = w.contents := rfl

@[simp] theorem contents_spawn (w : World) (cmd : Command) : (w.spawn cmd).contents = w.contents :=
  rfl

end World

/-! ## Effects -/

/-- A result of the pure part of the code, as a computation. -/
def liftExcept {α : Type} : Except Error α → Io α
  | .ok a => pure a
  | .error e => throw e

/-- `Path::exists`, read off the current file system. -/
def pathExists (p : String) : Io Bool := fun w => .ok (w.pathExists p) w

/-- `Path::exists` as a predicate, read off the current file system: for a scan that tests
many paths and changes nothing on disk. -/
def existsOnDisk : Io (String → Bool) := fun w => .ok w.pathExists w

/-- One file operation, `f` on success; the environment decides whether it fails. -/
def fileOp (env : Env) (f : World → World) : Io Unit := fun w =>
  match env.fault w.fileOps with
  | some f => .error (.io f.what) w.tick
  | none => .ok () (f w.tick)

/-- `File::create`: an empty file at `p`. -/
def fileCreate (env : Env) (p : String) : Io Unit := fileOp env fun w => w.put p (.file [])

/-- `write!` on the file at `p`: the UTF-8 bytes of `s` appended. A write that fails has
appended as many of them as the environment lets through first. -/
def fileWrite (env : Env) (p s : String) : Io Unit := fun w =>
  match env.fault w.fileOps with
  | some f => .error (.io f.what) (w.tick.append p ((utf8Encode s).take f.written))
  | none => .ok () (w.tick.append p (utf8Encode s))

/-- Modelled from the spec: `write_temp_file` (in `compiler.rs`, not under src/) writes
`contents` to a file named `name` in a fresh temporary directory and returns the
directory and the file's path. -/
def writeTempFile (host : Host) (env : Env) (name : String) (contents : List UInt8) :
    Io (String × String) := fun w =>
  let dir := env.tempDir w.tempDirs
  (fileOp env fun w => (w.put dir .dir).put (Path.join host dir name) (.file contents)
    ).map (fun _ => (dir, Path.join host dir name)) { w with tempDirs := w.tempDirs + 1 }

/-- Runs `x`, then drops the `TempDir` at `dir`, whatever `x` returned: the directory is
owned by the closure that runs `x`. -/
def withTempDir {α : Type} (host : Host) (dir : String) (x : Io α) : Io α := fun w =>
  match x w with
  | .ok a w' => .ok a (w'.removeTree host dir)
  | .error e w' => .error e (w'.removeTree host dir)

/-- Modelled from the spec: `run_input_output` (in `compiler.rs`, not under src/) starts
the command, waits for it and returns its exit status and captured output; it fails only
when the process cannot be started. -/
def runInputOutput (env : Env) (cmd : Command) : Io Output := fun w =>
  match env.respond w.spawned.length w.fs cmd with
  | .ok o => .ok o (w.spawn cmd)
  | .error e => .error (.io e) (w.spawn cmd)

/-! ## Running the effects -/

/-- Running a computation applies it to the state. -/
theorem run_apply {α : Type} (x : Io α) (w : World) : x.run w = x w := rfl

@[simp] theorem run_bind {α β : Type} (x : Io α) (f : α → Io β) (w : World) :
    (x >>= f).run w = match x.run w with
      | .ok a w' => (f a).run w'
      | .error e w' => .error e w' := by
  simp only [run_apply, bind, EStateM.bind]
  cases x w <;> rfl

@[simp] theorem run_map {α β : Type} (f : α → β) (x : Io α) (w : World) :
    (f <$> x).run w = match x.run w with
      | .ok a w' => .ok (f a) w'
      | .error e w' => .error e w' := by
  simp only [run_apply, Functor.map, EStateM.map]
  cases x w <;> rfl

@[simp] theorem run_pure {α : Type} (a : α) (w : World) : (pure a : Io α).run w = .ok a w := rfl

@[simp] theorem run_throw {α : Type} (e : Error) (w : World) :
    (throw e : Io α).run w = .error e w := rfl

@[simp] theorem run_liftExcept {α : Type} (x : Except Error α) (w : World) :
    (liftExcept x).run w = match x with
      | .ok a => .ok a w
      | .error e => .error e w := by
  cases x <;> rfl

@[simp] theorem run_pathExists (p : String) (w : World) :
    (pathExists p).run w = .ok (w.pathExists p) w := rfl

@[simp] theorem run_existsOnDisk (w : World) : existsOnDisk.run w = .ok w.pathExists w := rfl

theorem run_fileOp (env : Env) (f : World → World) (w : World) :
    (fileOp env f).run w = match env.fault w.fileOps with
      | some f => .error (.io f.what) w.tick
      | none => .ok () (f w.tick) := rfl

/-- A file operation the environment lets through. -/
theorem run_fileOp_of_fault {env : Env} (f : World → World) {w : World}
    (h : env.fault w.fileOps = none) : (fileOp env f).run w = .ok () (f w.tick) := by
  simp [run_fileOp, h]

/-- A temporary file the environment lets through: the `n`-th temporary directory, with
the file in it. -/
theorem run_writeTempFile_of_fault (host : Host) {env : Env} (name : String)
    (contents : List UInt8) {w : World} (h : env.fault w.fileOps = none) :
    (writeTempFile host env name contents).run w =
      let dir := env.tempDir w.tempDirs
      .ok (dir, Path.join host dir name)
        ((({ w with tempDirs := w.tempDirs + 1 } : World).tick.put dir .dir).put
          (Path.join host dir name) (.file contents)) := by
  simp [writeTempFile, run_apply, EStateM.map, fileOp, h]

theorem run_fileWrite (env : Env) (p s : String) (w : World) :
    (fileWrite env p s).run w = match env.fault w.fileOps with
      | some f => .error (.io f.what) (w.tick.append p ((utf8Encode s).take f.written))
      | none => .ok () (w.tick.append p (utf8Encode s)) := rfl

theorem run_fileCreate_of_fault {env : Env} (p : String) {w : World}
    (h : env.fault w.fileOps = none) : (fileCreate env p).run w = .ok () (w.tick.put p (.file [])) :=
  run_fileOp_of_fault _ h

theorem run_withTempDir {α : Type} (host : Host) (dir : String) (x : Io α) (w : World) :
    (withTempDir host dir x).run w = match x.run w with
      | .ok a w' => .ok a (w'.removeTree host dir)
      | .error e w' => .error e (w'.removeTree host dir) := rfl

theorem run_runInputOutput (env : Env) (cmd : Command) (w : World) :
    (runInputOutput env cmd).run w = match env.respond w.spawned.length w.fs cmd with
      | .ok o => .ok o (w.spawn cmd)
      | .error e => .error (.io e) (w.spawn cmd) := rfl

/-! ## Appending to one file

The dependency-file writer only appends to one file once it has created it. Under an
environment that lets every file operation through, `AppendsTo x path a bytes` says that
from any state `x` returns `a` and appends `bytes` to the file at `path`; the judgement
composes along `bind`, so a loop of writes is handled by induction over its list. -/

/-- No file operation fails. -/
def Env.Reliable (env : Env) : Prop := ∀ n, env.fault n = none

/-- From any state, `x` returns `a` and appends `bytes` to the file at `path`. -/
def AppendsTo {α : Type} (x : Io α) (path : String) (a : α) (bytes : List UInt8) : Prop :=
  ∀ w, ∃ w', x.run w = .ok a w' ∧ w'.contents path = w.contents path ++ bytes

theorem AppendsTo.pure {α : Type} (path : String) (a : α) : AppendsTo (pure a) path a [] :=
  fun w => ⟨w, rfl, by simp⟩

theorem AppendsTo.bind {α β : Type} {x : Io α} {f : α → Io β} {path : String} {a : α} {b : β}
    {bytes₁ bytes₂ : List UInt8} (hx : AppendsTo x path a bytes₁)
    (hf : AppendsTo (f a) path b bytes₂) : AppendsTo (x >>= f) path b (bytes₁ ++ bytes₂) := by
  intro w
  obtain ⟨w₁, h₁, c₁⟩ := hx w
  obtain ⟨w₂, h₂, c₂⟩ := hf w₁
  exact ⟨w₂, by simp [h₁, h₂], by simp [c₁, c₂]⟩

/-- `x; y` for an `x` that returns nothing. -/
theorem AppendsTo.seq {α : Type} {x : Io Unit} {y : Io α} {path : String} {a : α}
    {bytes₁ bytes₂ : List UInt8} (hx : AppendsTo x path () bytes₁)
    (hy : AppendsTo y path a bytes₂) : AppendsTo (x >>= fun _ => y) path a (bytes₁ ++ bytes₂) :=
  hx.bind hy

theorem appendsTo_fileWrite {env : Env} (h : env.Reliable) (path s : String) :
    AppendsTo (fileWrite env path s) path () (utf8Encode s) :=
  fun w => ⟨_, by rw [run_fileWrite, h], by simp⟩

/-! ## Which errors a computation can end with

`FailsWith P x` says that every error `x` ends with, from any state and under any
environment's answers, satisfies `P`. It composes along `bind`, so the errors a function can
report are read off the steps it runs; in particular a function built only from steps that
never panic never panics. -/

/-- Whether an error is an I/O error. -/
def Error.isIo : Error → Bool
  | .io _ => true
  | _ => false

/-- Every error `x` ends with, from any state, satisfies `P`. -/
def FailsWith {α : Type} (P : Error → Prop) (x : Io α) : Prop :=
  ∀ w e w', x.run w = .error e w' → P e

section FailsWith

variable {P : Error → Prop}

theorem FailsWith.bind {α β : Type} {x : Io α} {f : α → Io β} (hx : FailsWith P x)
    (hf : ∀ a, FailsWith P (f a)) : FailsWith P (x >>= f) := by
  intro w e w' h
  rw [run_bind] at h
  cases hr : x.run w with
  | ok a w₁ => rw [hr] at h; exact hf a _ _ _ h
  | error e₁ w₁ => rw [hr] at h; cases h; exact hx _ _ _ hr

theorem FailsWith.mono {α : Type} {Q : Error → Prop} {x : Io α} (hx : FailsWith P x)
    (h : ∀ e, P e → Q e) : FailsWith Q x :=
  fun w e w' hr => h e (hx w e w' hr)

theorem FailsWith.withTempDir {α : Type} {x : Io α} (host : Host) (dir : String)
    (hx : FailsWith P x) : FailsWith P (withTempDir host dir x) := by
  intro w e w' h
  rw [run_withTempDir] at h
  cases hr : x.run w with
  | ok a w₁ => rw [hr] at h; cases h
  | error e₁ w₁ => rw [hr] at h; cases h; exact hx _ _ _ hr

theorem failsWith_pure {α : Type} (a : α) : FailsWith P (pure a : Io α) :=
  fun _ _ _ h => nomatch h

theorem failsWith_throw {α : Type} {e : Error} (h : P e) : FailsWith P (throw e : Io α) :=
  fun _ _ _ hr => by cases hr; exact h

theorem failsWith_liftExcept {α : Type} {r : Except Error α} (h : ∀ e, r = .error e → P e) :
    FailsWith P (liftExcept r) := by
  cases r with
  | ok a => exact failsWith_pure a
  | error e => exact failsWith_throw (h e rfl)

theorem failsWith_pathExists (p : String) : FailsWith P (pathExists p) :=
  fun _ _ _ h => nomatch h

theorem failsWith_existsOnDisk : FailsWith P existsOnDisk :=
  fun _ _ _ h => nomatch h

variable (hio : ∀ what, P (.io what))

include hio

theorem failsWith_fileOp (env : Env) (f : World → World) : FailsWith P (fileOp env f) := by
  intro w e w' h
  rw [run_fileOp] at h
  split at h <;> cases h
  exact hio _

theorem failsWith_fileWrite (env : Env) (p s : String) : FailsWith P (fileWrite env p s) := by
  intro w e w' h
  rw [run_fileWrite] at h
  split at h <;> cases h
  exact hio _

theorem failsWith_writeTempFile (host : Host) (env : Env) (name : String)
    (contents : List UInt8) : FailsWith P (writeTempFile host env name contents) := by
  intro w e w' h
  cases hf : env.fault w.fileOps with
  | none => simp [writeTempFile, run_apply, EStateM.map, fileOp, hf] at h
  | some f =>
    simp only [writeTempFile, run_apply, EStateM.map, fileOp, hf, EStateM.Result.error.injEq] at h
    exact h.1 ▸ hio f.what

theorem failsWith_runInputOutput (env : Env) (cmd : Command) :
    FailsWith P (runInputOutput env cmd) := by
  intro w e w' h
  rw [run_runInputOutput] at h
  split at h <;> cases h
  exact hio _

end FailsWith

/-! ## What a run leaves on disk

`compile` and the detection each write a file to a temporary directory of their own and drop
the directory once the compiler has run on it. `LeavesFs host env x` says that `x`, from every
state whose coming temporary directories are fresh, ends with the file system it started
from, whether it returns or fails; like the other judgements it composes along `bind`. The
processes started are not modelled as writing files, so what it states is that the program's
own file operations leave nothing behind. -/

/-- The state a run ends in, whether it returns or fails. -/
def endState {α : Type} : EStateM.Result Error World α → World
  | .ok _ w => w
  | .error _ w => w

/-- The temporary directories the environment hands out from `w` on are fresh: each is a
path after which `PathBuf::push` puts a separator (it is not empty, has no final separator
and is no bare drive), and nothing exists at or below it. -/
def Env.FreshFrom (env : Env) (host : Host) (w : World) : Prop :=
  ∀ n, w.tempDirs ≤ n → Path.needSep host (env.tempDir n) = true ∧
    ∀ q, (q = env.tempDir n || Path.below host (env.tempDir n) q) = true → w.fs q = none

/-- From every state whose coming temporary directories are fresh, `x` ends, whether it
returns or fails, with the file system it started from, and hands out no directory twice. -/
def LeavesFs {α : Type} (host : Host) (env : Env) (x : Io α) : Prop :=
  ∀ w, env.FreshFrom host w →
    (endState (x.run w)).fs = w.fs ∧ w.tempDirs ≤ (endState (x.run w)).tempDirs

section LeavesFs

variable {host : Host} {env : Env}

theorem Env.FreshFrom.of_le {w w' : World} (h : env.FreshFrom host w) (hfs : w'.fs = w.fs)
    (hle : w.tempDirs ≤ w'.tempDirs) : env.FreshFrom host w' := by
  intro n hn
  rw [hfs]
  exact h n (hle.trans hn)

theorem LeavesFs.bind {α β : Type} {x : Io α} {f : α → Io β} (hx : LeavesFs host env x)
    (hf : ∀ a, LeavesFs host env (f a)) : LeavesFs host env (x >>= f) := by
  intro w hw
  have h₁ := hx w hw
  rw [run_bind]
  cases hr : x.run w with
  | ok a w₁ =>
    rw [hr] at h₁
    have h₂ := hf a w₁ (hw.of_le h₁.1 h₁.2)
    exact ⟨h₂.1.trans h₁.1, h₁.2.trans h₂.2⟩
  | error e w₁ => rwa [hr] at h₁

/-- A step that changes neither the file system nor the count of temporary directories. -/
theorem LeavesFs.of_keeps {α : Type} {x : Io α}
    (h : ∀ w, (endState (x.run w)).fs = w.fs ∧ (endState (x.run w)).tempDirs = w.tempDirs) :
    LeavesFs host env x :=
  fun w _ => ⟨(h w).1, (h w).2.ge⟩

theorem leavesFs_pure {α : Type} (a : α) : LeavesFs host env (pure a : Io α) :=
  .of_keeps fun _ => ⟨rfl, rfl⟩

theorem leavesFs_throw {α : Type} (e : Error) : LeavesFs host env (throw e : Io α) :=
  .of_keeps fun _ => ⟨rfl, rfl⟩

theorem leavesFs_liftExcept {α : Type} (r : Except Error α) : LeavesFs host env (liftExcept r) := by
  cases r
  exacts [leavesFs_throw _, leavesFs_pure _]

theorem leavesFs_pathExists (p : String) : LeavesFs host env (pathExists p) :=
  .of_keeps fun _ => ⟨rfl, rfl⟩

theorem leavesFs_existsOnDisk : LeavesFs host env existsOnDisk :=
  .of_keeps fun _ => ⟨rfl, rfl⟩

theorem endState_runInputOutput (cmd : Command) (w : World) :
    endState ((runInputOutput env cmd).run w) = w.spawn cmd := by
  rw [run_runInputOutput]
  split <;> rfl

theorem leavesFs_runInputOutput (cmd : Command) : LeavesFs host env (runInputOutput env cmd) :=
  .of_keeps fun w => by simp only [endState_runInputOutput]; exact ⟨rfl, rfl⟩

/-- Dropping a fresh directory after a file was written in it leaves the file system as it
was before the directory was made. -/
theorem World.removeTree_fs_of_tempFile {v w : World} {dir name : String}
    (hbelow : Path.below host dir (Path.join host dir name) = true) {contents : List UInt8}
    (hv : v.fs = ((w.put dir .dir).put (Path.join host dir name) (.file contents)).fs)
    (hfresh : ∀ q, (q = dir || Path.below host dir q) = true → w.fs q = none) :
    (v.removeTree host dir).fs = w.fs := by
  funext q
  simp only [World.removeTree, hv, World.put]
  by_cases hq : (q = dir || Path.below host dir q) = true
  · rw [if_pos hq, hfresh q hq]
  · have h₁ : q ≠ Path.join host dir name := by rintro rfl; simp [hbelow] at hq
    have h₂ : q ≠ dir := by rintro rfl; simp at hq
    rw [if_neg hq, if_neg h₁, if_neg h₂]

/-- A temporary file, and a process run on it after which its directory is dropped: the
file system ends as it was, whether the write failed, the process could not be started, or
neither, when the file's name has no separator and no prefix. -/
theorem leavesFs_tempFile (name : String) (hsep : ∀ c ∈ name.data, host.isSep c = false)
    (hpre : host.prefixLen name.data = 0) (contents : List UInt8) (cmd : String → Command) :
    LeavesFs host env (writeTempFile host env name contents >>= fun (dir, input) =>
      withTempDir host dir (runInputOutput env (cmd input))) := by
  intro w hw
  obtain ⟨hdir, hfresh⟩ := hw w.tempDirs le_rfl
  rw [run_bind]
  cases hf : env.fault w.fileOps with
  | some e =>
    simp only [writeTempFile, run_apply, EStateM.map, fileOp, hf]
    exact ⟨rfl, Nat.le_succ _⟩
  | none =>
    rw [run_writeTempFile_of_fault _ _ _ hf]
    dsimp only
    rw [run_withTempDir, run_runInputOutput]
    cases env.respond _ _ _ <;>
      exact ⟨World.removeTree_fs_of_tempFile (Path.below_join hdir hsep hpre) rfl hfresh,
        Nat.le_succ _⟩

/-- `leavesFs_tempFile` followed by the rest of a computation that leaves the disk alone. -/
theorem leavesFs_tempFile_bind {β : Type} (name : String)
    (hsep : ∀ c ∈ name.data, host.isSep c = false) (hpre : host.prefixLen name.data = 0)
    (contents : List UInt8) (cmd : String → Command) {k : Output → Io β}
    (hk : ∀ o, LeavesFs host env (k o)) :
    LeavesFs host env (writeTempFile host env name contents >>= fun (dir, input) =>
      withTempDir host dir (runInputOutput env (cmd input)) >>= k) := by
  have := (leavesFs_tempFile name hsep hpre contents cmd).bind hk
  rwa [bind_assoc] at this

end LeavesFs

/-! ## Appending when a write can fail

Under an environment whose file operations may fail, `AppendsPrefix x path a bytes` says that
from any state `x` changes no file but the one at `path` and appends to that one: all of
`bytes` when it returns `a`, a prefix of them when it fails. It is the counterpart of
`AppendsTo` for every environment, and composes along `bind` in the same way. -/

/-- From any state, `x` changes no file but the one at `path`, and appends to it: when it
returns, it returns `a` and has appended `bytes`; when it fails, it has appended a prefix of
`bytes`. -/
def AppendsPrefix {α : Type} (x : Io α) (path : String) (a : α) (bytes : List UInt8) : Prop :=
  ∀ w, (∀ q, q ≠ path → (endState (x.run w)).fs q = w.fs q) ∧
    match x.run w with
    | .ok a' w' => a' = a ∧ w'.contents path = w.contents path ++ bytes
    | .error _ w' => ∃ pre, pre <+: bytes ∧ w'.contents path = w.contents path ++ pre

section AppendsPrefix

variable {α β : Type} {path : String}

theorem AppendsPrefix.pure (a : α) : AppendsPrefix (pure a : Io α) path a [] :=
  fun _ => ⟨fun _ _ => rfl, rfl, (List.append_nil _).symm⟩

theorem appendsPrefix_throw (e : Error) (a : α) : AppendsPrefix (throw e : Io α) path a [] :=
  fun _ => ⟨fun _ _ => rfl, [], List.nil_prefix, (List.append_nil _).symm⟩

theorem AppendsPrefix.bind {x : Io α} {f : α → Io β} {a : α} {b : β}
    {bytes₁ bytes₂ : List UInt8} (hx : AppendsPrefix x path a bytes₁)
    (hf : AppendsPrefix (f a) path b bytes₂) :
    AppendsPrefix (x >>= f) path b (bytes₁ ++ bytes₂) := by
  intro w
  obtain ⟨fx, cx⟩ := hx w
  rw [run_bind]
  cases hr : x.run w with
  | error e w₁ =>
    rw [hr] at fx cx
    obtain ⟨pre, hp, hc⟩ := cx
    exact ⟨fx, pre, hp.trans (List.prefix_append _ _), hc⟩
  | ok a' w₁ =>
    rw [hr] at fx cx
    obtain ⟨rfl, hc⟩ := cx
    obtain ⟨ff, cf⟩ := hf w₁
    refine ⟨fun q hq => (ff q hq).trans (fx q hq), ?_⟩
    dsimp only
    cases hr' : (f a').run w₁ with
    | ok b' w₂ =>
      rw [hr'] at cf
      exact ⟨cf.1, by rw [cf.2, hc, List.append_assoc]⟩
    | error e w₂ =>
      rw [hr'] at cf
      obtain ⟨pre, hp, hc'⟩ := cf
      exact ⟨bytes₁ ++ pre, (List.prefix_append_right_inj _).2 hp,
        by rw [hc', hc, List.append_assoc]⟩

/-- `x; y` for an `x` that returns nothing. -/
theorem AppendsPrefix.seq {x : Io Unit} {y : Io α} {a : α} {bytes₁ bytes₂ : List UInt8}
    (hx : AppendsPrefix x path () bytes₁) (hy : AppendsPrefix y path a bytes₂) :
    AppendsPrefix (x >>= fun _ => y) path a (bytes₁ ++ bytes₂) :=
  hx.bind hy

theorem appendsPrefix_fileWrite (env : Env) (path s : String) :
    AppendsPrefix (fileWrite env path s) path () (utf8Encode s) := by
  intro w
  rw [run_fileWrite]
  cases env.fault w.fileOps with
  | some f =>
    exact ⟨fun q hq => World.append_fs_of_ne _ _ hq, (utf8Encode s).take f.written,
      List.take_prefix _ _, by simp⟩
  | none => exact ⟨fun q hq => World.append_fs_of_ne _ _ hq, rfl, by simp⟩

/-- Decoding appends nothing; when it fails, the value that is never returned is taken to be
the empty text. -/
theorem appendsPrefix_fromLocalCodepage (cp : CodePage) (bytes : List UInt8) :
    AppendsPrefix (liftExcept (fromLocalCodepage cp bytes)) path ((cp.decode bytes).getD "")
      [] := by
  unfold fromLocalCodepage
  split
  · next S h => simpa [h] using @AppendsPrefix.pure _ path S
  · exact appendsPrefix_throw _ _

/-- `File::create`, then appends: no file but the one at `path` changes, and that one is
untouched when the creation fails and otherwise holds a prefix of what is appended. -/
theorem fileCreate_seq_appends (env : Env) {x : Io α} {a : α} {bytes full : List UInt8}
    (hx : AppendsPrefix x path a bytes) (hfull : bytes <+: full) (w : World) :
    (∀ q, q ≠ path →
        (endState ((fileCreate env path >>= fun _ => x).run w)).fs q = w.fs q) ∧
      ((endState ((fileCreate env path >>= fun _ => x).run w)).fs path = w.fs path ∨
        (endState ((fileCreate env path >>= fun _ => x).run w)).contents path <+: full) := by
  rw [run_bind, fileCreate, run_fileOp]
  cases env.fault w.fileOps with
  | some e => exact ⟨fun _ _ => rfl, .inl rfl⟩
  | none =>
    obtain ⟨fx, cx⟩ := hx (w.tick.put path (.file []))
    refine ⟨fun q hq => (fx q hq).trans (if_neg hq), .inr (List.IsPrefix.trans ?_ hfull)⟩
    dsimp only
    cases hr : x.run (w.tick.put path (.file [])) with
    | ok a' w' =>
      rw [hr] at cx
      simp [endState, cx.2]
    | error e w' =>
      rw [hr] at cx
      obtain ⟨pre, hp, hc⟩ := cx
      simpa [endState, hc] using hp

end AppendsPrefix

end Sccache
