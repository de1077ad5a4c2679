import Sccache.Io
import Sccache.Msvc.Arguments

set_option autoImplicit false

/-! # Compiling the preprocessed source

`compile` writes the preprocessor's output to a temporary file named like the input and
compiles it. Some MSVC releases reject preprocessed source they accept unexpanded, so when
that compile fails it compiles the original input once more and returns that result. Before
anything runs it decides whether the result may be cached: not when a `.pdb` named by the
arguments already exists, since another compile may share it.

`run_compile` executes `compile` symbolically: from any state whose next file operation
succeeds, which processes it starts, in which order and with which arguments, and what it
returns. `FailsWith` (in `Io`) tracks that once its lookups have succeeded, `compile` can
fail only with an I/O error, and `LeavesFs` that, whichever way it ends, it leaves no file
behind (`compile_restores_fs`).
-/

namespace Sccache

/-- `Cacheable`: whether a compile's result may be stored in the cache. -/
inductive Cacheable where
  | yes
  | no
  deriving DecidableEq, Repr

/-- `compile`. -/
def compile (host : Host) (env : Env) (executable : String) (preprocessorOutput : List UInt8)
    (parsedArgs : ParsedArguments) (cwd : String) : Io (Cacheable × Output) := do
  let outFile ← (match parsedArgs.outputs.get "obj" with
    | some obj => pure obj
    | none => throw (.msg "Missing object file output") : Io String)
  let cacheable ← (match parsedArgs.outputs.get "pdb" with
    | none => pure Cacheable.yes
    | some pdb => do
      let e ← pathExists (Path.join host cwd pdb)
      pure (if e then Cacheable.no else Cacheable.yes) : Io Cacheable)
  let filename ← (match Path.fileName host parsedArgs.input with
    | some name => pure name
    | none => throw (.msg "missing input filename") : Io String)
  let (tempdir, input) ← writeTempFile host env filename preprocessorOutput
  let output ← withTempDir host tempdir (runInputOutput env
    ⟨executable, ["-c", "-Fo" ++ outFile] ++ parsedArgs.commonArgs ++ [input], some cwd⟩)
  if output.status.success then
    pure (cacheable, output)
  else do
    let output ← runInputOutput env
      ⟨executable, ["-c", parsedArgs.input, "-Fo" ++ outFile] ++ parsedArgs.commonArgs, some cwd⟩
    pure (cacheable, output)

/-! ## What a compile runs -/

/-- The cacheability `compile` computes, read off the state it starts from. -/
def cacheableIn (host : Host) (w : World) (parsedArgs : ParsedArguments)
    (cwd : String) : Cacheable :=
  match parsedArgs.outputs.get "pdb" with
  | none => .yes
  | some pdb => if w.pathExists (Path.join host cwd pdb) then .no else .yes

theorem cacheableIn_eq_no_iff {host : Host} (w : World) (parsedArgs : ParsedArguments)
    (cwd : String) : cacheableIn host w parsedArgs cwd = .no ↔
      ∃ pdb, parsedArgs.outputs.get "pdb" = some pdb ∧ w.pathExists (Path.join host cwd pdb) = true := by
  unfold cacheableIn
  split <;> rename_i h <;> simp [h]

/-- The end of `compile`: the primary compile, in its temporary directory, and the fallback
compile when the primary one fails. -/
theorem run_primary_fallback {host : Host} (env : Env) (tag : Cacheable) (dir : String)
    (primary fallback : Command) (v : World) :
    (withTempDir host dir (runInputOutput env primary) >>= fun output =>
      if output.status.success then pure (tag, output)
      else do
        let output ← runInputOutput env fallback
        pure (tag, output)).run v =
      match env.respond v.spawned.length v.fs primary with
      | .error e => .error (.io e) ((v.spawn primary).removeTree host dir)
      | .ok o =>
        if o.status.success then .ok (tag, o) ((v.spawn primary).removeTree host dir)
        else
          match env.respond (v.spawned.length + 1) ((v.spawn primary).removeTree host dir).fs
              fallback with
          | .ok o' => .ok (tag, o') (((v.spawn primary).removeTree host dir).spawn fallback)
          | .error e => .error (.io e) (((v.spawn primary).removeTree host dir).spawn fallback) := by
  simp only [run_bind, run_withTempDir, run_runInputOutput]
  cases env.respond v.spawned.length v.fs primary with
  | error e => rfl
  | ok o =>
    by_cases hs : o.status.success = true
    · simp [hs]
    · simp only [hs, Bool.false_eq_true, if_false, run_bind, run_runInputOutput, World.removeTree_spawned,
        World.spawn_spawned, List.length_append, List.length_singleton]
      cases env.respond (v.spawned.length + 1) ((v.spawn primary).removeTree host dir).fs fallback <;> rfl

/-- `compile`, once its lookups have succeeded and its temporary file is written: the
primary compile of the temporary file, and the fallback compile of the input only when the
primary one fails. The temporary directory is gone before the fallback runs. -/
theorem run_compile {host : Host} (env : Env) (executable : String) (content : List UInt8)
    (p : ParsedArguments) (cwd obj name : String) {w : World}
    (hobj : p.outputs.get "obj" = some obj) (hname : Path.fileName host p.input = some name)
    (hw : env.fault w.fileOps = none) :
    let dir := env.tempDir w.tempDirs
    let w₁ : World := (({ w with tempDirs := w.tempDirs + 1 } : World).tick.put dir .dir).put
      (Path.join host dir name) (.file content)
    let primary : Command :=
      ⟨executable, ["-c", "-Fo" ++ obj] ++ p.commonArgs ++ [Path.join host dir name], some cwd⟩
    let fallback : Command := ⟨executable, ["-c", p.input, "-Fo" ++ obj] ++ p.commonArgs, some cwd⟩
    (compile host env executable content p cwd).run w =
      match env.respond w.spawned.length w₁.fs primary with
      | .error e => .error (.io e) ((w₁.spawn primary).removeTree host dir)
      | .ok o =>
        if o.status.success then .ok (cacheableIn host w p cwd, o) ((w₁.spawn primary).removeTree host dir)
        else
          match env.respond (w.spawned.length + 1) ((w₁.spawn primary).removeTree host dir).fs
              fallback with
          | .ok o' => .ok (cacheableIn host w p cwd, o') (((w₁.spawn primary).removeTree host dir).spawn fallback)
          | .error e => .error (.io e) (((w₁.spawn primary).removeTree host dir).spawn fallback) := by
  intro dir w₁ primary fallback
  have hpdb : (match p.outputs.get "pdb" with
      | none => pure Cacheable.yes
      | some pdb => do
        let e ← pathExists (Path.join host cwd pdb)
        pure (if e then Cacheable.no else Cacheable.yes) : Io Cacheable).run w =
      .ok (cacheableIn host w p cwd) w := by
    unfold cacheableIn; split <;> simp
  simp only [compile, hobj, hname, pure_bind]
  rw [run_bind, hpdb]
  dsimp only
  rw [run_bind, run_writeTempFile_of_fault _ _ _ hw]
  exact run_primary_fallback env _ dir primary fallback w₁

/-- Whichever run's output `compile` returns, and whether or not the primary compile
succeeds, it returns `Cacheable::No` exactly when the `.pdb` output exists where it is
going to be written, and the primary compile reads the preprocessed source from a file
named like the input. -/
theorem compile_cacheable {host : Host} (env : Env) (executable : String) (content : List UInt8)
    (p : ParsedArguments) (cwd obj name : String) (w : World)
    (hobj : p.outputs.get "obj" = some obj) (hname : Path.fileName host p.input = some name)
    (hw : env.fault w.fileOps = none) :
    ∃ tag : Cacheable, (tag = .no ↔ ∃ pdb, p.outputs.get "pdb" = some pdb ∧
        w.pathExists (Path.join host cwd pdb) = true) ∧
      let dir := env.tempDir w.tempDirs
      let w₁ : World := (({ w with tempDirs := w.tempDirs + 1 } : World).tick.put dir .dir).put
        (Path.join host dir name) (.file content)
      let primary : Command :=
        ⟨executable, ["-c", "-Fo" ++ obj] ++ p.commonArgs ++ [Path.join host dir name], some cwd⟩
      let fallback : Command :=
        ⟨executable, ["-c", p.input, "-Fo" ++ obj] ++ p.commonArgs, some cwd⟩
      w₁.fs (Path.join host dir name) = some (.file content) ∧
      (compile host env executable content p cwd).run w =
        match env.respond w.spawned.length w₁.fs primary with
        | .error e => .error (.io e) ((w₁.spawn primary).removeTree host dir)
        | .ok o =>
          if o.status.success then .ok (tag, o) ((w₁.spawn primary).removeTree host dir)
          else
            match env.respond (w.spawned.length + 1) ((w₁.spawn primary).removeTree host dir).fs
                fallback with
            | .ok o' => .ok (tag, o') (((w₁.spawn primary).removeTree host dir).spawn fallback)
            | .error e => .error (.io e) (((w₁.spawn primary).removeTree host dir).spawn fallback) :=
  ⟨cacheableIn host w p cwd, cacheableIn_eq_no_iff w p cwd, World.put_fs_self _ _ _,
    run_compile env executable content p cwd obj name hobj hname hw⟩

/-- Once its lookups of the object file and of the input's file name succeed, `compile`
can fail only with an I/O error. -/
theorem failsWith_isIo_compile {host : Host} (env : Env) (executable : String)
    (content : List UInt8)
    (p : ParsedArguments) (cwd obj name : String) (hobj : p.outputs.get "obj" = some obj)
    (hname : Path.fileName host p.input = some name) :
    FailsWith (·.isIo = true) (compile host env executable content p cwd) := by
  have hio : ∀ what, (Error.io what).isIo = true := fun _ => rfl
  simp only [compile, hobj, hname, pure_bind]
  refine FailsWith.bind ?_ fun _ => (failsWith_writeTempFile hio _ _ _ _).bind fun _ =>
    ((failsWith_runInputOutput hio _ _).withTempDir _ _).bind fun _ => ?_
  · split
    · exact failsWith_pure _
    · exact (failsWith_pathExists _).bind fun _ => failsWith_pure _
  · split
    · exact failsWith_pure _
    · exact (failsWith_runInputOutput hio _ _).bind fun _ => failsWith_pure _

theorem compile_cacheable_pdb :
    let env : Env := ⟨fun _ _ _ => .ok ⟨⟨0⟩, [], []⟩, fun _ => "/tmp/0", fun _ => none⟩
    let p : ParsedArguments := ⟨"foo.c", "c", none, ⟨fun k => if k = "obj" then some "foo.obj"
      else if k = "pdb" then some "foo.pdb" else none⟩, [], []⟩
    let w : World := ⟨fun _ => none, [], 0, 0⟩
    p.outputs.get "obj" = some "foo.obj" ∧ Path.fileName .unix p.input = some "foo.c" ∧
    env.fault w.fileOps = none ∧
    ∃ tag : Cacheable, (tag = .no ↔ ∃ pdb, p.outputs.get "pdb" = some pdb ∧
        w.pathExists (Path.join .unix "/src" pdb) = true) ∧
      let dir := env.tempDir w.tempDirs
      let w₁ : World := (({ w with tempDirs := w.tempDirs + 1 } : World).tick.put dir .dir).put
        (Path.join .unix dir "foo.c") (.file [])
      let primary : Command :=
        ⟨"cl.exe", ["-c", "-Fo" ++ "foo.obj"] ++ p.commonArgs ++ [Path.join .unix dir "foo.c"], some "/src"⟩
      let fallback : Command :=
        ⟨"cl.exe", ["-c", p.input, "-Fo" ++ "foo.obj"] ++ p.commonArgs, some "/src"⟩
      w₁.fs (Path.join .unix dir "foo.c") = some (.file []) ∧
      (compile .unix env "cl.exe" [] p "/src").run w =
        match env.respond w.spawned.length w₁.fs primary with
        | .error e => .error (.io e) ((w₁.spawn primary).removeTree .unix dir)
        | .ok o =>
          if o.status.success then .ok (tag, o) ((w₁.spawn primary).removeTree .unix dir)
          else
            match env.respond (w.spawned.length + 1) ((w₁.spawn primary).removeTree .unix dir).fs
                fallback with
            | .ok o' => .ok (tag, o') (((w₁.spawn primary).removeTree .unix dir).spawn fallback)
            | .error e => .error (.io e) (((w₁.spawn primary).removeTree .unix dir).spawn fallback) := by
  intro env p w
  exact ⟨rfl, by decide, rfl,
    compile_cacheable env "cl.exe" [] p "/src" "foo.obj" "foo.c" w rfl (by decide) rfl⟩

/-! ## What a compile leaves on disk -/

/-- Whatever happens (a missing output, a failed write of the temporary file, a compiler that
cannot be started, a fallback compile), `compile` leaves the file system as it found it when
the temporary directory it is handed is fresh and the input's file name has no prefix: the
preprocessed source and its directory are gone before `compile` returns. A file name never
has a prefix on Unix; on Windows `x\c:y.c` has the file name `c:y.c`, which `join` does not
put in the directory. -/
theorem compile_restores_fs {host : Host} (env : Env) (executable : String) (content : List UInt8)
    (p : ParsedArguments) (cwd : String) (w : World) (hw : env.FreshFrom host w)
    (hpre : ∀ name, Path.fileName host p.input = some name → host.prefixLen name.data = 0) :
    (endState ((compile host env executable content p cwd).run w)).fs = w.fs := by
  refine (?_ : LeavesFs host env _) w hw |>.1
  unfold compile
  refine LeavesFs.bind ?_ fun obj => LeavesFs.bind ?_ fun c => ?_
  · split
    · exact leavesFs_pure _
    · exact leavesFs_throw _
  · split
    · exact leavesFs_pure _
    · exact (leavesFs_pathExists _).bind fun _ => leavesFs_pure _
  cases hname : Path.fileName host p.input with
  | none => exact fun w _ => ⟨rfl, le_rfl⟩
  | some name =>
    simp only [pure_bind]
    refine @leavesFs_tempFile_bind host env _ name (Path.isSep_of_mem_fileName hname)
      (hpre name hname) content
      (fun input => ⟨executable, ["-c", "-Fo" ++ obj] ++ p.commonArgs ++ [input], some cwd⟩) _
      fun o => ?_
    split
    · exact leavesFs_pure _
    · exact (leavesFs_runInputOutput _).bind fun _ => leavesFs_pure _

theorem compile_restores_fs_fallback :
    let env : Env := ⟨fun _ _ _ => .ok ⟨⟨1⟩, [], []⟩, fun _ => "C:\\tmp\\0", fun _ => none⟩
    let p : ParsedArguments := ⟨"src\\foo.c", "c", none,
      ⟨fun k => if k = "obj" then some "foo.obj" else none⟩, [], []⟩
    let w : World := ⟨fun _ => none, [], 0, 0⟩
    env.FreshFrom .windows w ∧
      (∀ name, Path.fileName .windows p.input = some name → Host.windows.prefixLen name.data = 0) ∧
      (endState ((compile .windows env "cl.exe" [] p "C:\\src").run w)).fs = w.fs := by
  intro env p w
  have hw : env.FreshFrom .windows w :=
    fun _ _ => ⟨(by decide : Path.needSep .windows "C:\\tmp\\0" = true), fun _ _ => rfl⟩
  have hpre : ∀ name, Path.fileName .windows p.input = some name →
      Host.windows.prefixLen name.data = 0 := fun name h => by
    cases (by decide : Path.fileName .windows p.input = some "foo.c").symm.trans h
    rfl
  exact ⟨hw, hpre, compile_restores_fs env "cl.exe" [] p "C:\\src" w hw hpre⟩

/-- Without the hypothesis on the file name: on Windows the input `x\c:y.c` has the file name
`c:y.c`, the temporary source is written to `c:y.c` on the drive `c:`, and it stays there. -/
example :
    let env : Env := ⟨fun _ _ _ => .ok ⟨⟨0⟩, [], []⟩, fun _ => "C:\\tmp\\0", fun _ => none⟩
    let p : ParsedArguments := ⟨"x\\c:y.c", "c", none,
      ⟨fun k => if k = "obj" then some "y.obj" else none⟩, [], []⟩
    (endState ((compile .windows env "cl.exe" [] p "C:\\src").run ⟨fun _ => none, [], 0, 0⟩)).fs
      "c:y.c" = some (.file []) := by decide

end Sccache
