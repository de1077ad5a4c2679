import Mathlib.Data.List.Sort
import Sccache.Io
import Sccache.Msvc.Arguments

set_option autoImplicit false

/-! # Preprocessing and the dependency file

`preprocess` runs the compiler with `-E`. When the arguments name a dependency file
(`-deps`), it adds `-showIncludes`, so that the compiler reports each included file on its
error stream as a line starting with the include prefix found by
`detect_showincludes_prefix`. Those lines are taken out of the error stream and become a
Makefile rule `obj: input deps...` followed by an empty rule per dependency.

The loop over the error stream writes to the dependency file as it goes, and a write can
fail; `AppendsTo` (in `Io`) follows the bytes appended. The main result
`preprocess_depfile` gives the file's exact contents and the error stream returned, for any
output text and any path normaliser. The rules name the dependencies in the order first seen
and then sorted; `newDeps` is the set of dependencies as the loop builds it, and
`eraseDups_eq_newDeps` identifies it with `List.eraseDups`. Under any environment,
`preprocess` fails only with an I/O or a decoding error (`failsWith_preprocess`).
-/

namespace Sccache

/-! ## The model -/

/-- `normpath` off Windows: the path unchanged. (On Windows it asks the file system for
the final path name; `preprocess` takes the normaliser as a parameter.) -/
def normpath (path : String) : String := path

/-- `HashSet::insert` on the set's elements, kept in the order they were first inserted:
whether `dep` was new, and the set with it. -/
def setInsert (deps : List String) (dep : String) : Bool × List String :=
  if dep ∈ deps then (false, deps) else (true, deps ++ [dep])

/-- The loop of `preprocess` over the lines of the decoded error stream, with the set `deps`
of dependencies seen so far and the bytes `stderrBytes` of the lines kept. The dependency of
an include line is written to the file at `path` when it is new and has no space. -/
def scanIncludes (env : Env) (normpath : String → String) (path includesPrefix : String) :
    List String → List String → List UInt8 → Io (List String × List UInt8)
  | [], deps, stderrBytes => pure (deps, stderrBytes)
  | line :: rest, deps, stderrBytes =>
    if startsWith line includesPrefix then
      match sliceFrom line.data (len includesPrefix) with
      | none => throw .panic
      | some tail => do
        let dep := normpath ⟨trim tail⟩
        let (fresh, deps) := setInsert deps dep
        if fresh && !containsChar dep ' ' then fileWrite env path (dep ++ " ")
        scanIncludes env normpath path includesPrefix rest deps stderrBytes
    else
      scanIncludes env normpath path includesPrefix rest deps
        (stderrBytes ++ utf8Encode line ++ [10])

/-- The loop over the sorted dependencies: an empty rule for each one without a space. -/
def writeEmptyRules (env : Env) (path : String) : List String → Io Unit
  | [] => pure ()
  | dep :: rest => do
    if !containsChar dep ' ' then fileWrite env path (dep ++ ":\n")
    writeEmptyRules env path rest

/-- The dependency-file branch of `preprocess`, run on the preprocessor's output. -/
def writeDepfile (host : Host) (env : Env) (cp : CodePage) (normpath : String → String)
    (parsedArgs : ParsedArguments) (cwd includesPrefix objfile depfile : String)
    (output : Output) : Io Output := do
  let path := Path.join host cwd depfile
  fileCreate env path
  fileWrite env path (objfile ++ ": " ++ parsedArgs.input ++ " ")
  let stderr ← liftExcept (fromLocalCodepage cp output.stderr)
  let (deps, stderrBytes) ← scanIncludes env normpath path includesPrefix (lines stderr) [] []
  fileWrite env path "\n"
  fileWrite env path (parsedArgs.input ++ ":\n")
  writeEmptyRules env path (deps.mergeSort fun a b => decide (a ≤ b))
  pure { output with stderr := stderrBytes }

/-- `preprocess`: the compiler run with `-E` in `cwd`, and the dependency file written when
the arguments ask for one. -/
def preprocess (host : Host) (env : Env) (cp : CodePage) (normpath : String → String)
    (executable : String)
    (parsedArgs : ParsedArguments) (cwd includesPrefix : String) : Io Output := do
  let cmd : Command := ⟨executable, ["-E", parsedArgs.input, "-nologo"] ++
    parsedArgs.commonArgs ++ (if parsedArgs.depfile.isSome then ["-showIncludes"] else []),
    some cwd⟩
  let output ← runInputOutput env cmd
  match parsedArgs.outputs.get "obj", parsedArgs.depfile with
  | some objfile, some depfile =>
    writeDepfile host env cp normpath parsedArgs cwd includesPrefix objfile depfile output
  | _, _ => pure output

/-! ## The set of dependencies

The loop keeps the set as a list in the order of first insertion. `newDeps deps I` is what
inserting the paths `I` adds to `deps`. -/

/-- The paths of `I` not in `deps`, each once, in the order first named. -/
def newDeps (deps : List String) : List String → List String
  | [] => []
  | d :: I => if d ∈ deps then newDeps deps I else d :: newDeps (deps ++ [d]) I

/-- The dependencies named by the include lines among `ls`, repeats included. -/
def includedPaths (normpath : String → String) (includesPrefix : String) (ls : List String) :
    List String :=
  (ls.filter (startsWith · includesPrefix)).map fun l =>
    normpath ⟨trim (l.data.drop includesPrefix.data.length)⟩

/-- The loop of `List.eraseDups`, whose accumulator is reversed, adds `newDeps`. -/
theorem eraseDups_loop_eq (I r : List String) :
    List.eraseDups.loop I r = r.reverse ++ newDeps r.reverse I := by
  induction I generalizing r with
  | nil => simp [List.eraseDups.loop, newDeps]
  | cons d I ih =>
    by_cases hd : d ∈ r <;> simp [List.eraseDups.loop, newDeps, hd, ih]

theorem mem_of_mem_newDeps {deps I : List String} {d : String} (h : d ∈ newDeps deps I) :
    d ∈ I := by
  induction I generalizing deps with
  | nil => cases h
  | cons x I ih =>
    unfold newDeps at h
    split at h
    · exact List.mem_cons_of_mem _ (ih h)
    · rcases List.mem_cons.1 h with rfl | h
      · exact List.mem_cons_self _ _
      · exact List.mem_cons_of_mem _ (ih h)

theorem eraseDups_eq_newDeps (I : List String) : I.eraseDups = newDeps [] I := by
  simpa using eraseDups_loop_eq I []

/-- Keeping the paths with a property commutes with taking the new ones. -/
theorem filter_newDeps (p : String → Bool) (deps I : List String) :
    (newDeps deps I).filter p = newDeps (deps.filter p) (I.filter p) := by
  induction I generalizing deps with
  | nil => rfl
  | cons d I ih =>
    by_cases hd : d ∈ deps <;> cases hp : p d <;> simp [newDeps, hd, hp, ih]

/-- Keeping the strings with a property commutes with sorting. -/
theorem filter_mergeSort (p : String → Bool) (l : List String) :
    (l.mergeSort fun a b => decide (a ≤ b)).filter p =
      (l.filter p).mergeSort fun a b => decide (a ≤ b) :=
  List.eq_of_perm_of_sorted (((List.mergeSort_perm l _).filter p).trans
      (List.mergeSort_perm _ _).symm)
    ((List.sorted_mergeSort' l).filter p) (List.sorted_mergeSort' _)

/-! ## The writes -/

section Writes

variable {env : Env} (h : env.Reliable) (normpath : String → String) (path includesPrefix : String)

include h

/-- The loop over the error stream returns the set grown by the new dependencies and the
kept lines' bytes, and appends the new dependencies without a space. -/
theorem appendsTo_scanIncludes (ls deps : List String) (bytes : List UInt8) :
    AppendsTo (scanIncludes env normpath path includesPrefix ls deps bytes) path
      (deps ++ newDeps deps (includedPaths normpath includesPrefix ls),
        bytes ++ (ls.filter fun l => !startsWith l includesPrefix).flatMap
          fun l => utf8Encode l ++ [10])
      (((newDeps deps (includedPaths normpath includesPrefix ls)).filter
          fun d => !containsChar d ' ').flatMap fun d => utf8Encode (d ++ " ")) := by
  induction ls generalizing deps bytes with
  | nil => simpa [includedPaths, newDeps] using AppendsTo.pure path (deps, bytes)
  | cons line rest ih =>
    by_cases hs : startsWith line includesPrefix = true
    · simp only [scanIncludes, hs, if_true, sliceFrom_of_startsWith hs, includedPaths,
        List.filter_cons, List.map_cons, Bool.not_true]
      set dep := normpath ⟨trim (line.data.drop includesPrefix.data.length)⟩
      by_cases hd : dep ∈ deps
      · have := (AppendsTo.pure path ()).seq (ih deps bytes)
        simpa [setInsert, hd, newDeps] using this
      · by_cases hc : containsChar dep ' ' = true
        · have := (AppendsTo.pure path ()).seq (ih (deps ++ [dep]) bytes)
          simpa [setInsert, hd, hc, newDeps] using this
        · have := (appendsTo_fileWrite h path (dep ++ " ")).seq (ih (deps ++ [dep]) bytes)
          simpa [setInsert, hd, hc, newDeps] using this
    · have := ih deps (bytes ++ utf8Encode line ++ [10])
      simp only [scanIncludes, hs, Bool.false_eq_true, if_false]
      convert this using 2 <;> simp [includedPaths, hs]

/-- The loop over the sorted dependencies appends an empty rule for each one without a
space. -/
theorem appendsTo_writeEmptyRules (deps : List String) :
    AppendsTo (writeEmptyRules env path deps) path ()
      ((deps.filter fun d => !containsChar d ' ').flatMap fun d => utf8Encode (d ++ ":\n")) := by
  induction deps with
  | nil => exact AppendsTo.pure path ()
  | cons d deps ih =>
    by_cases hc : containsChar d ' ' = true
    · simpa [writeEmptyRules, hc] using ih
    · have := (appendsTo_fileWrite h path (d ++ ":\n")).seq ih
      simpa [writeEmptyRules, hc] using this

/-- The dependency-file branch, when its writes succeed and the error stream decodes: the
returned error stream holds the lines that are not include lines, and the file holds the
rule with the new dependencies without a space, then their empty rules in sorted order. -/
theorem run_writeDepfile {host : Host} (cp : CodePage) (parsedArgs : ParsedArguments)
    (cwd objfile depfile : String) (output : Output) (S : String)
    (hS : cp.decode output.stderr = some S) (w : World) :
    ∃ w', (writeDepfile host env cp normpath parsedArgs cwd includesPrefix objfile depfile output).run w =
        .ok { output with stderr := ([] ++ ((lines S).filter fun l => !startsWith l includesPrefix).flatMap
          fun l => utf8Encode l ++ [10]) } w' ∧
      w'.contents (Path.join host cwd depfile) =
        utf8Encode (objfile ++ ": " ++ parsedArgs.input ++ " ") ++
        ((newDeps [] (includedPaths normpath includesPrefix (lines S))).filter
          fun d => !containsChar d ' ').flatMap (fun d => utf8Encode (d ++ " ")) ++
        utf8Encode "\n" ++ utf8Encode (parsedArgs.input ++ ":\n") ++
        (((newDeps [] (includedPaths normpath includesPrefix (lines S))).mergeSort
          fun a b => decide (a ≤ b)).filter fun d => !containsChar d ' ').flatMap
          fun d => utf8Encode (d ++ ":\n") := by
  have hdec : fromLocalCodepage cp output.stderr = .ok S := (fromLocalCodepage_eq_ok_iff _ _ _).2 hS
  let path := Path.join host cwd depfile
  obtain ⟨w₁, h₁, c₁⟩ := appendsTo_fileWrite h path (objfile ++ ": " ++ parsedArgs.input ++ " ")
    (w.tick.put path (.file []))
  obtain ⟨w₂, h₂, c₂⟩ := appendsTo_scanIncludes h normpath path includesPrefix (lines S) [] [] w₁
  obtain ⟨w₃, h₃, c₃⟩ := appendsTo_fileWrite h path "\n" w₂
  obtain ⟨w₄, h₄, c₄⟩ := appendsTo_fileWrite h path (parsedArgs.input ++ ":\n") w₃
  obtain ⟨w₅, h₅, c₅⟩ := appendsTo_writeEmptyRules h path
    (([] ++ newDeps [] (includedPaths normpath includesPrefix (lines S))).mergeSort
      fun a b => decide (a ≤ b)) w₄
  refine ⟨w₅, ?_, ?_⟩
  · simp only [writeDepfile, run_bind, run_fileCreate_of_fault _ (h _), h₁, run_liftExcept, hdec,
      h₂, h₃, h₄, h₅, run_pure]
  · simp only [c₅, c₄, c₃, c₂, c₁, World.contents_put_file, List.nil_append, List.append_assoc]

end Writes

/-! ## The errors of `preprocess`

Whatever the compiler prints and whichever file operations fail, `preprocess` fails only
with an I/O error or with an error stream the code page cannot decode. In particular the
slice `&line[includes_prefix.len()..]` never panics: a line that starts with the prefix has
a character boundary at the prefix's byte length (`sliceFrom_of_startsWith`). -/

section Errors

variable (env : Env) (normpath : String → String) (path includesPrefix : String)

theorem failsWith_scanIncludes (ls deps : List String) (bytes : List UInt8) :
    FailsWith (·.isIo = true) (scanIncludes env normpath path includesPrefix ls deps bytes) := by
  have hio : ∀ what, (Error.io what).isIo = true := fun _ => rfl
  induction ls generalizing deps bytes with
  | nil => exact failsWith_pure _
  | cons line rest ih =>
    by_cases hs : startsWith line includesPrefix = true
    · simp only [scanIncludes, hs, if_true, sliceFrom_of_startsWith hs]
      split
      · exact (failsWith_fileWrite hio _ _ _).bind fun _ => ih _ _
      · exact (failsWith_pure _).bind fun _ => ih _ _
    · simp only [scanIncludes, hs, Bool.false_eq_true, if_false]
      exact ih _ _

theorem failsWith_writeEmptyRules (deps : List String) :
    FailsWith (·.isIo = true) (writeEmptyRules env path deps) := by
  have hio : ∀ what, (Error.io what).isIo = true := fun _ => rfl
  induction deps with
  | nil => exact failsWith_pure _
  | cons dep rest ih =>
    simp only [writeEmptyRules]
    split
    · exact (failsWith_fileWrite hio _ _ _).bind fun _ => ih
    · exact (failsWith_pure _).bind fun _ => ih

/-- The dependency-file branch fails only with an I/O error or a decoding error. -/
theorem failsWith_writeDepfile {host : Host} (cp : CodePage) (parsedArgs : ParsedArguments)
    (cwd objfile depfile : String) (output : Output) :
    FailsWith (fun e => e.isIo = true ∨ e = .decode)
      (writeDepfile host env cp normpath parsedArgs cwd includesPrefix objfile depfile output) := by
  have hio : ∀ what, (Error.io what).isIo = true ∨ Error.io what = .decode := fun _ => .inl rfl
  have io : ∀ e : Error, e.isIo = true → e.isIo = true ∨ e = .decode := fun _ => .inl
  exact (failsWith_fileOp hio _ _).bind fun _ => (failsWith_fileWrite hio _ _ _).bind fun _ =>
    (failsWith_liftExcept fun _ he => .inr (fromLocalCodepage_eq_error he)).bind fun _ =>
    ((failsWith_scanIncludes _ _ _ _ _ _ _).mono io).bind fun _ =>
    (failsWith_fileWrite hio _ _ _).bind fun _ => (failsWith_fileWrite hio _ _ _).bind fun _ =>
    ((failsWith_writeEmptyRules _ _ _).mono io).bind fun _ => failsWith_pure _

/-- `preprocess` fails only with an I/O error or a decoding error of the error stream; it
never panics and reports no message of its own. -/
theorem failsWith_preprocess {host : Host} (cp : CodePage) (executable : String)
    (p : ParsedArguments) (cwd : String) :
    FailsWith (fun e => e.isIo = true ∨ e = .decode)
      (preprocess host env cp normpath executable p cwd includesPrefix) := by
  refine (failsWith_runInputOutput (fun _ => .inl rfl) _ _).bind fun output => ?_
  split
  · exact failsWith_writeDepfile env normpath includesPrefix cp p cwd _ _ output
  · exact failsWith_pure _

end Errors

/-! ## Without a dependency file -/

/-- Without a dependency file, `preprocess` runs the compiler with `-E` and without
`-showIncludes` and returns its output as it is, bytes of the error stream included; it
touches no file. -/
theorem run_preprocess_of_depfile_none {host : Host} (env : Env) (cp : CodePage)
    (normpath : String → String)
    (executable : String) (p : ParsedArguments) (cwd includesPrefix : String)
    (hdep : p.depfile = none) (w : World) :
    (preprocess host env cp normpath executable p cwd includesPrefix).run w =
      (runInputOutput env ⟨executable, ["-E", p.input, "-nologo"] ++ p.commonArgs, some cwd⟩).run w := by
  simp only [preprocess, hdep, Option.isSome_none, Bool.false_eq_true, if_false, List.append_nil,
    run_bind]
  cases (runInputOutput env _).run w <;> cases p.outputs.get "obj" <;> rfl

/-- With a dependency file requested and every write succeeding, `preprocess` runs the
compiler with `-E … -showIncludes`, returns its output with the include lines taken out of
the error stream (each kept line re-encoded in UTF-8 and ended with `\n`), and writes the
dependency file: the object file, the input and the dependencies `D` without a space, each
once in the order first reported, then an empty rule for the input and for each of `D` in
sorted order. -/
theorem preprocess_depfile {host : Host} (env : Env) (h : env.Reliable) (cp : CodePage)
    (normpath : String → String) (executable : String) (p : ParsedArguments)
    (cwd includesPrefix obj depfile : String) (hobj : p.outputs.get "obj" = some obj)
    (hdep : p.depfile = some depfile) (w : World) (o : Output) (S : String)
    (hrun : env.respond w.spawned.length w.fs
      ⟨executable, ["-E", p.input, "-nologo"] ++ p.commonArgs ++ ["-showIncludes"], some cwd⟩ =
        .ok o)
    (hS : cp.decode o.stderr = some S) :
    let D := ((includedPaths normpath includesPrefix (lines S)).filter
      fun d => !containsChar d ' ').eraseDups
    ∃ w', (preprocess host env cp normpath executable p cwd includesPrefix).run w =
        .ok { o with stderr := utf8Encode (String.join
          (((lines S).filter fun l => !startsWith l includesPrefix).map (· ++ "\n"))) } w' ∧
      w'.contents (Path.join host cwd depfile) = utf8Encode (obj ++ ": " ++ p.input ++ " " ++
        String.join (D.map (· ++ " ")) ++ "\n" ++ p.input ++ ":\n" ++
        String.join ((D.mergeSort fun a b => decide (a ≤ b)).map (· ++ ":\n"))) := by
  intro D
  obtain ⟨w', hw, hc⟩ := run_writeDepfile h normpath includesPrefix cp p cwd obj depfile o S hS
    (w.spawn ⟨executable, ["-E", p.input, "-nologo"] ++ p.commonArgs ++ ["-showIncludes"], some cwd⟩)
  have hD : (newDeps [] (includedPaths normpath includesPrefix (lines S))).filter
      (fun d => !containsChar d ' ') = D := by
    simp only [D, filter_newDeps, eraseDups_eq_newDeps, List.filter_nil]
  have hnl : utf8Encode "\n" = [10] := rfl
  refine ⟨w', ?_, ?_⟩
  · simp only [preprocess, hdep, Option.isSome_some, if_true, run_bind, run_runInputOutput]
    rw [hrun]
    simpa [hobj, hnl, List.flatMap_map] using hw
  · rw [hc, ← hD, filter_mergeSort, hD]
    simp [List.flatMap_map]

theorem preprocess_depfile_single_include :
    let env : Env := ⟨fun _ _ _ => .ok ⟨⟨0⟩, [], []⟩, fun _ => "/tmp/0", fun _ => none⟩
    let cp : CodePage := ⟨fun _ => some "Note: including file: foo.h\nwarning\n"⟩
    let p : ParsedArguments := ⟨"foo.c", "c", some "foo.d",
      ⟨fun k => if k = "obj" then some "foo.obj" else none⟩, [], []⟩
    let S := "Note: including file: foo.h\nwarning\n"
    let P := "Note: including file:"
    env.Reliable ∧ p.outputs.get "obj" = some "foo.obj" ∧ p.depfile = some "foo.d" ∧
    env.respond 0 (fun _ => none)
      ⟨"cl.exe", ["-E", p.input, "-nologo"] ++ p.commonArgs ++ ["-showIncludes"], some "/src"⟩ =
        .ok ⟨⟨0⟩, [], []⟩ ∧
    cp.decode [] = some S ∧
    let D := ((includedPaths normpath P (lines S)).filter fun d => !containsChar d ' ').eraseDups
    ∃ w', (preprocess .unix env cp normpath "cl.exe" p "/src" P).run ⟨fun _ => none, [], 0, 0⟩ =
        .ok { (⟨⟨0⟩, [], []⟩ : Output) with stderr := utf8Encode (String.join
          (((lines S).filter fun l => !startsWith l P).map (· ++ "\n"))) } w' ∧
      w'.contents (Path.join .unix "/src" "foo.d") = utf8Encode ("foo.obj" ++ ": " ++ p.input ++ " " ++
        String.join (D.map (· ++ " ")) ++ "\n" ++ p.input ++ ":\n" ++
        String.join ((D.mergeSort fun a b => decide (a ≤ b)).map (· ++ ":\n"))) :=
  ⟨fun _ => rfl, rfl, rfl, rfl, rfl,
    preprocess_depfile _ (fun _ => rfl) _ normpath "cl.exe" _ "/src" _ "foo.obj" "foo.d" rfl rfl
      ⟨fun _ => none, [], 0, 0⟩ ⟨⟨0⟩, [], []⟩ _ rfl rfl⟩

/-! ## The lines of the returned error stream -/

/-- With an object file and a dependency file, once the compiler has run, `preprocess` is
the dependency-file branch. -/
theorem run_preprocess_of_depfile_some {host : Host} (env : Env) (cp : CodePage)
    (normpath : String → String)
    (executable : String) (p : ParsedArguments) (cwd includesPrefix obj depfile : String)
    (hobj : p.outputs.get "obj" = some obj) (hdep : p.depfile = some depfile) (w : World)
    (o : Output)
    (hrun : env.respond w.spawned.length w.fs
      ⟨executable, ["-E", p.input, "-nologo"] ++ p.commonArgs ++ ["-showIncludes"], some cwd⟩ =
        .ok o) :
    (preprocess host env cp normpath executable p cwd includesPrefix).run w =
      (writeDepfile host env cp normpath p cwd includesPrefix obj depfile o).run
        (w.spawn ⟨executable, ["-E", p.input, "-nologo"] ++ p.commonArgs ++ ["-showIncludes"],
          some cwd⟩) := by
  simp only [preprocess, hdep, Option.isSome_some, if_true, run_bind, run_runInputOutput]
  rw [hrun]
  simp only [hobj]

/-- With a dependency file requested and every write succeeding, the error stream
`preprocess` returns is the UTF-8 encoding of a text whose lines are exactly the lines of the
compiler's decoded error stream that are not include lines, in order, when none of them ends
in `\r`: taking the include lines out merges or splits no diagnostic. -/
theorem preprocess_stderr_lines {host : Host} (env : Env) (h : env.Reliable) (cp : CodePage)
    (normpath : String → String) (executable : String) (p : ParsedArguments)
    (cwd includesPrefix obj depfile : String) (hobj : p.outputs.get "obj" = some obj)
    (hdep : p.depfile = some depfile) (w : World) (o : Output) (S : String)
    (hrun : env.respond w.spawned.length w.fs
      ⟨executable, ["-E", p.input, "-nologo"] ++ p.commonArgs ++ ["-showIncludes"], some cwd⟩ =
        .ok o)
    (hS : cp.decode o.stderr = some S) (hcr : ∀ l ∈ lines S, l.data.getLast? ≠ some '\r') :
    ∃ o' w' T, (preprocess host env cp normpath executable p cwd includesPrefix).run w = .ok o' w' ∧
      o'.stderr = utf8Encode T ∧ lines T = (lines S).filter fun l => !startsWith l includesPrefix := by
  obtain ⟨w', hw, -⟩ := run_writeDepfile h normpath includesPrefix cp p cwd obj depfile o S hS
    (w.spawn ⟨executable, ["-E", p.input, "-nologo"] ++ p.commonArgs ++ ["-showIncludes"],
      some cwd⟩)
  refine ⟨_, w', String.join (((lines S).filter fun l => !startsWith l includesPrefix).map
      (· ++ "\n")), (run_preprocess_of_depfile_some env cp normpath executable p cwd
      includesPrefix obj depfile hobj hdep w o hrun).trans hw, ?_, ?_⟩
  · have hnl : utf8Encode "\n" = [10] := rfl
    simp [List.flatMap_map, hnl]
  · refine lines_join _ fun l hl => ?_
    have hl := (List.mem_filter.1 hl).1
    exact ⟨newline_not_mem_of_mem_lines hl, hcr l hl⟩

theorem preprocess_stderr_lines_warning :
    let env : Env := ⟨fun _ _ _ => .ok ⟨⟨0⟩, [], []⟩, fun _ => "/tmp/0", fun _ => none⟩
    let S := "Note: including file: foo.h\nwarning C4013\n"
    let cp : CodePage := ⟨fun _ => some S⟩
    let p : ParsedArguments := ⟨"foo.c", "c", some "foo.d",
      ⟨fun k => if k = "obj" then some "foo.obj" else none⟩, [], []⟩
    let P := "Note: including file:"
    env.Reliable ∧ p.outputs.get "obj" = some "foo.obj" ∧ p.depfile = some "foo.d" ∧
    env.respond 0 (fun _ => none)
      ⟨"cl.exe", ["-E", p.input, "-nologo"] ++ p.commonArgs ++ ["-showIncludes"], some "/src"⟩ =
        .ok ⟨⟨0⟩, [], []⟩ ∧
    cp.decode [] = some S ∧ (∀ l ∈ lines S, l.data.getLast? ≠ some '\r') ∧
    ∃ o' w' T, (preprocess .unix env cp normpath "cl.exe" p "/src" P).run ⟨fun _ => none, [], 0, 0⟩ =
        .ok o' w' ∧
      o'.stderr = utf8Encode T ∧ lines T = (lines S).filter fun l => !startsWith l P :=
  ⟨fun _ => rfl, rfl, rfl, rfl, rfl, by decide,
    preprocess_stderr_lines _ (fun _ => rfl) _ normpath "cl.exe" _ "/src" _ "foo.obj" "foo.d"
      rfl rfl ⟨fun _ => none, [], 0, 0⟩ ⟨⟨0⟩, [], []⟩ _ rfl rfl (by decide)⟩

/-! ## The code page of the returned error stream

The error stream is decoded from the host's OEM code page, but the kept lines are written
back with `line.as_bytes()`, in UTF-8. Under a code page that differs from UTF-8 above
ASCII, the returned bytes no longer decode to the kept lines; code page 437 is the OEM
code page of US-English Windows. -/

/-- The upper half of code page 437, bytes `0x80` to `0xFF`. -/
def cp437High : String :=
  "ÇüéâäàåçêëèïîìÄÅÉæÆôöòûùÿÖÜ¢£¥₧ƒáíóúñÑªº¿⌐¬½¼¡«»░▒▓│┤╡╢╖╕╣║╗╝╜╛┐└┴┬├─┼╞╟╚╔╩╦╠═╬╧╨╤╥╙╘╒╓╫╪┘┌█▄▌▐▀αßΓπΣσµτΦΘΩδ∞φε∩≡±≥≤⌠⌡÷≈°∙·√ⁿ²■\u00A0"

/-- Code page 437: ASCII below `0x80`, `cp437High` above. -/
def cp437 : CodePage :=
  CodePage.singleByte fun b =>
    if b < 0x80 then some (Char.ofNat b.toNat) else cp437High.data.get? (b.toNat - 0x80)

/-- A diagnostic `é` (byte `0x82` in code page 437) comes back from the dependency-file
branch as the UTF-8 bytes `0xC3 0xA9`, which read in code page 437 are `├⌐`. -/
theorem preprocess_depfile_stderr_utf8 (host : Host) :
    cp437.decode [0x82, 0x0A] = some "é\n" ∧
    ∃ o w', (preprocess host ⟨fun _ _ _ => .ok ⟨⟨0⟩, [], [0x82, 0x0A]⟩, fun _ => "/tmp/0",
        fun _ => none⟩ cp437 normpath "cl.exe" ⟨"foo.c", "c", some "foo.d",
        ⟨fun k => if k = "obj" then some "foo.obj" else none⟩, [], []⟩ "/src"
        "Note: including file:").run ⟨fun _ => none, [], 0, 0⟩ = .ok o w' ∧
      o.stderr = [0xC3, 0xA9, 0x0A] ∧ cp437.decode o.stderr = some "├⌐\n" := by
  have h : Env.Reliable ⟨fun _ _ _ => .ok ⟨⟨0⟩, [], [0x82, 0x0A]⟩, fun _ => "/tmp/0",
    fun _ => none⟩ := fun _ => rfl
  obtain ⟨w', hw, -⟩ := run_writeDepfile h normpath "Note: including file:" cp437
    ⟨"foo.c", "c", some "foo.d", ⟨fun k => if k = "obj" then some "foo.obj" else none⟩, [], []⟩
    "/src" "foo.obj" "foo.d" ⟨⟨0⟩, [], [0x82, 0x0A]⟩ "é\n" (by decide)
    (World.spawn ⟨fun _ => none, [], 0, 0⟩
      ⟨"cl.exe", ["-E", "foo.c", "-nologo", "-showIncludes"], some "/src"⟩)
  exact ⟨by decide, _, w', hw, by decide, by decide⟩

end Sccache
