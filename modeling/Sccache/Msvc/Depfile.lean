import Sccache.Msvc.Preprocess

set_option autoImplicit false

/-! # Reading the dependency file back

`preprocess` writes the dependency file for a build system that reads Makefile rules: a
rule `obj: input deps…` and an empty rule for the input and for each dependency, so that a
deleted header does not stop the build. This module reads the file the way such a reader
does (`readRules`: one rule per non-empty line, words separated by spaces, the first word
ending in `:` naming the target) and shows that the file reads back as the rules the code
means to write (`preprocess_depfile_readRules`).

The dependencies with a space in them are left out by the code precisely because they
would break the rule into words. The object file and the input are written as they are, so
the round trip needs them free of spaces and newlines; it also needs each reported
dependency to be non-empty, since an empty word vanishes from the first rule.

The file is written piece by piece, so a write that fails leaves the pieces before it. Under
any environment `preprocess` changes no file but the dependency file
(`preprocess_writes_only_depfile`), and that file is untouched or a prefix of the text above
(`preprocess_depfile_untouched_or_truncated`).
-/

namespace Sccache

/-! ## Makefile rules -/

/-- A rule of a Makefile: a target and its prerequisites. -/
structure Rule where
  target : String
  prereqs : List String
  deriving DecidableEq, Repr

/-- The words of a line: the runs of characters between spaces. -/
def words (l : List Char) : List String := ((l.splitOn ' ').filter (· ≠ [])).map String.mk

/-- A rule line `t: p₁ … pₙ`: the first word, without its final `:`, is the target and the
other words are the prerequisites. -/
def readRule (line : List Char) : Option Rule :=
  match words line with
  | t :: ps => if t.data.getLast? = some ':' then some ⟨⟨t.data.dropLast⟩, ps⟩ else none
  | [] => none

/-- The rules of a Makefile: one per non-empty line, `none` when a line is no rule. -/
def readRules (text : String) : Option (List Rule) :=
  ((text.data.splitOn '\n').filter (· ≠ [])).mapM readRule

/-- The text `preprocess` writes to the dependency file: the rule for the object file with
the input and `deps` as prerequisites, then an empty rule for the input and for each of
`sorted`. -/
def depfileText (objfile input : String) (deps sorted : List String) : String :=
  objfile ++ ": " ++ input ++ " " ++ String.join (deps.map (· ++ " ")) ++ "\n" ++ input ++ ":\n" ++
    String.join (sorted.map (· ++ ":\n"))

example : readRules (depfileText "foo.obj" "foo.c" ["a.h", "b.h"] ["a.h", "b.h"]) =
    some [⟨"foo.obj", ["foo.c", "a.h", "b.h"]⟩, ⟨"foo.c", []⟩, ⟨"a.h", []⟩, ⟨"b.h", []⟩] := by
  decide

/-! ## Reading words and lines -/

theorem filter_append_nil {ls : List (List Char)} (h : ∀ l ∈ ls, l ≠ []) :
    (ls ++ [[]]).filter (· ≠ []) = ls := by
  simpa [List.filter_append] using h

/-- Non-empty words each followed by a space read back as themselves. -/
theorem words_flatten (ws : List (List Char)) (h : ∀ w ∈ ws, w ≠ [] ∧ ' ' ∉ w) :
    words (ws.map (· ++ [' '])).flatten = ws.map String.mk := by
  rw [words, splitOn_flatten_map_append ws fun w hw => (h w hw).2,
    filter_append_nil fun w hw => (h w hw).1]

theorem not_mem_flatten_map_append {c d : Char} (hcd : c ≠ d) (ws : List (List Char))
    (h : ∀ w ∈ ws, c ∉ w) : c ∉ (ws.map (· ++ [d])).flatten := by
  simp only [List.mem_flatten, List.mem_map, not_exists, not_and]
  rintro _ ⟨w, hw, rfl⟩ hm
  rcases List.mem_append.1 hm with hm | hm
  · exact h w hw hm
  · exact hcd (List.mem_singleton.1 hm)

/-- A rule line as `write!` puts it: the target with `:`, then each prerequisite, each
followed by a space. -/
theorem readRule_rule (target : List Char) (ws : List (List Char)) (ht : ' ' ∉ target)
    (h : ∀ w ∈ ws, w ≠ [] ∧ ' ' ∉ w) :
    readRule ((target ++ [':']) :: ws |>.map (· ++ [' '])).flatten =
      some ⟨⟨target⟩, ws.map String.mk⟩ := by
  rw [readRule, words_flatten _ (List.forall_mem_cons.2 ⟨⟨by simp, by simpa using ht⟩, h⟩)]
  simp

/-- An empty rule `t:`. -/
theorem readRule_emptyRule (t : String) (ht : ' ' ∉ t.data) :
    readRule (t.data ++ [':']) = some ⟨t, []⟩ := by
  have hw : words (t.data ++ [':']) = [⟨t.data ++ [':']⟩] := by
    rw [words, List.splitOn, List.splitOnP_eq_single _ _ fun x hx hxc => by
      rw [beq_iff_eq] at hxc; subst hxc; simp_all]
    simp
  simp [readRule, hw]

theorem mapM_readRule_emptyRules (ts : List String) (h : ∀ t ∈ ts, ' ' ∉ t.data) :
    (ts.map fun t => t.data ++ [':']).mapM readRule = some (ts.map fun t => ⟨t, []⟩) := by
  induction ts with
  | nil => rfl
  | cons t ts ih =>
    simp only [List.forall_mem_cons] at h
    rw [List.map_cons, List.mapM_cons, readRule_emptyRule t h.1, ih h.2]
    rfl

/-- The dependency file is its lines, each ended by `\n`: the rule for the object file,
then the empty rules. -/
theorem depfileText_data (objfile input : String) (deps sorted : List String) :
    (depfileText objfile input deps sorted).data =
      (((((objfile.data ++ [':']) :: input.data :: deps.map String.data).map (· ++ [' '])).flatten ::
        (input :: sorted).map fun t => t.data ++ [':']).map (· ++ ['\n'])).flatten := by
  simp [depfileText, String.data_join, Function.comp_def]

/-! ## The round trip -/

/-- The text of the dependency file reads back as the rule for the object file, with the
input and `deps` as prerequisites, and an empty rule for the input and for each of
`sorted`, when none of the names holds a space or a newline and the prerequisites are not
empty. -/
theorem readRules_depfileText (objfile input : String) (deps sorted : List String)
    (hobj : ' ' ∉ objfile.data ∧ '\n' ∉ objfile.data)
    (hin : input ≠ "" ∧ ' ' ∉ input.data ∧ '\n' ∉ input.data)
    (hdeps : ∀ d ∈ deps, d ≠ "" ∧ ' ' ∉ d.data ∧ '\n' ∉ d.data)
    (hsorted : ∀ d ∈ sorted, ' ' ∉ d.data ∧ '\n' ∉ d.data) :
    readRules (depfileText objfile input deps sorted) =
      some (⟨objfile, input :: deps⟩ :: ⟨input, []⟩ :: sorted.map fun d => ⟨d, []⟩) := by
  have hne : ∀ s : String, s ≠ "" → s.data ≠ [] := fun s hs h => hs (String.ext h)
  have hws : ∀ w ∈ input.data :: deps.map String.data, w ≠ [] ∧ ' ' ∉ w := by
    simp only [List.forall_mem_cons, List.forall_mem_map]
    exact ⟨⟨hne _ hin.1, hin.2.1⟩, fun d hd => ⟨hne _ (hdeps d hd).1, (hdeps d hd).2.1⟩⟩
  have hempty : ∀ t ∈ input :: sorted, ' ' ∉ t.data ∧ '\n' ∉ t.data :=
    List.forall_mem_cons.2 ⟨hin.2, hsorted⟩
  -- Every line is non-empty and holds no newline.
  have hline : ∀ l ∈ (((objfile.data ++ [':']) :: input.data :: deps.map String.data).map
      (· ++ [' '])).flatten :: (input :: sorted).map (fun t => t.data ++ [':']),
      l ≠ [] ∧ '\n' ∉ l := by
    refine List.forall_mem_cons.2 ⟨⟨by simp, not_mem_flatten_map_append (by decide) _ ?_⟩, ?_⟩
    · simp only [List.forall_mem_cons, List.forall_mem_map]
      exact ⟨by simpa using hobj.2, hin.2.2, fun d hd => (hdeps d hd).2.2⟩
    · simp only [List.forall_mem_map]
      exact fun t ht => ⟨by simp, by simpa using (hempty t ht).2⟩
  rw [readRules, depfileText_data, splitOn_flatten_map_append _ fun l hl => (hline l hl).2,
    filter_append_nil fun l hl => (hline l hl).1, List.mapM_cons, readRule_rule _ _ hobj.1 hws,
    mapM_readRule_emptyRules _ fun t ht => (hempty t ht).1]
  simp [Function.comp_def]

/-- With a dependency file requested and every write succeeding, the file `preprocess`
writes is the UTF-8 encoding of `depfileText` for the dependencies without a space, each
once in the order first reported, and for the same dependencies sorted. -/
theorem run_preprocess_depfileText {host : Host} (env : Env) (h : env.Reliable) (cp : CodePage)
    (normpath : String → String) (executable : String) (p : ParsedArguments)
    (cwd includesPrefix obj depfile : String) (hobj : p.outputs.get "obj" = some obj)
    (hdep : p.depfile = some depfile) (w : World) (o : Output) (S : String)
    (hrun : env.respond w.spawned.length w.fs
      ⟨executable, ["-E", p.input, "-nologo"] ++ p.commonArgs ++ ["-showIncludes"], some cwd⟩ =
        .ok o)
    (hS : cp.decode o.stderr = some S) :
    let D := ((includedPaths normpath includesPrefix (lines S)).filter
      fun d => !containsChar d ' ').eraseDups
    ∃ o' w', (preprocess host env cp normpath executable p cwd includesPrefix).run w = .ok o' w' ∧
      w'.contents (Path.join host cwd depfile) =
        utf8Encode (depfileText obj p.input D (D.mergeSort fun a b => decide (a ≤ b))) := by
  intro D
  obtain ⟨w', hw, hc⟩ := run_writeDepfile h normpath includesPrefix cp p cwd obj depfile o S hS
    (w.spawn ⟨executable, ["-E", p.input, "-nologo"] ++ p.commonArgs ++ ["-showIncludes"],
      some cwd⟩)
  have hD : (newDeps [] (includedPaths normpath includesPrefix (lines S))).filter
      (fun d => !containsChar d ' ') = D := by
    simp only [D, filter_newDeps, eraseDups_eq_newDeps, List.filter_nil]
  refine ⟨_, w', (run_preprocess_of_depfile_some env cp normpath executable p cwd includesPrefix
    obj depfile hobj hdep w o hrun).trans hw, ?_⟩
  rw [hc, ← hD, filter_mergeSort, hD]
  simp [depfileText, List.flatMap_map]

/-- The dependencies `preprocess` records hold no space, no newline when the normaliser
adds none, and are not empty when no include line names an empty path. -/
theorem mem_recorded_deps {normpath : String → String} {includesPrefix S d : String}
    (hnorm : ∀ s : String, '\n' ∉ s.data → '\n' ∉ (normpath s).data)
    (hpaths : ∀ d ∈ includedPaths normpath includesPrefix (lines S), d ≠ "")
    (hd : d ∈ ((includedPaths normpath includesPrefix (lines S)).filter
      fun d => !containsChar d ' ').eraseDups) :
    d ≠ "" ∧ ' ' ∉ d.data ∧ '\n' ∉ d.data := by
  rw [eraseDups_eq_newDeps] at hd
  obtain ⟨hI, hsp⟩ := List.mem_filter.1 (mem_of_mem_newDeps hd)
  refine ⟨hpaths d hI, fun hm => by simp [(containsChar_iff d ' ').2 hm] at hsp, ?_⟩
  obtain ⟨l, hl, rfl⟩ := List.mem_map.1 hI
  exact hnorm _ fun hm => newline_not_mem_of_mem_lines (List.mem_filter.1 hl).1
    (List.mem_of_mem_drop (trim_subset _ hm))

/-- With a dependency file requested and every write succeeding, the file `preprocess`
writes reads back as Makefile rules: the object file depends on the input and on each
recorded dependency once, in the order first reported, and the input and each dependency,
sorted, have an empty rule. This holds when the object file and the input hold no space or
newline, the input is not empty, the path normaliser adds no newline, and no include line
names an empty path. -/
theorem preprocess_depfile_readRules {host : Host} (env : Env) (h : env.Reliable) (cp : CodePage)
    (normpath : String → String) (executable : String) (p : ParsedArguments)
    (cwd includesPrefix obj depfile : String) (hobj : p.outputs.get "obj" = some obj)
    (hdep : p.depfile = some depfile) (w : World) (o : Output) (S : String)
    (hrun : env.respond w.spawned.length w.fs
      ⟨executable, ["-E", p.input, "-nologo"] ++ p.commonArgs ++ ["-showIncludes"], some cwd⟩ =
        .ok o)
    (hS : cp.decode o.stderr = some S)
    (hnames : ' ' ∉ obj.data ∧ '\n' ∉ obj.data ∧ p.input ≠ "" ∧ ' ' ∉ p.input.data ∧
      '\n' ∉ p.input.data)
    (hnorm : ∀ s : String, '\n' ∉ s.data → '\n' ∉ (normpath s).data)
    (hpaths : ∀ d ∈ includedPaths normpath includesPrefix (lines S), d ≠ "") :
    let D := ((includedPaths normpath includesPrefix (lines S)).filter
      fun d => !containsChar d ' ').eraseDups
    ∃ o' w' T, (preprocess host env cp normpath executable p cwd includesPrefix).run w = .ok o' w' ∧
      w'.contents (Path.join host cwd depfile) = utf8Encode T ∧
      readRules T = some (⟨obj, p.input :: D⟩ :: ⟨p.input, []⟩ ::
        (D.mergeSort fun a b => decide (a ≤ b)).map fun d => ⟨d, []⟩) := by
  intro D
  obtain ⟨o', w', hw, hc⟩ := run_preprocess_depfileText env h cp normpath executable p cwd
    includesPrefix obj depfile hobj hdep w o S hrun hS
  have hD : ∀ d ∈ D, d ≠ "" ∧ ' ' ∉ d.data ∧ '\n' ∉ d.data := fun d hd =>
    mem_recorded_deps hnorm hpaths hd
  refine ⟨o', w', _, hw, hc, readRules_depfileText _ _ _ _ ⟨hnames.1, hnames.2.1⟩ hnames.2.2 hD
    fun d hd => (hD d ((List.mergeSort_perm D _).mem_iff.1 hd)).2⟩

theorem preprocess_depfile_readRules_two_includes :
    let env : Env := ⟨fun _ _ _ => .ok ⟨⟨0⟩, [], []⟩, fun _ => "/tmp/0", fun _ => none⟩
    let S := "Note: including file: b.h\nNote: including file: a.h\nwarning\n"
    let cp : CodePage := ⟨fun _ => some S⟩
    let p : ParsedArguments := ⟨"foo.c", "c", some "foo.d",
      ⟨fun k => if k = "obj" then some "foo.obj" else none⟩, [], []⟩
    let P := "Note: including file:"
    env.Reliable ∧ p.outputs.get "obj" = some "foo.obj" ∧ p.depfile = some "foo.d" ∧
    env.respond 0 (fun _ => none)
      ⟨"cl.exe", ["-E", p.input, "-nologo"] ++ p.commonArgs ++ ["-showIncludes"], some "/src"⟩ =
        .ok ⟨⟨0⟩, [], []⟩ ∧
    cp.decode [] = some S ∧
    (' ' ∉ "foo.obj".data ∧ '\n' ∉ "foo.obj".data ∧ p.input ≠ "" ∧ ' ' ∉ p.input.data ∧
      '\n' ∉ p.input.data) ∧
    (∀ s : String, '\n' ∉ s.data → '\n' ∉ (normpath s).data) ∧
    (∀ d ∈ includedPaths normpath P (lines S), d ≠ "") ∧
    let D := ((includedPaths normpath P (lines S)).filter fun d => !containsChar d ' ').eraseDups
    ∃ o' w' T, (preprocess .unix env cp normpath "cl.exe" p "/src" P).run ⟨fun _ => none, [], 0, 0⟩ =
        .ok o' w' ∧
      w'.contents (Path.join .unix "/src" "foo.d") = utf8Encode T ∧
      readRules T = some (⟨"foo.obj", p.input :: D⟩ :: ⟨p.input, []⟩ ::
        (D.mergeSort fun a b => decide (a ≤ b)).map fun d => ⟨d, []⟩) :=
  ⟨fun _ => rfl, rfl, rfl, rfl, rfl, by decide, fun _ h => h, by decide,
    preprocess_depfile_readRules _ (fun _ => rfl) _ normpath "cl.exe" _ "/src" _ "foo.obj" "foo.d"
      rfl rfl ⟨fun _ => none, [], 0, 0⟩ ⟨⟨0⟩, [], []⟩ _ rfl rfl (by decide) (fun _ h => h)
      (by decide)⟩

/-! ## When a write fails

Under an environment whose file operations may fail, the dependency file is written in
pieces, and a failed write leaves the pieces before it and the first bytes of its own that
reached the file. `preprocess` changes no other file,
and the dependency file is at every point either untouched (the compiler could not be started
or `File::create` failed) or a prefix of the text a run without failures writes. -/

section Failures

variable (env : Env) (normpath : String → String) (path includesPrefix : String)

/-- The loop over the error stream under any environment: the writes of
`appendsTo_scanIncludes`, all of them when it returns, a prefix when a write fails. -/
theorem appendsPrefix_scanIncludes (ls deps : List String) (bytes : List UInt8) :
    AppendsPrefix (scanIncludes env normpath path includesPrefix ls deps bytes) path
      (deps ++ newDeps deps (includedPaths normpath includesPrefix ls),
        bytes ++ (ls.filter fun l => !startsWith l includesPrefix).flatMap
          fun l => utf8Encode l ++ [10])
      (((newDeps deps (includedPaths normpath includesPrefix ls)).filter
          fun d => !containsChar d ' ').flatMap fun d => utf8Encode (d ++ " ")) := by
  induction ls generalizing deps bytes with
  | nil => simpa [includedPaths, newDeps] using @AppendsPrefix.pure _ path (deps, bytes)
  | cons line rest ih =>
    by_cases hs : startsWith line includesPrefix = true
    · simp only [scanIncludes, hs, if_true, sliceFrom_of_startsWith hs, includedPaths,
        List.filter_cons, List.map_cons, Bool.not_true]
      set dep := normpath ⟨trim (line.data.drop includesPrefix.data.length)⟩
      by_cases hd : dep ∈ deps
      · have := (AppendsPrefix.pure ()).seq (ih deps bytes)
        simpa [setInsert, hd, newDeps] using this
      · by_cases hc : containsChar dep ' ' = true
        · have := (AppendsPrefix.pure ()).seq (ih (deps ++ [dep]) bytes)
          simpa [setInsert, hd, hc, newDeps] using this
        · have := (appendsPrefix_fileWrite env path (dep ++ " ")).seq (ih (deps ++ [dep]) bytes)
          simpa [setInsert, hd, hc, newDeps] using this
    · have := ih deps (bytes ++ utf8Encode line ++ [10])
      simp only [scanIncludes, hs, Bool.false_eq_true, if_false]
      convert this using 2 <;> simp [includedPaths, hs]

/-- The loop over the sorted dependencies under any environment. -/
theorem appendsPrefix_writeEmptyRules (deps : List String) :
    AppendsPrefix (writeEmptyRules env path deps) path ()
      ((deps.filter fun d => !containsChar d ' ').flatMap fun d => utf8Encode (d ++ ":\n")) := by
  induction deps with
  | nil => exact AppendsPrefix.pure ()
  | cons d deps ih =>
    by_cases hc : containsChar d ' ' = true
    · simpa [writeEmptyRules, hc] using (AppendsPrefix.pure ()).seq ih
    · simpa [writeEmptyRules, hc] using (appendsPrefix_fileWrite env path (d ++ ":\n")).seq ih

end Failures

/-- The dependency-file branch under any environment: no file but the dependency file
changes, and the dependency file is untouched or holds a prefix of the text written when every
write succeeds, for the error stream as decoded (the empty text when it does not decode). -/
theorem writeDepfile_untouched_or_truncated {host : Host} (env : Env) (cp : CodePage)
    (normpath : String → String)
    (p : ParsedArguments) (cwd includesPrefix objfile depfile : String) (output : Output)
    (w : World) :
    let path := Path.join host cwd depfile
    let S := (cp.decode output.stderr).getD ""
    let D := ((includedPaths normpath includesPrefix (lines S)).filter
      fun d => !containsChar d ' ').eraseDups
    let w' := endState
      ((writeDepfile host env cp normpath p cwd includesPrefix objfile depfile output).run w)
    (∀ q, q ≠ path → w'.fs q = w.fs q) ∧
      (w'.fs path = w.fs path ∨
        w'.contents path <+:
          utf8Encode (depfileText objfile p.input D (D.mergeSort fun a b => decide (a ≤ b)))) := by
  dsimp only
  unfold writeDepfile
  apply fileCreate_seq_appends env ?hx ?hfull w
  case hx =>
    apply (appendsPrefix_fileWrite env _ _).seq
    apply (appendsPrefix_fromLocalCodepage cp _).bind
    apply (appendsPrefix_scanIncludes env normpath _ includesPrefix _ [] []).bind
    exact (appendsPrefix_fileWrite env _ _).seq ((appendsPrefix_fileWrite env _ _).seq
      ((appendsPrefix_writeEmptyRules env _ _).seq (AppendsPrefix.pure _)))
  case hfull =>
    simp only [eraseDups_eq_newDeps, List.nil_append, filter_mergeSort, filter_newDeps,
      List.filter_nil]
    simp [depfileText, List.flatMap_map]

/-- Whatever fails (the compiler's start, the decoding of its error stream, a write midway),
`preprocess` changes no file but the dependency file its arguments name, and without a
dependency file no file at all. -/
theorem preprocess_writes_only_depfile {host : Host} (env : Env) (cp : CodePage)
    (normpath : String → String)
    (executable : String) (p : ParsedArguments) (cwd includesPrefix : String) (w : World)
    (q : String) (hq : ∀ depfile, p.depfile = some depfile → q ≠ Path.join host cwd depfile) :
    (endState ((preprocess host env cp normpath executable p cwd includesPrefix).run w)).fs q =
      w.fs q := by
  simp only [preprocess, run_bind, run_runInputOutput]
  cases env.respond _ _ _ with
  | error e => rfl
  | ok o =>
    dsimp only
    split
    · next obj depfile _ hdep =>
      exact (writeDepfile_untouched_or_truncated env cp normpath p cwd includesPrefix obj depfile
        o _).1 q (hq depfile hdep)
    · rfl

theorem preprocess_writes_only_depfile_source :
    let env : Env := ⟨fun _ _ _ => .ok ⟨⟨0⟩, [], []⟩, fun _ => "/tmp/0", fun _ => some ⟨"disk full", 0⟩⟩
    let p : ParsedArguments := ⟨"foo.c", "c", some "foo.d",
      ⟨fun k => if k = "obj" then some "foo.obj" else none⟩, [], []⟩
    let w : World := ⟨fun _ => none, [], 0, 0⟩
    (∀ depfile, p.depfile = some depfile → "/src/foo.c" ≠ Path.join .unix "/src" depfile) ∧
      (endState ((preprocess .unix env ⟨fun _ => some ""⟩ normpath "cl.exe" p "/src"
        "Note: including file:").run w)).fs "/src/foo.c" = w.fs "/src/foo.c" :=
  ⟨fun _ h => by cases h; decide,
    preprocess_writes_only_depfile _ _ normpath "cl.exe" _ "/src" _ _ "/src/foo.c" fun _ h => by
      cases h; decide⟩

/-- With a dependency file requested, once the compiler has run and its error stream decodes,
whichever write fails, the dependency file is untouched or holds a prefix of the text a run
without failures writes (`preprocess_depfile_readRules`): a failed `preprocess` can leave a
truncated dependency file behind, never a different one. -/
theorem preprocess_depfile_untouched_or_truncated {host : Host} (env : Env) (cp : CodePage)
    (normpath : String → String)
    (executable : String) (p : ParsedArguments) (cwd includesPrefix obj depfile : String)
    (hobj : p.outputs.get "obj" = some obj) (hdep : p.depfile = some depfile) (w : World)
    (o : Output) (S : String)
    (hrun : env.respond w.spawned.length w.fs
      ⟨executable, ["-E", p.input, "-nologo"] ++ p.commonArgs ++ ["-showIncludes"], some cwd⟩ =
        .ok o)
    (hS : cp.decode o.stderr = some S) :
    let D := ((includedPaths normpath includesPrefix (lines S)).filter
      fun d => !containsChar d ' ').eraseDups
    let w' := endState ((preprocess host env cp normpath executable p cwd includesPrefix).run w)
    w'.fs (Path.join host cwd depfile) = w.fs (Path.join host cwd depfile) ∨
      w'.contents (Path.join host cwd depfile) <+:
        utf8Encode (depfileText obj p.input D (D.mergeSort fun a b => decide (a ≤ b))) := by
  have h := (@writeDepfile_untouched_or_truncated host env cp normpath p cwd includesPrefix obj depfile o
    (w.spawn ⟨executable, ["-E", p.input, "-nologo"] ++ p.commonArgs ++ ["-showIncludes"],
      some cwd⟩)).2
  simp only [hS, Option.getD_some] at h
  rwa [run_preprocess_of_depfile_some env cp normpath executable p cwd includesPrefix obj depfile
    hobj hdep w o hrun]

theorem preprocess_depfile_truncated_third_write_fails :
    let env : Env := ⟨fun _ _ _ => .ok ⟨⟨0⟩, [], []⟩, fun _ => "/tmp/0",
      fun n => if n = 2 then some ⟨"disk full", 3⟩ else none⟩
    let S := "Note: including file: foo.h\nwarning\n"
    let cp : CodePage := ⟨fun _ => some S⟩
    let p : ParsedArguments := ⟨"foo.c", "c", some "foo.d",
      ⟨fun k => if k = "obj" then some "foo.obj" else none⟩, [], []⟩
    let P := "Note: including file:"
    let w : World := ⟨fun _ => none, [], 0, 0⟩
    p.outputs.get "obj" = some "foo.obj" ∧ p.depfile = some "foo.d" ∧
    env.respond w.spawned.length w.fs
      ⟨"cl.exe", ["-E", p.input, "-nologo"] ++ p.commonArgs ++ ["-showIncludes"], some "/src"⟩ =
        .ok ⟨⟨0⟩, [], []⟩ ∧
    cp.decode [] = some S ∧
    let D := ((includedPaths normpath P (lines S)).filter fun d => !containsChar d ' ').eraseDups
    let w' := endState ((preprocess .unix env cp normpath "cl.exe" p "/src" P).run w)
    w'.fs (Path.join .unix "/src" "foo.d") = w.fs (Path.join .unix "/src" "foo.d") ∨
      w'.contents (Path.join .unix "/src" "foo.d") <+:
        utf8Encode (depfileText "foo.obj" p.input D (D.mergeSort fun a b => decide (a ≤ b))) :=
  ⟨rfl, rfl, rfl, rfl,
    preprocess_depfile_untouched_or_truncated _ _ normpath "cl.exe" _ "/src" _ "foo.obj" "foo.d"
      rfl rfl ⟨fun _ => none, [], 0, 0⟩ ⟨⟨0⟩, [], []⟩ _ rfl rfl⟩

end Sccache
