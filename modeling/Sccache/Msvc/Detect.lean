import Sccache.Io

set_option autoImplicit false

/-! # Detecting the `-showIncludes` prefix

`detect_showincludes_prefix` compiles a one-line file that includes `stdio.h` with
`-showIncludes` and reads, from the compiler's standard output, the localized text MSVC
writes before each included path ("Note: including file: " in English). The first line
ending in `stdio.h` is scanned right to left for a space after which the rest of the line
names an existing file; the line up to and including that space is the prefix.

The closure run on the compiler's output (`showIncludesPrefix`) is a pure function of the
output and of `Path::exists`: nothing on disk changes while it scans. Its two loops are
characterised by `findPrefix_eq` and `findInLines_eq`: the inner loop picks the rightmost
qualifying split of a line, `lastSplit`, and the outer loop the first line that has one.
Both loops always return, so the slices `&line[i+1..]` and `&line[..i+1]` never panic
(`failsWith_detectShowincludesPrefix`). The test file and its directory are gone when the
detection ends, whatever failed (`detectShowincludesPrefix_restores_fs`), and they are gone
before `Path::exists` is asked, so the answer is judged against the disk as it was
(`detectShowincludesPrefix_eq_ok_iff_of_fresh`).
-/

namespace Sccache

/-! ## The model -/

/-- The inner loop of `detect_showincludes_prefix`: the character offsets of a line, right
to left. At a space at offset `i`, `&line[i+1..]` is tested with `Path::exists`, and on
success `&line[..i+1]` is the prefix. `none` when no space qualifies. -/
def findPrefix (pathExists : String → Bool) (line : List Char) :
    List (Nat × Char) → Except Error (Option String)
  | [] => .ok none
  | (i, c) :: rest =>
    if c = ' ' then
      match sliceFrom line (i + 1) with
      | none => .error .panic
      | some r =>
        if pathExists ⟨r⟩ then
          match sliceTo line (i + 1) with
          | none => .error .panic
          | some a => .ok (some ⟨a⟩)
        else findPrefix pathExists line rest
    else findPrefix pathExists line rest

/-- The outer loop: the lines of the output in order; the first line ending in `stdio.h`
whose inner loop finds a prefix returns it. -/
def findInLines (pathExists : String → Bool) : List String → Except Error (Option String)
  | [] => .ok none
  | line :: rest =>
    if endsWith line "stdio.h" then
      match findPrefix pathExists line.data (charIndices line.data).reverse with
      | .ok none => findInLines pathExists rest
      | r => r
    else findInLines pathExists rest

/-- The closure `detect_showincludes_prefix` runs on the compiler's output. -/
def showIncludesPrefix (pathExists : String → Bool) (cp : CodePage) (output : Output) :
    Except Error String :=
  if !output.status.success then .error (.msg "Failed to detect showIncludes prefix") else
  match fromLocalCodepage cp output.stdout with
  | .error e => .error e
  | .ok stdout =>
    match findInLines pathExists (lines stdout) with
    | .ok (some p) => .ok p
    | .ok none => .error (.msg "Failed to detect showIncludes prefix")
    | .error e => .error e

/-- The `output` future of `detect_showincludes_prefix`: `test.c`, holding
`#include <stdio.h>`, written to a temporary directory and compiled with `-showIncludes`;
the directory is dropped once the compiler has run. -/
def runShowIncludesTest (host : Host) (env : Env) (exe : String) : Io Output := do
  let (tempdir, input) ← writeTempFile host env "test.c" (utf8Encode "#include <stdio.h>\n")
  withTempDir host tempdir
    (runInputOutput env ⟨exe, ["-nologo", "-showIncludes", "-c", "-Fonul", input], none⟩)

/-- `detect_showincludes_prefix`. -/
def detectShowincludesPrefix (host : Host) (env : Env) (cp : CodePage)
    (exe : String) : Io String := do
  let output ← runShowIncludesTest host env exe
  let pathExists ← existsOnDisk
  liftExcept (showIncludesPrefix pathExists cp output)

/-! ## Splits of a line at a space

A split of `l` is a pair `(A, r)` with `l = A ++ ' ' :: r`. The inner loop visits the
spaces right to left, so it returns the rightmost split whose remainder exists. -/

/-- The splits of a line at its spaces, leftmost first. -/
def spaceSplits : List Char → List (List Char × List Char)
  | [] => []
  | c :: l => (if c = ' ' then [([], l)] else []) ++ (spaceSplits l).map fun x => (c :: x.1, x.2)

/-- The rightmost split whose remainder names an existing path. -/
def lastSplit (pathExists : String → Bool) (l : List Char) : Option (List Char × List Char) :=
  (spaceSplits l).reverse.find? fun x => pathExists ⟨x.2⟩

theorem mem_spaceSplits (x : List Char × List Char) (l : List Char) :
    x ∈ spaceSplits l ↔ l = x.1 ++ ' ' :: x.2 := by
  induction l generalizing x with
  | nil => simp [spaceSplits]
  | cons c l ih =>
    obtain ⟨_ | ⟨a, A⟩, r⟩ := x
    · by_cases hc : c = ' ' <;> simp [spaceSplits, hc, eq_comm]
    · by_cases hc : c = ' ' <;> simp [spaceSplits, hc, ih, eq_comm, and_comm, and_assoc]

theorem spaceSplits_append (l₁ l₂ : List Char) :
    spaceSplits (l₁ ++ l₂) = (spaceSplits l₁).map (fun x => (x.1, x.2 ++ l₂)) ++
      (spaceSplits l₂).map fun x => (l₁ ++ x.1, x.2) := by
  induction l₁ with
  | nil => simp [spaceSplits]
  | cons c l ih => by_cases hc : c = ' ' <;> simp [spaceSplits, hc, ih, Function.comp_def]

/-- The splits of a line with a given split in them: those inside `A`, the given one, and
those inside `r`. -/
theorem spaceSplits_split (A r : List Char) :
    spaceSplits (A ++ ' ' :: r) = (spaceSplits A).map (fun x => (x.1, x.2 ++ ' ' :: r)) ++
      (A, r) :: (spaceSplits r).map fun x => (A ++ ' ' :: x.1, x.2) := by
  simp [spaceSplits_append, spaceSplits, Function.comp_def]

/-- The rightmost qualifying split is a split whose remainder exists and in whose remainder
no later space qualifies. -/
theorem lastSplit_eq_some_iff (E : String → Bool) (l : List Char) (A r : List Char) :
    lastSplit E l = some (A, r) ↔
      l = A ++ ' ' :: r ∧ E ⟨r⟩ = true ∧ ∀ r₁ r₂, r = r₁ ++ ' ' :: r₂ → E ⟨r₂⟩ = false := by
  have hlater : ∀ r₁ r₂, ((A ++ ' ' :: r₁, r₂) ∈ ((spaceSplits r).map
      fun x => (A ++ ' ' :: x.1, x.2)).reverse ↔ r = r₁ ++ ' ' :: r₂) := by
    intro r₁ r₂
    simp only [List.mem_reverse, List.mem_map, Prod.mk.injEq, List.append_cancel_left_eq,
      List.cons.injEq, true_and]
    exact ⟨fun ⟨x, hx, h₁, h₂⟩ => h₁ ▸ h₂ ▸ (mem_spaceSplits x r).1 hx,
      fun h => ⟨(r₁, r₂), (mem_spaceSplits _ r).2 h, rfl, rfl⟩⟩
  unfold lastSplit
  constructor
  · intro h
    obtain ⟨hE, -⟩ := List.find?_eq_some.1 h
    have hl : l = A ++ ' ' :: r :=
      (mem_spaceSplits (A, r) l).1 (List.mem_reverse.1 (List.mem_of_find?_eq_some h))
    subst hl
    rw [spaceSplits_split, List.reverse_append, List.reverse_cons, List.append_assoc,
      List.find?_append] at h
    refine ⟨rfl, hE, fun r₁ r₂ hr => ?_⟩
    cases hR : ((spaceSplits r).map fun x => (A ++ ' ' :: x.1, x.2)).reverse.find?
        (fun x => E ⟨x.2⟩) with
    | none => simpa using List.find?_eq_none.1 hR _ ((hlater r₁ r₂).2 hr)
    | some y =>
      rw [hR] at h
      obtain rfl : y = (A, r) := Option.some_inj.1 h
      obtain ⟨x, -, hx⟩ := List.mem_map.1 (List.mem_reverse.1 (List.mem_of_find?_eq_some hR))
      have := congrArg (fun y => y.1.length) hx
      simp only [List.length_append, List.length_cons] at this
      omega
  · rintro ⟨rfl, hE, hr⟩
    have hnone : ((spaceSplits r).map fun x => (A ++ ' ' :: x.1, x.2)).reverse.find?
        (fun x => E ⟨x.2⟩) = none := by
      refine List.find?_eq_none.2 fun x hx => ?_
      obtain ⟨x, hx', rfl⟩ := List.mem_map.1 (List.mem_reverse.1 hx)
      simp [hr x.1 x.2 ((mem_spaceSplits x r).1 hx')]
    rw [spaceSplits_split, List.reverse_append, List.reverse_cons, List.append_assoc,
      List.find?_append, hnone]
    simp [hE]

theorem lastSplit_eq_none_iff (E : String → Bool) (l : List Char) :
    lastSplit E l = none ↔ ∀ A r, l = A ++ ' ' :: r → E ⟨r⟩ = false := by
  simp only [lastSplit, List.find?_eq_none, List.mem_reverse, Bool.not_eq_true]
  exact ⟨fun h A r hl => h (A, r) ((mem_spaceSplits _ l).2 hl),
    fun h x hx => h x.1 x.2 ((mem_spaceSplits x l).1 hx)⟩

/-! ## The loops -/

/-- The inner loop over the offsets of a prefix `pre` of the line, read right to left, finds
the rightmost split inside `pre`. A space is one byte, so the slices at `i + 1` fall on
character boundaries and never panic. -/
theorem findPrefix_charIndices (E : String → Bool) (pre suf : List Char) :
    findPrefix E (pre ++ suf) (charIndices pre).reverse =
      .ok (((spaceSplits pre).reverse.find? fun x => E ⟨x.2 ++ suf⟩).map
        fun x => ⟨x.1 ++ [' ']⟩) := by
  induction pre using List.reverseRecOn generalizing suf with
  | nil => rfl
  | append_singleton p c ih =>
    have hrec := ih (c :: suf)
    rw [charIndices_append_singleton, spaceSplits_append, List.append_assoc,
      List.singleton_append]
    by_cases hc : c = ' '
    · subst hc
      have hsize : (' ').utf8Size = 1 := rfl
      have hfrom : sliceFrom (p ++ ' ' :: suf) (byteLen p + 1) = some suf := by
        simpa [hsize] using sliceFrom_append (p ++ [' ']) suf
      have hto : sliceTo (p ++ ' ' :: suf) (byteLen p + 1) = some (p ++ [' ']) := by
        simpa [hsize] using sliceTo_append (p ++ [' ']) suf
      cases hE : E ⟨suf⟩ <;>
        simp [findPrefix, spaceSplits, hfrom, hto, hE, hrec, ← List.map_reverse, List.find?_map,
          Function.comp_def]
    · simp [findPrefix, spaceSplits, hc, hrec, ← List.map_reverse, List.find?_map,
        Function.comp_def]

/-- The inner loop on a whole line returns the prefix of its rightmost qualifying split. -/
theorem findPrefix_eq (E : String → Bool) (l : List Char) :
    findPrefix E l (charIndices l).reverse = .ok ((lastSplit E l).map fun x => ⟨x.1 ++ [' ']⟩) := by
  simpa [lastSplit] using findPrefix_charIndices E l []

/-- What one line contributes to the outer loop: the prefix of its rightmost qualifying
split, when it ends in `stdio.h`. -/
def linePrefix (E : String → Bool) (l : String) : Option String :=
  if endsWith l "stdio.h" then (lastSplit E l.data).map fun x => ⟨x.1 ++ [' ']⟩ else none

/-- The outer loop returns the prefix of the first line ending in `stdio.h` that has a
qualifying split. -/
theorem findInLines_eq (E : String → Bool) (ls : List String) :
    findInLines E ls = .ok (ls.findSome? (linePrefix E)) := by
  induction ls with
  | nil => rfl
  | cons l ls ih =>
    by_cases he : endsWith l "stdio.h" = true
    · cases hs : lastSplit E l.data <;> simp [findInLines, linePrefix, he, hs, ih, findPrefix_eq]
    · simp [findInLines, linePrefix, he, ih]

/-! ## What the detection returns -/

/-- A line from which the scan takes a prefix: it ends in `stdio.h` and some space in it is
followed by an existing path. -/
def HasPrefixSplit (E : String → Bool) (l : String) : Prop :=
  endsWith l "stdio.h" = true ∧ ∃ A r, l.data = A ++ ' ' :: r ∧ E ⟨r⟩ = true

theorem linePrefix_eq_some_iff (E : String → Bool) (l P : String) :
    linePrefix E l = some P ↔
      endsWith l "stdio.h" = true ∧ ∃ A r, l.data = A ++ ' ' :: r ∧ E ⟨r⟩ = true ∧
        (∀ r₁ r₂, r = r₁ ++ ' ' :: r₂ → E ⟨r₂⟩ = false) ∧ P = ⟨A ++ [' ']⟩ := by
  by_cases he : endsWith l "stdio.h" = true
  · simp only [linePrefix, he, if_true, Option.map_eq_some', Prod.exists, lastSplit_eq_some_iff,
      true_and, and_assoc]
    exact exists₂_congr fun A r => by rw [@eq_comm _ P]
  · simp [linePrefix, he]

theorem linePrefix_eq_none_iff (E : String → Bool) (l : String) :
    linePrefix E l = none ↔ ¬ HasPrefixSplit E l := by
  by_cases he : endsWith l "stdio.h" = true <;>
    simp [linePrefix, he, HasPrefixSplit, lastSplit_eq_none_iff]

/-- The outer loop's result in words: the first line with a qualifying split, cut at its
rightmost qualifying space. -/
theorem findSome?_linePrefix_eq_some_iff (E : String → Bool) (ls : List String) (P : String) :
    ls.findSome? (linePrefix E) = some P ↔
      ∃ L₁ l L₂ A r, ls = L₁ ++ l :: L₂ ∧ (∀ l' ∈ L₁, ¬ HasPrefixSplit E l') ∧
        endsWith l "stdio.h" = true ∧ l.data = A ++ ' ' :: r ∧ E ⟨r⟩ = true ∧
        (∀ r₁ r₂, r = r₁ ++ ' ' :: r₂ → E ⟨r₂⟩ = false) ∧ P = ⟨A ++ [' ']⟩ := by
  simp only [List.findSome?_eq_some_iff, linePrefix_eq_some_iff, linePrefix_eq_none_iff]
  constructor
  · rintro ⟨L₁, l, L₂, hL, ⟨he, A, r, hA⟩, h₁⟩
    exact ⟨L₁, l, L₂, A, r, hL, h₁, he, hA⟩
  · rintro ⟨L₁, l, L₂, A, r, hL, h₁, he, hA⟩
    exact ⟨L₁, l, L₂, hL, ⟨he, A, r, hA⟩, h₁⟩

/-- The closure returns a prefix exactly when the run succeeded, its output decodes, and
some line has a qualifying split; the prefix is then taken from the first such line, at its
rightmost qualifying space. -/
theorem showIncludesPrefix_eq_ok_iff (E : String → Bool) (cp : CodePage) (output : Output)
    (P : String) :
    showIncludesPrefix E cp output = .ok P ↔
      output.status.success = true ∧ ∃ S, cp.decode output.stdout = some S ∧
        (lines S).findSome? (linePrefix E) = some P := by
  unfold showIncludesPrefix
  cases hs : output.status.success
  · simp
  · cases hd : cp.decode output.stdout with
    | none => simp [fromLocalCodepage, hd]
    | some S =>
      cases hp : (lines S).findSome? (linePrefix E) <;>
        simp [fromLocalCodepage, hd, findInLines_eq, hp]

/-- A path with a space in it: the space inside the path is passed over, since what follows
it does not exist. -/
example : showIncludesPrefix (· == "C:/Program Files/stdio.h")
    ⟨fun _ => some "Note: including file: C:/Program Files/stdio.h\r\n"⟩ ⟨⟨0⟩, [], []⟩ =
      .ok "Note: including file: " := rfl

/-- The closure fails only on a failed run, on output the code page cannot decode, or when
no line has a qualifying split: its slices of a line never panic. -/
theorem showIncludesPrefix_eq_error {E : String → Bool} {cp : CodePage} {output : Output}
    {e : Error} (h : showIncludesPrefix E cp output = .error e) :
    e = .decode ∨ e = .msg "Failed to detect showIncludes prefix" := by
  unfold showIncludesPrefix at h
  split at h
  · cases h; exact .inr rfl
  split at h
  next => cases h; exact .inl (fromLocalCodepage_eq_error ‹_›)
  next stdout _ =>
    rw [findInLines_eq] at h
    generalize (lines stdout).findSome? (linePrefix E) = r at h
    cases r <;> cases h
    exact .inr rfl

/-- The detection returns what its closure makes of the test compile's output, with
`Path::exists` read off the disk as the test left it. -/
theorem run_detectShowincludesPrefix_eq_ok_iff {host : Host} (env : Env) (cp : CodePage)
    (exe : String) (w w' : World) (P : String) :
    (detectShowincludesPrefix host env cp exe).run w = .ok P w' ↔
      ∃ o, (runShowIncludesTest host env exe).run w = .ok o w' ∧
        showIncludesPrefix w'.pathExists cp o = .ok P := by
  simp only [detectShowincludesPrefix, run_bind, run_existsOnDisk, run_liftExcept]
  cases h : (runShowIncludesTest host env exe).run w with
  | ok o w₁ =>
    constructor
    · intro hr
      cases hs : showIncludesPrefix w₁.pathExists cp o <;> simp only [hs] at hr <;> cases hr
      exact ⟨o, rfl, hs⟩
    · rintro ⟨o, ⟨⟩, hs⟩
      simp [hs]
  | error e w₁ => simp

/-- `detect_showincludes_prefix` returns `Ok(P)` exactly when the test compile succeeded
and its output decodes to a text with a line ending in `stdio.h` that has a space followed
by an existing path. `P` is then cut from the first such line, at the rightmost such space,
and ends with that space. -/
theorem detectShowincludesPrefix_eq_ok_iff {host : Host} (env : Env) (cp : CodePage) (exe : String)
    (w w' : World) (P : String) :
    (detectShowincludesPrefix host env cp exe).run w = .ok P w' ↔
      ∃ o, (runShowIncludesTest host env exe).run w = .ok o w' ∧ o.status.success = true ∧
        ∃ S, cp.decode o.stdout = some S ∧
        ∃ L₁ l L₂ A r, lines S = L₁ ++ l :: L₂ ∧
          (∀ l' ∈ L₁, ¬ HasPrefixSplit w'.pathExists l') ∧
          endsWith l "stdio.h" = true ∧ l.data = A ++ ' ' :: r ∧ w'.pathExists ⟨r⟩ = true ∧
          (∀ r₁ r₂, r = r₁ ++ ' ' :: r₂ → w'.pathExists ⟨r₂⟩ = false) ∧ P = ⟨A ++ [' ']⟩ := by
  simp only [run_detectShowincludesPrefix_eq_ok_iff, showIncludesPrefix_eq_ok_iff,
    findSome?_linePrefix_eq_some_iff]

/-- `detect_showincludes_prefix` fails only with an I/O error, with output the code page
cannot decode, or with its own message that no prefix was found. It never panics, whatever
the compiler prints and whatever exists on disk. -/
theorem failsWith_detectShowincludesPrefix {host : Host} (env : Env) (cp : CodePage)
    (exe : String) : FailsWith (fun e => e.isIo = true ∨ e = .decode ∨
        e = .msg "Failed to detect showIncludes prefix")
      (detectShowincludesPrefix host env cp exe) := by
  have hio : ∀ what, (Error.io what).isIo = true ∨ Error.io what = .decode ∨
      Error.io what = .msg "Failed to detect showIncludes prefix" := fun _ => .inl rfl
  exact ((failsWith_writeTempFile hio _ _ _ _).bind fun ⟨_, _⟩ =>
    (failsWith_runInputOutput hio _ _).withTempDir _ _).bind fun _ =>
    failsWith_existsOnDisk.bind fun _ =>
    failsWith_liftExcept fun _ he => .inr (showIncludesPrefix_eq_error he)

/-! ## What the detection leaves on disk -/

theorem leavesFs_runShowIncludesTest {host : Host} (env : Env) (exe : String) :
    LeavesFs host env (runShowIncludesTest host env exe) :=
  @leavesFs_tempFile host env "test.c" (by cases host <;> decide) (by cases host <;> rfl)
    (utf8Encode "#include <stdio.h>\n")
    fun input => ⟨exe, ["-nologo", "-showIncludes", "-c", "-Fonul", input], none⟩

/-- Whatever the compiler prints and whichever step fails, the detection leaves the file
system as it found it when the temporary directory it is handed is fresh: `test.c` and its
directory are gone, also when writing the file or starting the compiler failed. -/
theorem detectShowincludesPrefix_restores_fs {host : Host} (env : Env) (cp : CodePage)
    (exe : String) (w : World) (hw : env.FreshFrom host w) :
    (endState ((detectShowincludesPrefix host env cp exe).run w)).fs = w.fs := by
  refine (?_ : LeavesFs host env _) w hw |>.1
  unfold detectShowincludesPrefix
  exact (leavesFs_runShowIncludesTest env exe).bind fun _ =>
    leavesFs_existsOnDisk.bind fun _ => leavesFs_liftExcept _

theorem detectShowincludesPrefix_restores_fs_empty :
    let env : Env := ⟨fun _ _ _ => .ok ⟨⟨0⟩, [], []⟩, fun _ => "/tmp/0", fun _ => none⟩
    let w : World := ⟨fun _ => none, [], 0, 0⟩
    env.FreshFrom .unix w ∧
      (endState ((detectShowincludesPrefix .unix env ⟨fun _ => some ""⟩ "cl.exe").run w)).fs = w.fs :=
  ⟨fun _ _ => ⟨(by decide : Path.needSep .unix "/tmp/0" = true), fun _ _ => rfl⟩,
    detectShowincludesPrefix_restores_fs _ _ "cl.exe" _ fun _ _ =>
      ⟨(by decide : Path.needSep .unix "/tmp/0" = true), fun _ _ => rfl⟩⟩

/-- From a state whose coming temporary directories are fresh, the detection's answer is
judged against the disk as it was before the detection ran: the test file is gone before
`Path::exists` is asked, so it is never taken for the included path. -/
theorem detectShowincludesPrefix_eq_ok_iff_of_fresh {host : Host} (env : Env) (cp : CodePage)
    (exe : String) (w w' : World) (P : String) (hw : env.FreshFrom host w) :
    (detectShowincludesPrefix host env cp exe).run w = .ok P w' ↔
      ∃ o, (runShowIncludesTest host env exe).run w = .ok o w' ∧
        showIncludesPrefix w.pathExists cp o = .ok P := by
  rw [run_detectShowincludesPrefix_eq_ok_iff]
  refine exists_congr fun o => and_congr_right fun h => ?_
  have hfs := (leavesFs_runShowIncludesTest env exe w hw).1
  rw [h] at hfs
  have hE : w'.pathExists = w.pathExists := congrArg (fun fs q => (fs q).isSome) hfs
  rw [hE]

theorem detectShowincludesPrefix_eq_ok_iff_of_fresh_empty :
    let env : Env := ⟨fun _ _ _ => .ok ⟨⟨0⟩, [], []⟩, fun _ => "/tmp/0", fun _ => none⟩
    let w : World := ⟨fun _ => none, [], 0, 0⟩
    env.FreshFrom .unix w ∧
      ((detectShowincludesPrefix .unix env ⟨fun _ => some ""⟩ "cl.exe").run w = .ok "" w ↔
        ∃ o, (runShowIncludesTest .unix env "cl.exe").run w = .ok o w ∧
          showIncludesPrefix w.pathExists ⟨fun _ => some ""⟩ o = .ok "") :=
  ⟨fun _ _ => ⟨(by decide : Path.needSep .unix "/tmp/0" = true), fun _ _ => rfl⟩,
    detectShowincludesPrefix_eq_ok_iff_of_fresh _ _ "cl.exe" _ _ _ fun _ _ =>
      ⟨(by decide : Path.needSep .unix "/tmp/0" = true), fun _ _ => rfl⟩⟩

end Sccache
