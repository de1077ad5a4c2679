import Sccache.Path

set_option autoImplicit false

/-! # The MSVC argument classifier

`parse_arguments` turns a compiler command line into a verdict: not a compilation, a
compilation that cannot be cached, or the parsed arguments. It scans the tokens left to
right. Each token takes the first arm of a `match` that fits it (`arm`); `-FI` also takes
the token after it as its value, and three arms, and a second input, end the scan at
once. After the scan, `validate` checks in order that `-c` was seen, that there is an
input with an extension, that there is an output, and that `-Zi` comes with `-Fd`.
-/

namespace Sccache

/-! ## Data model -/

/-- The outputs of a compilation by kind (`HashMap<&str, String>`). As for a `HashMap`,
two maps are equal when they give the same value for every key. -/
@[ext] structure OutputMap where
  get : String → Option String

namespace OutputMap

/-- `HashMap::new`. -/
def empty : OutputMap := ⟨fun _ => none⟩

/-- `HashMap::insert`. -/
def insert (m : OutputMap) (k v : String) : OutputMap :=
  ⟨fun k' => if k' = k then some v else m.get k'⟩

@[simp] theorem get_empty (k : String) : empty.get k = none := rfl

@[simp] theorem get_insert (m : OutputMap) (k v k' : String) :
    (m.insert k v).get k' = if k' = k then some v else m.get k' := rfl

end OutputMap

/-- `ParsedArguments`: what a cacheable compilation is made of. -/
structure ParsedArguments where
  input : String
  extension : String
  depfile : Option String
  outputs : OutputMap
  preprocessorArgs : List String
  commonArgs : List String

/-- `CompilerArguments`: the verdict of the classifier. -/
inductive CompilerArguments where
  | ok (p : ParsedArguments)
  | cannotCache
  | notCompilation

/-! ## The scan -/

/-- The arms of `parse_arguments`'s `match`, in their order. -/
inductive Arm where
  | compile
  | output (o : String)
  | forcedInclude
  | depfile (d : String)
  | showIncludes
  | responseFile
  | extraOutput
  | debugInfo
  | pdb (p : String)
  | other
  | input
  deriving DecidableEq, Repr

/-- The first arm that fits a token. The slices `&v[3..]` and `&v[5..]` follow an ASCII
prefix of that many bytes, so they drop that many characters. -/
def arm (v : String) : Arm :=
  if v = "-c" then .compile
  else if startsWith v "-Fo" then .output ⟨v.data.drop 3⟩
  else if v = "-FI" then .forcedInclude
  else if startsWith v "-deps" then .depfile ⟨v.data.drop 5⟩
  else if v = "-showIncludes" then .showIncludes
  else if startsWith v "@" then .responseFile
  else if v ∈ ["-FA", "-Fa", "-Fe", "-Fm", "-Fp", "-FR", "-Fx"] then .extraOutput
  else if v = "-Zi" then .debugInfo
  else if startsWith v "-Fd" then .pdb ⟨v.data.drop 3⟩
  else if startsWith v "-" && 1 < len v then .other
  else .input

/-! ### Which tokens take which arm

One lemma per arm of `arm`, in the words of the tests: the arm a token takes is decided by
its first characters, and the tests before an arm never fire for a token it fits. -/

/-- The tokens the source reads as input files: empty, `-`, or not starting with `-` or
`@`. -/
def isInputToken (a : String) : Bool :=
  match a.data with
  | [] | ['-'] => true
  | c :: _ => c != '-' && c != '@'

/-- The tokens that end the scan with `CannotCache`: `-showIncludes`, a response file, and
the flags for outputs the classifier does not track. -/
def isRejected (a : String) : Bool :=
  a = "-showIncludes" || startsWith a "@" || a ∈ ["-FA", "-Fa", "-Fe", "-Fm", "-Fp", "-FR", "-Fx"]

/-- A token starting with `-` and another character is no input. -/
theorem isInputToken_of_startsWith {a p : String} (h : startsWith a p = true) (c : Char)
    (t : List Char) (hp : p.data = '-' :: c :: t) : isInputToken a = false := by
  obtain ⟨r, hr⟩ := (startsWith_iff a p).1 h
  simp [isInputToken, ← hr, hp]

theorem startsWith_eq_false_of_isInputToken {a : String} (h : isInputToken a = true) (p : String)
    (c : Char) (t : List Char) (hp : p.data = '-' :: c :: t) : startsWith a p = false :=
  Bool.eq_false_iff.2 fun hs => by simp [isInputToken_of_startsWith hs c t hp] at h

theorem isInputToken_of_startsWith_at {a : String} (h : startsWith a "@" = true) :
    isInputToken a = false := by
  obtain ⟨r, hr⟩ := (startsWith_iff a "@").1 h
  have : a.data = '@' :: r := by simpa using hr.symm
  cases r <;> simp [isInputToken, this]

/-- A token is none of the literals that differ from it in a Boolean test. -/
theorem ne_of_test {a : String} (f : String → Bool) (h : f a = true) {l : List String}
    (hl : ∀ b ∈ l, f b = false) : ∀ b ∈ l, a ≠ b := by
  rintro b hb rfl; simp [hl a hb] at h

/-- The last two tests of `arm` failing make a token an input. -/
theorem isInputToken_of_arm_input {a : String} (h₁ : ¬ (startsWith a "-" && 1 < len a) = true)
    (h₂ : ¬ startsWith a "@" = true) : isInputToken a = true := by
  rcases a with ⟨_ | ⟨c, t⟩⟩
  · rfl
  · have hc : c ≠ '@' := by rintro rfl; simp [startsWith] at h₂
    by_cases hd : c = '-'
    · subst hd
      cases t with
      | nil => rfl
      | cons d t =>
        have : 1 < len ⟨'-' :: d :: t⟩ := by
          have := Char.utf8Size_pos d
          have : ('-').utf8Size = 1 := rfl
          simp [len]; omega
        simp [startsWith, this] at h₁
    · cases t <;> simp [isInputToken, hd, hc]

theorem arm_eq_compile_iff (a : String) : arm a = .compile ↔ a = "-c" := by
  refine ⟨fun h => ?_, by rintro rfl; rfl⟩
  simpa only [arm, ite_eq_iff, reduceCtorEq, and_false, false_and, or_false, and_true] using h

theorem arm_eq_output_iff (a o : String) :
    arm a = .output o ↔ startsWith a "-Fo" = true ∧ o = ⟨a.data.drop 3⟩ := by
  constructor
  · intro h
    simp only [arm, ite_eq_iff, reduceCtorEq, and_false, false_and, or_false, false_or,
      Arm.output.injEq] at h
    obtain ⟨-, hFo, rfl⟩ := h
    exact ⟨hFo, rfl⟩
  · rintro ⟨h, rfl⟩
    have h₁ : a ≠ "-c" := by rintro rfl; exact absurd h (by decide)
    simp [arm, h₁, h]

theorem arm_eq_forcedInclude_iff (a : String) : arm a = .forcedInclude ↔ a = "-FI" := by
  refine ⟨fun h => ?_, by rintro rfl; rfl⟩
  simp only [arm, ite_eq_iff, reduceCtorEq, and_false, false_and, or_false, false_or,
    and_true] at h
  obtain ⟨-, -, hFI⟩ := h
  exact hFI

theorem arm_eq_depfile_iff (a d : String) :
    arm a = .depfile d ↔ startsWith a "-deps" = true ∧ d = ⟨a.data.drop 5⟩ := by
  constructor
  · intro h
    simp only [arm, ite_eq_iff, reduceCtorEq, and_false, false_and, or_false, false_or,
      Arm.depfile.injEq] at h
    obtain ⟨-, -, -, hdeps, rfl⟩ := h
    exact ⟨hdeps, rfl⟩
  · rintro ⟨h, rfl⟩
    have hne := ne_of_test (startsWith · "-deps") h (l := ["-c", "-FI"]) (by decide)
    simp only [List.mem_cons, List.mem_singleton, List.not_mem_nil, or_false, forall_eq_or_imp,
      forall_eq] at hne
    simp [arm, hne, h, startsWith_eq_false_of_startsWith "-Fo" h (by decide) (by decide)]

theorem arm_eq_showIncludes_iff (a : String) : arm a = .showIncludes ↔ a = "-showIncludes" := by
  refine ⟨fun h => ?_, by rintro rfl; rfl⟩
  simp only [arm, ite_eq_iff, reduceCtorEq, and_false, false_and, or_false, false_or,
    and_true] at h
  obtain ⟨-, -, -, -, hshow⟩ := h
  exact hshow

theorem arm_eq_responseFile_iff (a : String) :
    arm a = .responseFile ↔ startsWith a "@" = true := by
  constructor
  · intro h
    simp only [arm, ite_eq_iff, reduceCtorEq, and_false, false_and, or_false, false_or,
      and_true] at h
    obtain ⟨-, -, -, -, -, hat⟩ := h
    exact hat
  · intro h
    have hne := ne_of_test (startsWith · "@") h (l := ["-c", "-FI", "-showIncludes"]) (by decide)
    simp only [List.mem_cons, List.mem_singleton, List.not_mem_nil, or_false, forall_eq_or_imp,
      forall_eq] at hne
    simp [arm, hne, h, startsWith_eq_false_of_startsWith "-Fo" h (by decide) (by decide),
      startsWith_eq_false_of_startsWith "-deps" h (by decide) (by decide)]

theorem arm_eq_extraOutput_iff (a : String) :
    arm a = .extraOutput ↔ a ∈ ["-FA", "-Fa", "-Fe", "-Fm", "-Fp", "-FR", "-Fx"] := by
  constructor
  · intro h
    simp only [arm, ite_eq_iff, reduceCtorEq, and_false, false_and, or_false, false_or,
      and_true] at h
    obtain ⟨-, -, -, -, -, -, hmem⟩ := h
    exact hmem
  · revert a; decide

theorem arm_eq_debugInfo_iff (a : String) : arm a = .debugInfo ↔ a = "-Zi" := by
  refine ⟨fun h => ?_, by rintro rfl; rfl⟩
  simp only [arm, ite_eq_iff, reduceCtorEq, and_false, false_and, or_false, false_or,
    and_true] at h
  obtain ⟨-, -, -, -, -, -, -, hZi⟩ := h
  exact hZi

theorem arm_eq_pdb_iff (a p : String) :
    arm a = .pdb p ↔ startsWith a "-Fd" = true ∧ p = ⟨a.data.drop 3⟩ := by
  constructor
  · intro h
    simp only [arm, ite_eq_iff, reduceCtorEq, and_false, false_and, or_false, false_or,
      Arm.pdb.injEq] at h
    obtain ⟨-, -, -, -, -, -, -, -, hFd, rfl⟩ := h
    exact ⟨hFd, rfl⟩
  · rintro ⟨h, rfl⟩
    have hne := ne_of_test (startsWith · "-Fd") h
      (l := ["-c", "-FI", "-showIncludes", "-FA", "-Fa", "-Fe", "-Fm", "-Fp", "-FR", "-Fx", "-Zi"])
      (by decide)
    simp only [List.mem_cons, List.mem_singleton, List.not_mem_nil, or_false, forall_eq_or_imp,
      forall_eq] at hne
    simp [arm, hne, h, startsWith_eq_false_of_startsWith "-Fo" h (by decide) (by decide),
      startsWith_eq_false_of_startsWith "-deps" h (by decide) (by decide),
      startsWith_eq_false_of_startsWith "@" h (by decide) (by decide)]

theorem arm_eq_input_iff (a : String) : arm a = .input ↔ isInputToken a = true := by
  constructor
  · intro h
    simp only [arm, ite_eq_iff, reduceCtorEq, and_false, false_and, or_false, false_or,
      and_true] at h
    obtain ⟨-, -, -, -, -, h₆, -, -, -, h₁₀⟩ := h
    exact isInputToken_of_arm_input h₁₀ h₆
  · intro h
    have hne := ne_of_test isInputToken h
      (l := ["-c", "-FI", "-showIncludes", "-FA", "-Fa", "-Fe", "-Fm", "-Fp", "-FR", "-Fx", "-Zi"])
      (by decide)
    have hat : startsWith a "@" = false :=
      Bool.eq_false_iff.2 fun hs => by simp [isInputToken_of_startsWith_at hs] at h
    have hdash : (startsWith a "-" && 1 < len a) = false := by
      rcases a with ⟨_ | ⟨c, _ | ⟨d, t⟩⟩⟩
      · rfl
      · by_cases hc : c = '-'
        · subst hc; rfl
        · simp [startsWith, Ne.symm hc]
      · have hc : c ≠ '-' := by simp [isInputToken] at h; exact h.1
        simp [startsWith, Ne.symm hc]
    simp only [List.mem_cons, List.mem_singleton, List.not_mem_nil, or_false, forall_eq_or_imp,
      forall_eq] at hne
    simp [arm, hne, hat, hdash, startsWith_eq_false_of_isInputToken h "-Fo" 'F' ['o'] rfl,
      startsWith_eq_false_of_isInputToken h "-deps" 'd' ['e', 'p', 's'] rfl,
      startsWith_eq_false_of_isInputToken h "-Fd" 'F' ['d'] rfl]

/-- The three arms that end the scan. -/
def Arm.rejects : Arm → Bool
  | .showIncludes | .responseFile | .extraOutput => true
  | _ => false

theorem arm_rejects_iff (a : String) : (arm a).rejects = true ↔ isRejected a = true := by
  simp only [isRejected, Bool.or_eq_true, decide_eq_true_eq, ← arm_eq_showIncludes_iff,
    ← arm_eq_responseFile_iff, ← arm_eq_extraOutput_iff]
  cases arm a <;> simp [Arm.rejects]

/-- The variables of `parse_arguments`'s loop. -/
structure ScanState where
  outputArg : Option String := none
  inputArg : Option String := none
  commonArgs : List String := []
  compilation : Bool := false
  debugInfo : Bool := false
  pdb : Option String := none
  depfile : Option String := none
  deriving DecidableEq, Repr

/-- `common_args.push(arg)`. -/
def ScanState.push (s : ScanState) (a : String) : ScanState :=
  { s with commonArgs := s.commonArgs ++ [a] }

/-- The loop of `parse_arguments`; `.error` is a `return` out of it. The `-FI` arm calls
`it.next()` once more, which is the match on the rest of the list. -/
def scan (s : ScanState) : List String → Except CompilerArguments ScanState
  | [] => .ok s
  | arg :: it =>
    match arm arg, it with
    | .compile, it => scan { s with compilation := true } it
    | .output o, it => scan { s with outputArg := some o } it
    | .forcedInclude, [] => .ok (s.push arg)
    | .forcedInclude, argVal :: it => scan ((s.push arg).push argVal) it
    | .depfile d, it => scan { s with depfile := some d } it
    | .showIncludes, _ | .responseFile, _ | .extraOutput, _ => .error .cannotCache
    | .debugInfo, it => scan { s.push arg with debugInfo := true } it
    | .pdb p, it => scan { s.push arg with pdb := some p } it
    | .other, it => scan (s.push arg) it
    | .input, it =>
      match s.inputArg with
      | some _ => .error .cannotCache
      | none => scan { s with inputArg := some arg } it

/-- The checks of `parse_arguments` after its loop. -/
def validate (host : Host) (s : ScanState) : CompilerArguments :=
  if !s.compilation then .notCompilation
  else
    match s.inputArg with
    | none => .cannotCache
    | some i =>
      match Path.extension host i with
      | none => .cannotCache
      | some e =>
        match s.outputArg with
        | none => .cannotCache
        | some o =>
          let outputs := OutputMap.empty.insert "obj" o
          if s.debugInfo then
            match s.pdb with
            | some p => .ok ⟨i, e, s.depfile, outputs.insert "pdb" p, [], s.commonArgs⟩
            | none => .cannotCache
          else .ok ⟨i, e, s.depfile, outputs, [], s.commonArgs⟩

/-- `parse_arguments`. -/
def parseArguments (host : Host) (arguments : List String) : CompilerArguments :=
  match scan {} arguments with
  | .error verdict => verdict
  | .ok s => validate host s

end Sccache
