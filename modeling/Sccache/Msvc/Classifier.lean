import Sccache.Msvc.Arguments

set_option autoImplicit false

/-! # What the classifier accepts

`parseArguments` characterised over every argument list. The scan reads each token at
one of two kinds of position: at a rule position the token is matched against the arms;
at a value position it is the value of the `-FI` just before it. `slots` labels every
token with its kind of position without running the scan, and `ruleTokens` lists the
rule-position tokens.

The source's loop is then one fold over the labelled tokens (`scan_eq`): a slot either
ends the scan (`ScanState.stops`) or changes the loop variables (`ScanState.absorb`).
Each variable has a closed form after the fold (`foldl_absorb`), in terms of the arms;
`lastAfter_eq` and its siblings restate the arms in the words of the tests (`-c`,
`-Fo…`). The verdict then follows from `validate`.
-/

namespace Sccache

/-! ## Rule and value positions -/

/-- The kind of position a token is at. -/
inductive Slot where
  | rule
  | value
  deriving DecidableEq, Repr

/-- Every token of an argument list with the kind of position it is at, left to right: a
token is at a value position exactly when the token before it is a rule-position `-FI`. -/
def slots : List String → List (Slot × String)
  | [] => []
  | a :: rest =>
    if a = "-FI" then
      match rest with
      | [] => [(.rule, a)]
      | v :: rest => (.rule, a) :: (.value, v) :: slots rest
    else (.rule, a) :: slots rest

/-- The tokens at rule positions among some slots. -/
def rules (xs : List (Slot × String)) : List String :=
  xs.filterMap fun x => if x.1 = .rule then some x.2 else none

/-- The rule-position tokens of an argument list. -/
def ruleTokens (args : List String) : List String := rules (slots args)

/-- The text after `pre` in the last token that begins with `pre`. -/
def lastAfter (pre : String) (toks : List String) : Option String :=
  (toks.filter (startsWith · pre)).getLast?.map fun a => ⟨a.data.drop pre.data.length⟩

/-- The slots whose token is left out of the pass-through list: a rule-position `-c`,
`-Fo…`, `-deps…` or input. -/
def isDropped : Slot × String → Bool
  | (.rule, a) => a == "-c" || startsWith a "-Fo" || startsWith a "-deps" || isInputToken a
  | (.value, _) => false

/-- The tokens of `args` that are not dropped, in order. -/
def keptTokens (args : List String) : List String :=
  ((slots args).filter fun x => !isDropped x).map Prod.snd

@[simp] theorem slots_nil : slots [] = [] := rfl

theorem slots_cons_of_ne {a : String} (h : a ≠ "-FI") (rest : List String) :
    slots (a :: rest) = (.rule, a) :: slots rest := by
  conv_lhs => unfold slots
  simp [h]

theorem slots_FI_cons (v : String) (rest : List String) :
    slots ("-FI" :: v :: rest) = (.rule, "-FI") :: (.value, v) :: slots rest := by
  conv_lhs => unfold slots
  simp

/-- Labelling changes no token: the slots list `args` in order. -/
theorem slots_map_snd (args : List String) : (slots args).map Prod.snd = args := by
  induction args using slots.induct with
  | case1 => rfl
  | case2 => rfl
  | case3 v rest ih => simp [slots_FI_cons, ih]
  | case4 a rest h ih => simp [slots_cons_of_ne h, ih]

/-- The labels of two lists side by side are the labels of each, unless the first ends with a
`-FI` waiting for its value. -/
theorem slots_append (l r : List String) (h : (slots l).getLast? ≠ some (.rule, "-FI")) :
    slots (l ++ r) = slots l ++ slots r := by
  induction l using slots.induct with
  | case1 => rfl
  | case2 => exact absurd rfl h
  | case3 v rest ih =>
    rw [slots_FI_cons] at h
    rw [List.cons_append, List.cons_append, slots_FI_cons, slots_FI_cons,
      ih fun hr => h (by simp [List.getLast?_cons, hr])]
    rfl
  | case4 a rest ha ih =>
    rw [slots_cons_of_ne ha] at h
    rw [List.cons_append, slots_cons_of_ne ha, slots_cons_of_ne ha,
      ih fun hr => h (by simp [List.getLast?_cons, hr])]
    rfl

@[simp] theorem rules_nil : rules [] = [] := rfl

@[simp] theorem rules_cons_rule (a : String) (xs : List (Slot × String)) :
    rules ((.rule, a) :: xs) = a :: rules xs := by
  simp [rules]

@[simp] theorem rules_cons_value (v : String) (xs : List (Slot × String)) :
    rules ((.value, v) :: xs) = rules xs := by
  simp [rules]

@[simp] theorem rules_append (xs ys : List (Slot × String)) :
    rules (xs ++ ys) = rules xs ++ rules ys := by
  simp [rules, List.filterMap_append]

/-! ## The loop as a fold over slots -/

namespace Arm

/-- The output path of an `-Fo` arm. -/
def outputVal : Arm → Option String
  | .output o => some o
  | _ => none

/-- The dependency file of a `-deps` arm. -/
def depfileVal : Arm → Option String
  | .depfile d => some d
  | _ => none

/-- The debug-symbols path of an `-Fd` arm. -/
def pdbVal : Arm → Option String
  | .pdb p => some p
  | _ => none

/-- The arms that push their token onto `common_args`. -/
def pushes : Arm → Bool
  | .forcedInclude | .debugInfo | .pdb _ | .other => true
  | _ => false

end Arm

namespace ScanState

/-- What one slot does to the loop variables when it does not end the scan. -/
def absorb (s : ScanState) : Slot × String → ScanState
  | (.value, v) => s.push v
  | (.rule, a) =>
    match arm a with
    | .compile => { s with compilation := true }
    | .output o => { s with outputArg := some o }
    | .forcedInclude | .other => s.push a
    | .depfile d => { s with depfile := some d }
    | .debugInfo => { s.push a with debugInfo := true }
    | .pdb p => { s.push a with pdb := some p }
    | .input => { s with inputArg := some a }
    | .showIncludes | .responseFile | .extraOutput => s

/-- Whether a slot ends the scan: a rejecting arm, or an input after the first. -/
def stops (s : ScanState) : Slot × String → Bool
  | (.value, _) => false
  | (.rule, a) => (arm a).rejects || (arm a == .input && s.inputArg.isSome)

/-- Whether some slot ends the scan. -/
def stopsIn (s : ScanState) : List (Slot × String) → Bool
  | [] => false
  | x :: xs => s.stops x || (s.absorb x).stopsIn xs

end ScanState

/-- The token a slot adds to `common_args`. -/
def pushed : Slot × String → Option String
  | (.value, v) => some v
  | (.rule, a) => if (arm a).pushes then some a else none

/-- One token of the loop that is no `-FI`: it either ends the scan or is absorbed. -/
theorem scan_cons_of_ne (s : ScanState) {a : String} (h : a ≠ "-FI") (it : List String) :
    scan s (a :: it) = if s.stops (.rule, a) then .error .cannotCache
      else scan (s.absorb (.rule, a)) it := by
  have hFI : arm a ≠ .forcedInclude := by rwa [ne_eq, arm_eq_forcedInclude_iff]
  conv_lhs => unfold scan
  simp only [ScanState.stops, ScanState.absorb]
  generalize arm a = x at hFI ⊢
  cases x
  case forcedInclude => exact absurd rfl hFI
  case input => cases s.inputArg <;> rfl
  all_goals rfl

/-- The source's loop is a fold over the slots: it stops at the first slot that ends the
scan, and otherwise absorbs every slot in order. -/
theorem scan_eq (s : ScanState) (args : List String) :
    scan s args = if s.stopsIn (slots args) then .error .cannotCache
      else .ok ((slots args).foldl ScanState.absorb s) := by
  have hFI : arm "-FI" = .forcedInclude := rfl
  induction args using slots.induct generalizing s with
  | case1 => rfl
  | case2 => simp [scan, hFI, slots, ScanState.stopsIn, ScanState.stops, ScanState.absorb, Arm.rejects]
  | case3 v rest ih =>
    rw [slots_FI_cons]
    conv_lhs => unfold scan
    simp [ih, ScanState.stopsIn, ScanState.stops, ScanState.absorb, Arm.rejects, hFI]
  | case4 a rest ha ih =>
    rw [scan_cons_of_ne s ha, slots_cons_of_ne ha]
    cases hs : s.stops (.rule, a) <;> simp [ScanState.stopsIn, hs, ih]

/-- What a rule slot does to the input seen so far. -/
theorem absorb_inputArg (s : ScanState) (a : String) :
    (s.absorb (.rule, a)).inputArg = if arm a = .input then some a else s.inputArg := by
  cases ha : arm a <;> simp [ScanState.absorb, ScanState.push, ha]

/-- The scan stops exactly at a rejecting token or at a second input. -/
theorem stopsIn_iff (s : ScanState) (xs : List (Slot × String)) :
    s.stopsIn xs = true ↔ (∃ a ∈ rules xs, (arm a).rejects = true) ∨
      1 < ((rules xs).filter (arm · = .input)).length + s.inputArg.isSome.toNat := by
  induction xs generalizing s with
  | nil => cases s.inputArg <;> simp [ScanState.stopsIn]
  | cons x xs ih =>
    obtain ⟨_ | _, a⟩ := x
    · rw [ScanState.stopsIn, Bool.or_eq_true, ih, absorb_inputArg]
      by_cases hin : arm a = .input
      · have hr : Arm.input.rejects = false := rfl
        cases hi : s.inputArg <;> simp [ScanState.stops, hin, hr, hi, List.filter_cons]
      · simp [ScanState.stops, hin, List.filter_cons, or_assoc]
    · simp [ScanState.stopsIn, ScanState.stops, ScanState.absorb, ScanState.push, ih]

/-- The loop variables after a run of slots: each path is the one set last, each flag is
set when some slot set it, and `common_args` gains the pushed tokens in order. -/
theorem foldl_absorb (s : ScanState) (xs : List (Slot × String)) :
    xs.foldl ScanState.absorb s =
      { outputArg := ((rules xs).reverse.findSome? (Arm.outputVal ∘ arm)).or s.outputArg
        inputArg := ((rules xs).reverse.find? (arm · = .input)).or s.inputArg
        commonArgs := s.commonArgs ++ xs.filterMap pushed
        compilation := s.compilation || (rules xs).any (arm · = .compile)
        debugInfo := s.debugInfo || (rules xs).any (arm · = .debugInfo)
        pdb := ((rules xs).reverse.findSome? (Arm.pdbVal ∘ arm)).or s.pdb
        depfile := ((rules xs).reverse.findSome? (Arm.depfileVal ∘ arm)).or s.depfile } := by
  induction xs generalizing s with
  | nil => simp
  | cons x xs ih =>
    obtain ⟨_ | _, a⟩ := x
    · cases h : arm a <;>
        simp [ih, h, ScanState.absorb, ScanState.push, pushed, Arm.pushes, Arm.outputVal,
          Arm.pdbVal, Arm.depfileVal, List.find?_append, List.findSome?_append, Option.or_assoc]
    · simp [ih, ScanState.absorb, ScanState.push, pushed]

/-! ## The arms in the words of the tests -/

/-- The value of an `-Fo`, `-deps` or `-Fd` arm is the text after its prefix, and a token
with that prefix takes that arm. -/
theorem armVal_eq (f : Arm → Option String) (pre : String) (mk : String → Arm)
    (hf : ∀ x, f (mk x) = some x) (hf' : ∀ b, (∀ x, b ≠ mk x) → f b = none)
    (hiff : ∀ a x, arm a = mk x ↔ startsWith a pre = true ∧ x = ⟨a.data.drop pre.data.length⟩)
    (a : String) :
    f (arm a) = if startsWith a pre then some ⟨a.data.drop pre.data.length⟩ else none := by
  by_cases h : startsWith a pre = true
  · rw [(hiff a _).2 ⟨h, rfl⟩, hf, if_pos h]
  · rw [if_neg h, hf']
    intro x hx
    exact h ((hiff a x).1 hx).1

theorem outputVal_arm (a : String) :
    (arm a).outputVal = if startsWith a "-Fo" then some ⟨a.data.drop 3⟩ else none :=
  armVal_eq Arm.outputVal "-Fo" Arm.output (fun _ => rfl)
    (fun b hb => by cases b <;> simp_all [Arm.outputVal]) arm_eq_output_iff a

theorem pdbVal_arm (a : String) :
    (arm a).pdbVal = if startsWith a "-Fd" then some ⟨a.data.drop 3⟩ else none :=
  armVal_eq Arm.pdbVal "-Fd" Arm.pdb (fun _ => rfl)
    (fun b hb => by cases b <;> simp_all [Arm.pdbVal]) arm_eq_pdb_iff a

theorem depfileVal_arm (a : String) :
    (arm a).depfileVal = if startsWith a "-deps" then some ⟨a.data.drop 5⟩ else none :=
  armVal_eq Arm.depfileVal "-deps" Arm.depfile (fun _ => rfl)
    (fun b hb => by cases b <;> simp_all [Arm.depfileVal]) arm_eq_depfile_iff a

/-- The last token with a prefix, read right to left. -/
theorem lastAfter_eq (pre : String) (l : List String) :
    lastAfter pre l = l.reverse.findSome?
      fun a => if startsWith a pre then some ⟨a.data.drop pre.data.length⟩ else none := by
  rw [lastAfter, List.getLast?_eq_head?_reverse, ← List.filter_reverse]
  generalize l.reverse = l
  induction l with
  | nil => rfl
  | cons a l ih => by_cases h : startsWith a pre <;> simp_all [List.filter_cons]

/-- The arms that push their token are those of the kept tokens. -/
theorem pushes_arm (a : String) : (arm a).pushes =
    !(a == "-c" || startsWith a "-Fo" || startsWith a "-deps" || isInputToken a || isRejected a) := by
  have hc := arm_eq_compile_iff a
  have ho : startsWith a "-Fo" = true → arm a = .output ⟨a.data.drop 3⟩ :=
    fun h => (arm_eq_output_iff a _).2 ⟨h, rfl⟩
  have ho' : ∀ o, arm a = .output o → startsWith a "-Fo" = true :=
    fun o h => ((arm_eq_output_iff a o).1 h).1
  have hd : startsWith a "-deps" = true → arm a = .depfile ⟨a.data.drop 5⟩ :=
    fun h => (arm_eq_depfile_iff a _).2 ⟨h, rfl⟩
  have hd' : ∀ d, arm a = .depfile d → startsWith a "-deps" = true :=
    fun d h => ((arm_eq_depfile_iff a d).1 h).1
  have hi := arm_eq_input_iff a
  have hr := arm_rejects_iff a
  cases hX : arm a <;> simp_all [Arm.pushes, Arm.rejects]

theorem filter_arm_eq_input (l : List String) :
    l.filter (arm · = .input) = l.filter isInputToken := by
  congr 1; funext a; simp [arm_eq_input_iff]

theorem any_arm_eq {x : Arm} {lit : String} (h : ∀ a, arm a = x ↔ a = lit) (l : List String) :
    l.any (arm · = x) = decide (lit ∈ l) := by
  simp only [h]; rw [Bool.eq_iff_iff]; simp

/-- With at most one input, the input read right to left is the input read left to right. -/
theorem find?_reverse_of_length_le_one {p : String → Bool} {l : List String}
    (h : (l.filter p).length ≤ 1) : l.reverse.find? p = (l.filter p).head? := by
  rw [← List.filter_head?, List.filter_reverse]
  match l.filter p, h with
  | [], _ => rfl
  | [_], _ => rfl

/-- The pushed tokens of a scan with no rejected token are the kept ones. -/
theorem filterMap_pushed (xs : List (Slot × String)) (h : ∀ a ∈ rules xs, isRejected a = false) :
    xs.filterMap pushed = (xs.filter fun x => !isDropped x).map Prod.snd := by
  induction xs with
  | nil => rfl
  | cons x xs ih =>
    obtain ⟨_ | _, a⟩ := x
    · simp only [rules_cons_rule, List.mem_cons, forall_eq_or_imp] at h
      have hp : (arm a).pushes = !isDropped (.rule, a) := by simp [pushes_arm, isDropped, h.1]
      by_cases hd : isDropped (.rule, a) <;> simp [pushed, hp, hd, List.filter_cons, ih h.2]
    · simp_all [pushed, isDropped, List.filter_cons]

/-- The whole scan in the words of the tests: it runs to the end exactly when no
rule-position token is rejected and at most one is an input; each loop variable is then
read off the rule-position tokens. -/
theorem scan_eq_ok_iff (args : List String) (s : ScanState) :
    scan {} args = .ok s ↔
      (∀ a ∈ ruleTokens args, isRejected a = false) ∧
      ((ruleTokens args).filter isInputToken).length ≤ 1 ∧
      s = { outputArg := lastAfter "-Fo" (ruleTokens args)
            inputArg := ((ruleTokens args).filter isInputToken).head?
            commonArgs := keptTokens args
            compilation := decide ("-c" ∈ ruleTokens args)
            debugInfo := decide ("-Zi" ∈ ruleTokens args)
            pdb := lastAfter "-Fd" (ruleTokens args)
            depfile := lastAfter "-deps" (ruleTokens args) } := by
  have hstop := stopsIn_iff {} (slots args)
  simp only [filter_arm_eq_input, Option.isSome_none, Bool.toNat_false, Nat.add_zero] at hstop
  rw [scan_eq]
  by_cases hs : ScanState.stopsIn {} (slots args) = true
  · simp only [hs, if_true, reduceCtorEq, false_iff, not_and]
    intro hr hl
    rcases hstop.1 hs with ⟨a, ha, hra⟩ | hlt
    · exact absurd (hr a ha) (by simp [(arm_rejects_iff a).1 hra])
    · exact absurd hl (by unfold ruleTokens; omega)
  · have hr : ∀ a ∈ ruleTokens args, isRejected a = false := fun a ha => by
      cases h : isRejected a
      · rfl
      · exact absurd (hstop.2 (.inl ⟨a, ha, (arm_rejects_iff a).2 h⟩)) hs
    have hl : ((ruleTokens args).filter isInputToken).length ≤ 1 :=
      Nat.le_of_not_lt fun h => hs (hstop.2 (.inr h))
    have hfold : (slots args).foldl ScanState.absorb {} =
        { outputArg := lastAfter "-Fo" (ruleTokens args)
          inputArg := ((ruleTokens args).filter isInputToken).head?
          commonArgs := keptTokens args
          compilation := decide ("-c" ∈ ruleTokens args)
          debugInfo := decide ("-Zi" ∈ ruleTokens args)
          pdb := lastAfter "-Fd" (ruleTokens args)
          depfile := lastAfter "-deps" (ruleTokens args) } := by
      unfold ruleTokens keptTokens at *
      rw [foldl_absorb, filterMap_pushed _ hr,
        find?_reverse_of_length_le_one (by rwa [filter_arm_eq_input]), filter_arm_eq_input,
        any_arm_eq arm_eq_compile_iff, any_arm_eq arm_eq_debugInfo_iff, lastAfter_eq, lastAfter_eq,
        lastAfter_eq]
      simp [Function.comp_def, outputVal_arm, pdbVal_arm, depfileVal_arm]
    rw [if_neg hs, hfold]
    exact ⟨fun h => ⟨hr, hl, (Except.ok.inj h).symm⟩, fun ⟨_, _, h⟩ => h ▸ rfl⟩

theorem scan_eq_error {s : ScanState} {args : List String} {v : CompilerArguments}
    (h : scan s args = .error v) : v = .cannotCache := by
  rw [scan_eq] at h; split at h <;> cases h; rfl

theorem mem_of_mem_ruleTokens {a : String} {args : List String} (h : a ∈ ruleTokens args) :
    a ∈ args := by
  rw [← slots_map_snd args]
  obtain ⟨x, hx, hx'⟩ := List.mem_filterMap.1 h
  split at hx' <;> cases hx'
  exact List.mem_map_of_mem _ hx

/-! ## The verdict -/

theorem insert_obj_pdb (o d : String) : (OutputMap.empty.insert "obj" o).insert "pdb" d =
    ⟨fun k => if k = "obj" then some o else if k = "pdb" then some d else none⟩ := by
  ext1; funext k; by_cases h : k = "pdb" <;> simp [h]

theorem validate_eq_ok_iff {host : Host} (s : ScanState) (p : ParsedArguments) :
    validate host s = .ok p ↔ s.compilation = true ∧ ∃ i e o, s.inputArg = some i ∧
      Path.extension host i = some e ∧ s.outputArg = some o ∧ (s.debugInfo = true → s.pdb.isSome) ∧
      p = ⟨i, e, s.depfile, ⟨fun k => if k = "obj" then some o
        else if k = "pdb" ∧ s.debugInfo = true then s.pdb else none⟩, [], s.commonArgs⟩ := by
  rcases s with ⟨o?, i?, c, comp, dbg, pdb?, dep⟩
  cases comp
  · simp [validate]
  cases i? with
  | none => simp [validate]
  | some i =>
    cases he : Path.extension host i with
    | none => simp [validate, he]
    | some e =>
      cases o? with
      | none => simp [validate, he]
      | some o =>
        cases dbg <;> cases pdb? <;> simp [validate, he, eq_comm, insert_obj_pdb] <;> rfl

theorem parseArguments_eq_ok_iff_scan {host : Host} (args : List String) (p : ParsedArguments) :
    parseArguments host args = .ok p ↔ ∃ s, scan {} args = .ok s ∧ validate host s = .ok p := by
  unfold parseArguments
  cases h : scan {} args with
  | error v => simp [scan_eq_error h]
  | ok s => simp

/-- With at most one input, the first input is `i` exactly when `i` is the only one. -/
theorem head?_eq_some_iff_of_length_le_one {l : List String} (h : l.length ≤ 1) (i : String) :
    l.head? = some i ↔ l = [i] := by
  match l, h with
  | [], _ => simp
  | [j], _ => simp [eq_comm]

/-! ## What the classifier accepts and what it returns -/

/-- `parse_arguments` returns `Ok` exactly when no rule-position token is rejected, exactly
one is an input and has an extension, some is `-c`, some begins with `-Fo`, and `-Zi` comes
with `-Fd`. The parsed arguments are then read off the rule-position tokens: the last
`-Fo` and `-Fd` win, `"pdb"` is recorded exactly when `-Zi` is given, and the pass-through
tokens are the kept ones. -/
theorem parseArguments_eq_ok_iff {host : Host} (args : List String) (p : ParsedArguments) :
    parseArguments host args = .ok p ↔
      (∀ a ∈ ruleTokens args, isRejected a = false) ∧
      ∃ i e o, (ruleTokens args).filter isInputToken = [i] ∧ Path.extension host i = some e ∧
        "-c" ∈ ruleTokens args ∧ lastAfter "-Fo" (ruleTokens args) = some o ∧
        ("-Zi" ∈ ruleTokens args → (lastAfter "-Fd" (ruleTokens args)).isSome) ∧
        p = { input := i, extension := e, depfile := lastAfter "-deps" (ruleTokens args)
              outputs := ⟨fun k => if k = "obj" then some o
                else if k = "pdb" ∧ "-Zi" ∈ ruleTokens args then lastAfter "-Fd" (ruleTokens args)
                else none⟩
              preprocessorArgs := [], commonArgs := keptTokens args } := by
  rw [parseArguments_eq_ok_iff_scan]
  constructor
  · rintro ⟨s, hs, hv⟩
    obtain ⟨hr, hl, rfl⟩ := (scan_eq_ok_iff args s).1 hs
    obtain ⟨hc, i, e, o, hi, he, ho, hd, rfl⟩ := (validate_eq_ok_iff _ p).1 hv
    simp only [decide_eq_true_eq, head?_eq_some_iff_of_length_le_one hl] at hc hi hd
    exact ⟨hr, i, e, o, hi, he, hc, ho, hd, by simp⟩
  · rintro ⟨hr, i, e, o, hi, he, hc, ho, hd, rfl⟩
    refine ⟨_, (scan_eq_ok_iff args _).2 ⟨hr, by simp [hi], rfl⟩, (validate_eq_ok_iff _ _).2 ?_⟩
    exact ⟨by simpa using hc, i, e, o, by simp [hi], he, ho, by simpa using hd, by simp⟩

example : parseArguments .unix ["-c", "foo.c", "-Zi", "-Fofoo.obj"] = .cannotCache := rfl

/-- The pass-through list is `args` with exactly the rule-position `-c`, `-Fo…` and
`-deps…` tokens and the input deleted: every other token stays, once, in order. -/
theorem parseArguments_commonArgs {host : Host} (args : List String) (p : ParsedArguments)
    (h : parseArguments host args = .ok p) :
    p.commonArgs = ((slots args).filter fun x => !isDropped x).map Prod.snd ∧
      p.commonArgs.Sublist args := by
  obtain ⟨s, hs, hv⟩ := (parseArguments_eq_ok_iff_scan args p).1 h
  obtain ⟨-, -, rfl⟩ := (scan_eq_ok_iff args s).1 hs
  obtain ⟨-, -, -, -, -, -, -, -, rfl⟩ := (validate_eq_ok_iff _ p).1 hv
  refine ⟨rfl, ?_⟩
  conv_rhs => rw [← slots_map_snd args]
  exact (List.filter_sublist _).map _

theorem parseArguments_commonArgs_values :
    ∃ p, parseArguments .unix ["-c", "foo.c", "-FI", "-c", "-Fofoo.obj"] = .ok p ∧
      p.commonArgs = ((slots ["-c", "foo.c", "-FI", "-c", "-Fofoo.obj"]).filter
          fun x => !isDropped x).map Prod.snd ∧
      p.commonArgs.Sublist ["-c", "foo.c", "-FI", "-c", "-Fofoo.obj"] :=
  ⟨_, rfl, @parseArguments_commonArgs .unix _ _ rfl⟩

/-- An assembly listing flag with its file name attached is passed through: the compile is
accepted while the listing it writes is in no output of the map. -/
theorem parseArguments_attached_listing (host : Host) :
    "-Fafoo.asm" ∈ ruleTokens ["-c", "foo.c", "-Fofoo.obj", "-Fafoo.asm"] ∧
      startsWith "-Fafoo.asm" "-Fa" = true ∧
      ∃ p, parseArguments host ["-c", "foo.c", "-Fofoo.obj", "-Fafoo.asm"] = .ok p ∧
        p.commonArgs = ["-Fafoo.asm"] ∧ ∀ k, k ≠ "obj" → p.outputs.get k = none := by
  cases host <;> exact ⟨by decide, by decide, _, rfl, rfl, fun k hk => by simp [hk]⟩

/-- A list without `-c` is not always `NotCompilation`: `-showIncludes` ends the scan with
`CannotCache` before the compilation check. -/
theorem parseArguments_showIncludes_without_compile :
    (∀ a ∈ ["-showIncludes"], a ≠ "-c") ∧ parseArguments .unix ["-showIncludes"] ≠ .notCompilation :=
  ⟨by decide, fun h => nomatch (show CompilerArguments.cannotCache = .notCompilation from h)⟩

/-- Without `-c`, the verdict is `NotCompilation` when the scan runs to the end, and
`CannotCache` when a rejected token or a second input ends it first. -/
theorem parseArguments_without_compile {host : Host} (args : List String)
    (h : ∀ a ∈ args, a ≠ "-c") : parseArguments host args =
      if (∀ a ∈ ruleTokens args, isRejected a = false) ∧
          ((ruleTokens args).filter isInputToken).length ≤ 1
      then .notCompilation else .cannotCache := by
  have hc : "-c" ∉ ruleTokens args := fun hc => h _ (mem_of_mem_ruleTokens hc) rfl
  unfold parseArguments
  cases hs : scan {} args with
  | error v =>
    rw [scan_eq_error hs, if_neg]
    rintro ⟨hr, hl⟩
    cases hs.symm.trans ((scan_eq_ok_iff args _).2 ⟨hr, hl, rfl⟩)
  | ok s =>
    obtain ⟨hr, hl, rfl⟩ := (scan_eq_ok_iff args s).1 hs
    rw [if_pos ⟨hr, hl⟩]
    simp [validate, hc]

theorem parseArguments_without_compile_showIncludes :
    (∀ a ∈ ["-showIncludes"], a ≠ "-c") ∧
      parseArguments .unix ["-showIncludes"] =
        if (∀ a ∈ ruleTokens ["-showIncludes"], isRejected a = false) ∧
            ((ruleTokens ["-showIncludes"]).filter isInputToken).length ≤ 1
        then .notCompilation else .cannotCache :=
  ⟨by decide, parseArguments_without_compile _ (by decide)⟩

end Sccache
