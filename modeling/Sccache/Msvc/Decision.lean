import Sccache.Msvc.Classifier

set_option autoImplicit false

/-! # What the classifier decides

`parse_arguments` is a loop with early returns over a mutable state. What it decides is
simpler to say: read the tokens at rule positions as a set of flags and options, and pass
the kept tokens through. `classify` says this directly, from the rule-position tokens and
the pass-through list alone, and `parseArguments_eq_classify` shows that the loop computes
exactly it, for every argument list and every verdict.

The loop's order of checks after the scan (input, extension, output, `.pdb`) does not show
in `classify`, which takes them together: any failing check gives `CannotCache`.

A consequence is that the value after a rule-position `-FI` is never read as an option or
an input: it reaches only the pass-through list (`parseArguments_FI_value`). Another is that
an option the classifier does not know never changes the verdict
(`parseArguments_insert_other`).
-/

namespace Sccache

/-! ## The decision -/

/-- What `parse_arguments` decides from the rule-position tokens `R`, with `K` as the
pass-through list: a rejected token or a second input makes the compile uncacheable;
without `-c` it is no compile; otherwise it needs one input with an extension and an `-Fo`,
and with `-Zi` also an `-Fd`. The last `-Fo`, `-Fd` and `-deps` count. -/
def classify (host : Host) (R K : List String) : CompilerArguments :=
  if R.any isRejected || 1 < (R.filter isInputToken).length then .cannotCache
  else if "-c" ∉ R then .notCompilation
  else
    match R.filter isInputToken, lastAfter "-Fo" R with
    | [i], some o =>
      match Path.extension host i with
      | none => .cannotCache
      | some e =>
        let outputs := OutputMap.empty.insert "obj" o
        if "-Zi" ∈ R then
          match lastAfter "-Fd" R with
          | some d => .ok ⟨i, e, lastAfter "-deps" R, outputs.insert "pdb" d, [], K⟩
          | none => .cannotCache
        else .ok ⟨i, e, lastAfter "-deps" R, outputs, [], K⟩
    | _, _ => .cannotCache

/-- A compile with no input among its rule-position tokens cannot be cached. -/
theorem classify_of_no_input {host : Host} {R : List String} (K : List String) (hc : "-c" ∈ R)
    (hin : R.filter isInputToken = []) : classify host R K = .cannotCache := by
  simp [classify, hc, hin]

/-! ## The loop computes the decision -/

/-- The checks after the loop, on the loop variables in their closed form, are the decision
on a scan that ran to the end. -/
theorem validate_closedForm {host : Host} (R K : List String)
    (hl : (R.filter isInputToken).length ≤ 1) (hr : R.any isRejected = false) :
    validate host ⟨lastAfter "-Fo" R, (R.filter isInputToken).head?, K, decide ("-c" ∈ R),
      decide ("-Zi" ∈ R), lastAfter "-Fd" R, lastAfter "-deps" R⟩ = classify host R K := by
  have hl' : ¬ 1 < (R.filter isInputToken).length := by omega
  unfold classify
  simp only [hr, hl', decide_False, Bool.or_false, Bool.false_eq_true, if_false]
  by_cases hc : "-c" ∈ R
  · simp only [hc, not_true_eq_false, if_false]
    generalize R.filter isInputToken = F at hl
    match F, hl with
    | [], _ => simp [validate, hc]
    | [i], _ =>
      cases hFo : lastAfter "-Fo" R <;> cases he : Path.extension host i <;>
        cases hFd : lastAfter "-Fd" R <;> simp [validate, hc, hFo, he, hFd]
  · simp [validate, hc]

/-- `parse_arguments` is the decision on the rule-position tokens and the kept tokens of its
argument list. -/
theorem parseArguments_eq_classify_of {host : Host} (args R K : List String)
    (hR : ruleTokens args = R) (hK : keptTokens args = K) :
    parseArguments host args = classify host R K := by
  subst hR hK
  unfold parseArguments
  cases h : scan {} args with
  | error v =>
    have hstop : (((ruleTokens args).any isRejected ||
        decide (1 < ((ruleTokens args).filter isInputToken).length))) = true := by
      by_contra hne
      simp only [Bool.not_eq_true, Bool.or_eq_false_iff, List.any_eq_false,
        decide_eq_false_iff_not, not_lt] at hne
      exact nomatch h.symm.trans ((scan_eq_ok_iff args _).2
        ⟨fun a ha => by simpa using hne.1 a ha, hne.2, rfl⟩)
    simp [classify, hstop, scan_eq_error h]
  | ok s =>
    obtain ⟨hr, hl, rfl⟩ := (scan_eq_ok_iff args s).1 h
    exact validate_closedForm _ _ hl (by simpa using hr)

/-- `parse_arguments` decides every argument list from its rule-position tokens alone, with
its kept tokens as the pass-through list: the loop with its early returns computes
`classify`. -/
theorem parseArguments_eq_classify {host : Host} (args : List String) :
    parseArguments host args = classify host (ruleTokens args) (keptTokens args) :=
  parseArguments_eq_classify_of args _ _ rfl rfl

/-! ## The value of `-FI` -/

/-- Around a rule-position `-FI` with its value, the rule-position tokens are those of the
two sides, and the kept tokens are those of the two sides with the `-FI` and its value
between them. -/
theorem ruleTokens_keptTokens_FI (l r : List String) (v : String)
    (hl : (slots l).getLast? ≠ some (.rule, "-FI")) :
    ruleTokens (l ++ "-FI" :: v :: r) = ruleTokens l ++ "-FI" :: ruleTokens r ∧
      keptTokens (l ++ "-FI" :: v :: r) = keptTokens l ++ "-FI" :: v :: keptTokens r := by
  have hs : slots (l ++ "-FI" :: v :: r) = slots l ++ (.rule, "-FI") :: (.value, v) :: slots r := by
    rw [slots_append l _ hl, slots_FI_cons]
  have hFI : isDropped (.rule, "-FI") = false := by decide
  have hv : isDropped (.value, v) = false := rfl
  constructor
  · simp [ruleTokens, hs]
  · simp [keptTokens, hs, List.filter_cons, hFI, hv]

/-- The value after a rule-position `-FI` is never read as an option or an input: whatever
it is, the decision is made on the other rule-position tokens, and the value only reaches
the pass-through list, at its place after the `-FI`. -/
theorem parseArguments_FI_value {host : Host} (l r : List String) (v : String)
    (hl : (slots l).getLast? ≠ some (.rule, "-FI")) :
    parseArguments host (l ++ "-FI" :: v :: r) =
      classify host (ruleTokens l ++ "-FI" :: ruleTokens r) (keptTokens l ++ "-FI" :: v :: keptTokens r) :=
  parseArguments_eq_classify_of _ _ _ (ruleTokens_keptTokens_FI l r v hl).1
    (ruleTokens_keptTokens_FI l r v hl).2

theorem parseArguments_FI_value_showIncludes :
    (slots ["-c"]).getLast? ≠ some (.rule, "-FI") ∧
    parseArguments .unix (["-c"] ++ "-FI" :: "-showIncludes" :: ["foo.c", "-Fofoo.obj"]) =
      classify .unix (ruleTokens ["-c"] ++ "-FI" :: ruleTokens ["foo.c", "-Fofoo.obj"])
        (keptTokens ["-c"] ++ "-FI" :: "-showIncludes" :: keptTokens ["foo.c", "-Fofoo.obj"]) :=
  ⟨by decide, parseArguments_FI_value ["-c"] ["foo.c", "-Fofoo.obj"] "-showIncludes" (by decide)⟩

/-! ## Options the classifier does not know

An option that takes the catch-all arm `v if v.starts_with('-') && v.len() > 1` is passed
through and read by nothing else: inserting one never changes the verdict
(`parseArguments_insert_other`). -/

/-- The pass-through list reaches `classify`'s verdict only as the `common_args` of an
`Ok`. -/
theorem classify_commonArgs {host : Host} (R K K' : List String) :
    classify host R K = match classify host R K' with
      | .ok p => .ok { p with commonArgs := K }
      | v => v := by
  unfold classify
  split_ifs <;> try rfl
  all_goals
    split <;> try rfl
    split <;> try rfl
  split <;> rfl

/-- The tests an option that takes the catch-all arm fails. -/
theorem fails_tests_of_arm_eq_other {t : String} (ht : arm t = .other) :
    t ≠ "-c" ∧ startsWith t "-Fo" = false ∧ t ≠ "-FI" ∧ startsWith t "-deps" = false ∧
      t ≠ "-Zi" ∧ startsWith t "-Fd" = false ∧ isRejected t = false ∧
      isInputToken t = false := by
  refine ⟨fun h => ?_, Bool.eq_false_iff.2 fun h => ?_, fun h => ?_,
    Bool.eq_false_iff.2 fun h => ?_, fun h => ?_, Bool.eq_false_iff.2 fun h => ?_,
    Bool.eq_false_iff.2 fun h => ?_, Bool.eq_false_iff.2 fun h => ?_⟩
  · simp [(arm_eq_compile_iff t).2 h] at ht
  · simp [(arm_eq_output_iff t _).2 ⟨h, rfl⟩] at ht
  · simp [(arm_eq_forcedInclude_iff t).2 h] at ht
  · simp [(arm_eq_depfile_iff t _).2 ⟨h, rfl⟩] at ht
  · simp [(arm_eq_debugInfo_iff t).2 h] at ht
  · simp [(arm_eq_pdb_iff t _).2 ⟨h, rfl⟩] at ht
  · simpa [ht, Arm.rejects] using (arm_rejects_iff t).2 h
  · simp [(arm_eq_input_iff t).2 h] at ht

/-- A rule-position option of the catch-all arm is read by none of the tests `classify`
makes. -/
theorem classify_insert_other {host : Host} {t : String} (ht : arm t = .other)
    (Rl Rr K : List String) : classify host (Rl ++ t :: Rr) K = classify host (Rl ++ Rr) K := by
  obtain ⟨hc, hFo, -, hdeps, hZi, hFd, hrej, hin⟩ := fails_tests_of_arm_eq_other ht
  have hlast : ∀ pre, startsWith t pre = false →
      lastAfter pre (Rl ++ t :: Rr) = lastAfter pre (Rl ++ Rr) := fun pre h => by
    simp [lastAfter, List.filter_append, List.filter_cons, h]
  simp only [classify, hlast _ hFo, hlast _ hFd, hlast _ hdeps, List.any_append, List.any_cons,
    hrej, List.filter_append, List.filter_cons, hin, List.mem_append, List.mem_cons, Ne.symm hc,
    Ne.symm hZi, Bool.false_or, false_or]
  rfl

/-- Around a rule-position option of the catch-all arm, the rule-position and kept tokens
are those of the two sides with the option between them, and without it those of the two
sides. -/
theorem ruleTokens_keptTokens_other {t : String} (ht : arm t = .other) (l r : List String)
    (hl : (slots l).getLast? ≠ some (.rule, "-FI")) :
    ruleTokens (l ++ t :: r) = ruleTokens l ++ t :: ruleTokens r ∧
      keptTokens (l ++ t :: r) = keptTokens l ++ t :: keptTokens r ∧
      ruleTokens (l ++ r) = ruleTokens l ++ ruleTokens r ∧
      keptTokens (l ++ r) = keptTokens l ++ keptTokens r := by
  obtain ⟨hc, hFo, hFI, hdeps, -, -, -, hin⟩ := fails_tests_of_arm_eq_other ht
  have hs : slots (l ++ t :: r) = slots l ++ (.rule, t) :: slots r := by
    rw [slots_append l _ hl, slots_cons_of_ne hFI]
  have hd : isDropped (.rule, t) = false := by simp [isDropped, hc, hFo, hdeps, hin]
  refine ⟨by simp [ruleTokens, hs], by simp [keptTokens, hs, List.filter_cons, hd], ?_, ?_⟩ <;>
    simp [ruleTokens, keptTokens, slots_append l r hl]

/-- An option `parse_arguments` does not know, inserted at a rule position anywhere in an
argument list, never changes the verdict: the list with it is classified as the list without
it, and only the pass-through list gains the option, at its place. -/
theorem parseArguments_insert_other {host : Host} (l r : List String) (t : String)
    (ht : arm t = .other) (hl : (slots l).getLast? ≠ some (.rule, "-FI")) :
    parseArguments host (l ++ t :: r) =
      match parseArguments host (l ++ r) with
      | .ok p => .ok { p with commonArgs := keptTokens l ++ t :: keptTokens r }
      | v => v := by
  obtain ⟨hR, hK, hR', hK'⟩ := ruleTokens_keptTokens_other ht l r hl
  rw [parseArguments_eq_classify_of _ _ _ hR hK, parseArguments_eq_classify_of _ _ _ hR' hK',
    classify_insert_other ht, ← classify_commonArgs]

theorem parseArguments_insert_other_W4 :
    let l := ["-c", "foo.c"]
    let r := ["-Fofoo.obj"]
    arm "-W4" = .other ∧ (slots l).getLast? ≠ some (.rule, "-FI") ∧
    parseArguments .unix (l ++ "-W4" :: r) =
      match parseArguments .unix (l ++ r) with
      | .ok p => .ok { p with commonArgs := keptTokens l ++ "-W4" :: keptTokens r }
      | v => v :=
  ⟨by decide, by decide, parseArguments_insert_other _ _ _ (by decide) (by decide)⟩

end Sccache
