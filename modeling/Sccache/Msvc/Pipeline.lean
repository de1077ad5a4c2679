import Sccache.Msvc.Decision
import Sccache.Msvc.Detect
import Sccache.Msvc.Preprocess
import Sccache.Msvc.Compile

set_option autoImplicit false

/-! # From the classifier to the commands it feeds

A classified compile is run by `preprocess` and `compile`, which build new command lines
from the parsed arguments: the pass-through list with a few rule tokens before and after it.
This module says what those command lines mean to the classifier itself, and that the
lookups `compile` and `preprocess` repeat on the parsed arguments cannot fail.

The pass-through list keeps every `-FI` with its value, so its tokens sit at the positions
they had in the original list (`slots_keptTokens`). A token appended after it is at a rule
position unless the original list ended with a `-FI` that had no value
(`slots_around_keptTokens`).

The last section is about the text the compiler prints, which the detection of the include
prefix and `preprocess` slice line by line: every slice falls on a character boundary, so
neither panics on any output.
-/

namespace Sccache

/-! ## Positions in the pass-through list -/

/-- Tokens that are no `-FI` are all at rule positions, and the labels after them are those
of the rest alone. -/
theorem slots_append_of_ne (l r : List String) (h : ∀ a ∈ l, a ≠ "-FI") :
    slots (l ++ r) = l.map (Slot.rule, ·) ++ slots r := by
  induction l with
  | nil => rfl
  | cons a l ih =>
    simp only [List.mem_cons, forall_eq_or_imp] at h
    rw [List.cons_append, slots_cons_of_ne h.1, ih h.2]
    rfl

@[simp] theorem isDropped_FI : isDropped (.rule, "-FI") = false := by decide

@[simp] theorem isDropped_value (v : String) : isDropped (.value, v) = false := rfl

/-- The pass-through list is labelled as its tokens were in the original list. -/
theorem slots_keptTokens (args : List String) :
    slots (keptTokens args) = (slots args).filter fun x => !isDropped x := by
  induction args using slots.induct with
  | case1 => rfl
  | case2 => decide
  | case3 v rest ih =>
    have hk : keptTokens ("-FI" :: v :: rest) = "-FI" :: v :: keptTokens rest := by
      simp [keptTokens, slots_FI_cons, List.filter_cons]
    rw [hk, slots_FI_cons, slots_FI_cons, ih]
    simp [List.filter_cons]
  | case4 a rest ha ih =>
    by_cases hd : isDropped (.rule, a) = true
    · have hk : keptTokens (a :: rest) = keptTokens rest := by
        simp [keptTokens, slots_cons_of_ne ha, hd, List.filter_cons]
      rw [hk, ih, slots_cons_of_ne ha]
      simp [hd, List.filter_cons]
    · have hk : keptTokens (a :: rest) = a :: keptTokens rest := by
        simp [keptTokens, slots_cons_of_ne ha, hd, List.filter_cons]
      rw [hk, slots_cons_of_ne ha, slots_cons_of_ne ha, ih]
      simp [hd, List.filter_cons]

/-- The last element of a list whose head is not that element is the last of its tail. -/
theorem getLast?_tail_of_ne {α : Type} {x y : α} {l : List α} (h : (x :: l).getLast? = some y)
    (hx : x ≠ y) : l.getLast? = some y := by
  cases l with
  | nil => exact absurd (Option.some.inj h) hx
  | cons z l => rwa [List.getLast?_cons_cons] at h

/-- A `-FI` left waiting at the end of the pass-through list was waiting at the end of the
original list: the value after a `-FI` is always kept. -/
theorem getLast?_slots_of_filter (args : List String)
    (h : ((slots args).filter fun x => !isDropped x).getLast? = some (.rule, "-FI")) :
    (slots args).getLast? = some (.rule, "-FI") := by
  induction args using slots.induct with
  | case1 => exact h
  | case2 => rfl
  | case3 v rest ih =>
    rw [slots_FI_cons] at h ⊢
    simp only [List.filter_cons, isDropped_FI, isDropped_value, Bool.not_false, if_true,
      List.getLast?_cons_cons] at h
    rw [List.getLast?_cons_cons]
    exact List.mem_getLast?_cons (ih (getLast?_tail_of_ne h (by simp)))
  | case4 a rest ha ih =>
    rw [slots_cons_of_ne ha] at h ⊢
    refine List.mem_getLast?_cons (ih ?_)
    cases hd : isDropped (.rule, a)
    · simp only [List.filter_cons, hd, Bool.not_false, if_true] at h
      exact getLast?_tail_of_ne h (by simpa using ha)
    · simpa [List.filter_cons, hd] using h

/-- The pass-through list between rule tokens: the rule tokens before it stay at rule
positions, its own tokens keep their labels, and the tokens after it are at rule positions
unless the original list ended with a `-FI` waiting for its value. -/
theorem slots_around_keptTokens (pre post args : List String) (hpre : ∀ a ∈ pre, a ≠ "-FI")
    (hpost : ∀ a ∈ post, a ≠ "-FI")
    (hdang : post = [] ∨ (slots args).getLast? ≠ some (.rule, "-FI")) :
    slots (pre ++ keptTokens args ++ post) = pre.map (Slot.rule, ·) ++
      (slots args).filter (fun x => !isDropped x) ++ post.map (Slot.rule, ·) := by
  rw [List.append_assoc, slots_append_of_ne _ _ hpre, List.append_assoc]
  congr 1
  rcases hdang with rfl | hdang
  · simp [slots_keptTokens]
  · have hp := slots_append_of_ne post [] hpost
    rw [List.append_nil, slots_nil, List.append_nil] at hp
    rw [slots_append _ _ (by rw [slots_keptTokens]; exact fun h => hdang (getLast?_slots_of_filter _ h)),
      slots_keptTokens, hp]

/-- A token appended after a list that ends with a rule-position `-FI` is that `-FI`'s
value. -/
theorem slots_concat_of_dangling (l : List String) (x : String)
    (h : (slots l).getLast? = some (.rule, "-FI")) :
    slots (l ++ [x]) = slots l ++ [(.value, x)] := by
  induction l using slots.induct with
  | case1 => cases h
  | case2 => rfl
  | case3 v rest ih =>
    rw [slots_FI_cons, List.getLast?_cons_cons] at h
    rw [List.cons_append, List.cons_append, slots_FI_cons, slots_FI_cons,
      ih (getLast?_tail_of_ne h (by simp))]
    rfl
  | case4 a rest ha ih =>
    rw [slots_cons_of_ne ha] at h
    rw [List.cons_append, slots_cons_of_ne ha, slots_cons_of_ne ha,
      ih (getLast?_tail_of_ne h (by simpa using ha))]
    rfl

/-- A `-FI` waiting for its value at the end of a list waits at the end of its pass-through
list too. -/
theorem getLast?_slots_keptTokens (args : List String)
    (hdang : (slots args).getLast? = some (.rule, "-FI")) :
    (slots (keptTokens args)).getLast? = some (.rule, "-FI") := by
  obtain ⟨ys, hys⟩ := List.getLast?_eq_some_iff.1 hdang
  rw [slots_keptTokens, hys, List.filter_append]
  simp

/-- The pass-through list of a list that ends with a `-FI` waiting for its value, after rule
tokens and before one more token: that token becomes the value of the `-FI`. -/
theorem slots_around_keptTokens_dangling (pre args : List String) (x : String)
    (hpre : ∀ a ∈ pre, a ≠ "-FI") (hdang : (slots args).getLast? = some (.rule, "-FI")) :
    slots (pre ++ keptTokens args ++ [x]) =
      pre.map (Slot.rule, ·) ++ (slots args).filter (fun x => !isDropped x) ++ [(.value, x)] := by
  rw [List.append_assoc, slots_append_of_ne _ _ hpre,
    slots_concat_of_dangling _ _ (getLast?_slots_keptTokens args hdang), slots_keptTokens,
    List.append_assoc]

/-! ## Re-parsing the pass-through list between new rule tokens -/

/-- A token beginning with `-Fd` is passed through. -/
theorem isDropped_of_startsWith_Fd {a : String} (h : startsWith a "-Fd" = true) :
    isDropped (.rule, a) = false := by
  have hc : a ≠ "-c" := by rintro rfl; exact absurd h (by decide)
  simp [isDropped, hc, startsWith_eq_false_of_startsWith "-Fo" h (by decide) (by decide),
    startsWith_eq_false_of_startsWith "-deps" h (by decide) (by decide),
    isInputToken_of_startsWith h 'F' ['d'] rfl]

theorem rules_map_rule (l : List String) : rules (l.map (Slot.rule, ·)) = l := by
  induction l with
  | nil => rfl
  | cons a l ih => simp [ih]

theorem rules_filter_isDropped (xs : List (Slot × String)) :
    rules (xs.filter fun x => !isDropped x) = (rules xs).filter fun a => !isDropped (.rule, a) := by
  induction xs with
  | nil => rfl
  | cons x xs ih =>
    obtain ⟨_ | _, a⟩ := x
    · by_cases hd : isDropped (.rule, a) = true <;> simp [List.filter_cons, hd, ih]
    · simp [List.filter_cons, ih]

section Around

variable (pre post args : List String) (hpre : ∀ a ∈ pre, a ≠ "-FI")
  (hpost : ∀ a ∈ post, a ≠ "-FI") (hdang : post = [] ∨ (slots args).getLast? ≠ some (.rule, "-FI"))

include hpre hpost hdang

theorem ruleTokens_around_keptTokens :
    ruleTokens (pre ++ keptTokens args ++ post) =
      pre ++ (ruleTokens args).filter (fun a => !isDropped (.rule, a)) ++ post := by
  rw [ruleTokens, slots_around_keptTokens pre post args hpre hpost hdang, rules_append,
    rules_append, rules_filter_isDropped, rules_map_rule, rules_map_rule, ruleTokens]

theorem keptTokens_around_keptTokens (hd : ∀ a ∈ pre ++ post, isDropped (.rule, a) = true) :
    keptTokens (pre ++ keptTokens args ++ post) = keptTokens args := by
  have hpre' : pre.filter (fun a => !isDropped (.rule, a)) = [] :=
    List.filter_eq_nil_iff.2 fun a ha => by simp [hd a (List.mem_append_left _ ha)]
  have hpost' : post.filter (fun a => !isDropped (.rule, a)) = [] :=
    List.filter_eq_nil_iff.2 fun a ha => by simp [hd a (List.mem_append_right _ ha)]
  rw [keptTokens, slots_around_keptTokens pre post args hpre hpost hdang]
  simp only [List.filter_append, List.filter_filter, Bool.and_self, List.map_append,
    List.filter_map, Function.comp_def, hpre', hpost', List.map_nil, List.nil_append,
    List.append_nil, keptTokens]

end Around

/-- Rule tokens put before and after the pass-through list of a classified compile that
carry `-c`, one input with the same extension and one `-Fo` and are themselves dropped
from a pass-through list: the result classifies with that input and the same outputs and
pass-through list. -/
theorem parseArguments_around_keptTokens {host : Host} {args : List String} {p : ParsedArguments}
    (h : parseArguments host args = .ok p) (pre post : List String) (i o : String)
    (hpre : ∀ a ∈ pre, a ≠ "-FI") (hpost : ∀ a ∈ post, a ≠ "-FI")
    (hdang : post = [] ∨ (slots args).getLast? ≠ some (.rule, "-FI"))
    (hnew : ∀ a ∈ pre ++ post, isDropped (.rule, a) = true ∧ isRejected a = false)
    (hin : (pre ++ post).filter isInputToken = [i]) (hext : Path.extension host i = Path.extension host p.input)
    (hc : "-c" ∈ pre ++ post) (hFo : (pre ++ post).filter (startsWith · "-Fo") = ["-Fo" ++ o])
    (ho : p.outputs.get "obj" = some o) :
    ∃ p', parseArguments host (pre ++ p.commonArgs ++ post) = .ok p' ∧ p'.input = i ∧
      p'.outputs = p.outputs ∧ p'.commonArgs = p.commonArgs := by
  obtain ⟨s, hs, hv⟩ := (parseArguments_eq_ok_iff_scan args p).1 h
  obtain ⟨hr, -, rfl⟩ := (scan_eq_ok_iff args s).1 hs
  obtain ⟨-, i₀, e, o₀, -, he, ho₀, hd, rfl⟩ := (validate_eq_ok_iff _ p).1 hv
  obtain rfl : o = o₀ := (by simpa using ho : o₀ = o).symm
  have hext' : Path.extension host i = some e := by rw [hext]; exact he
  have hR := ruleTokens_around_keptTokens pre post args hpre hpost hdang
  have hK := keptTokens_around_keptTokens pre post args hpre hpost hdang fun a ha => (hnew a ha).1
  set K' := (ruleTokens args).filter fun a => !isDropped (.rule, a)
  -- What the kept rule tokens and the new ones contribute to each test.
  have hkept : ∀ a ∈ K', a ≠ "-c" ∧ startsWith a "-Fo" = false ∧ isInputToken a = false :=
    fun a ha => by
      have hk := (List.mem_filter.1 ha).2
      simp only [isDropped, Bool.not_eq_true', Bool.or_eq_false_iff, beq_eq_false_iff_ne] at hk
      obtain ⟨⟨⟨hc, hFo⟩, -⟩, hin⟩ := hk
      exact ⟨hc, hFo, hin⟩
  have hKin : K'.filter isInputToken = [] :=
    List.filter_eq_nil_iff.2 fun a ha => by simp [(hkept a ha).2.2]
  have hKFo : K'.filter (startsWith · "-Fo") = [] :=
    List.filter_eq_nil_iff.2 fun a ha => by simp [(hkept a ha).2.1]
  have hKFd : K'.filter (startsWith · "-Fd") = (ruleTokens args).filter (startsWith · "-Fd") := by
    rw [List.filter_filter]
    congr 1; funext a
    cases hs : startsWith a "-Fd" <;> simp [isDropped_of_startsWith_Fd, hs]
  have hFd : ∀ a ∈ pre ++ post, startsWith a "-Fd" = false := fun a ha =>
    Bool.eq_false_iff.2 fun hs => by simpa [isDropped_of_startsWith_Fd hs] using (hnew a ha).1
  have hnewFd : (pre ++ post).filter (startsWith · "-Fd") = [] :=
    List.filter_eq_nil_iff.2 fun a ha => by simp [hFd a ha]
  have hZiKept : isDropped (.rule, "-Zi") = false := by decide
  have hZi : "-Zi" ∉ pre ++ post := fun hm => by
    simpa only [hZiKept, Bool.false_eq_true] using (hnew _ hm).1
  -- Each test on the new rule tokens, read off the original ones.
  have hfilter : ∀ q : String → Bool, (ruleTokens (pre ++ keptTokens args ++ post)).filter q =
      pre.filter q ++ K'.filter q ++ post.filter q := fun q => by
    rw [hR, List.filter_append, List.filter_append]
  have hin' : (ruleTokens (pre ++ keptTokens args ++ post)).filter isInputToken = [i] := by
    rw [hfilter, hKin, List.append_nil, ← List.filter_append, hin]
  have hFo' : (ruleTokens (pre ++ keptTokens args ++ post)).filter (startsWith · "-Fo") =
      ["-Fo" ++ o] := by
    rw [hfilter, hKFo, List.append_nil, ← List.filter_append, hFo]
  have hFd' : lastAfter "-Fd" (ruleTokens (pre ++ keptTokens args ++ post)) =
      lastAfter "-Fd" (ruleTokens args) := by
    rw [List.filter_append] at hnewFd
    simp only [lastAfter, hfilter, hKFd, List.append_eq_nil] at hnewFd ⊢
    rw [hnewFd.1, hnewFd.2, List.nil_append, List.append_nil]
  have hZi' : "-Zi" ∈ ruleTokens (pre ++ keptTokens args ++ post) ↔ "-Zi" ∈ ruleTokens args := by
    rw [List.mem_append, not_or] at hZi
    rw [hR]
    simp [K', hZiKept, hZi.1, hZi.2]
  refine ⟨_, (parseArguments_eq_ok_iff_scan _ _).2 ⟨_, (scan_eq_ok_iff _ _).2 ⟨?_, ?_, rfl⟩,
    (validate_eq_ok_iff _ _).2 ⟨?_, i, e, o, ?_, hext', ?_, ?_, rfl⟩⟩, rfl, ?_, hK⟩
  · intro a ha
    rw [hR, List.mem_append, List.mem_append] at ha
    rcases ha with (ha | ha) | ha
    · exact (hnew a (List.mem_append_left _ ha)).2
    · exact hr a (List.mem_filter.1 ha).1
    · exact (hnew a (List.mem_append_right _ ha)).2
  · rw [hin']; rfl
  · rw [decide_eq_true_eq, hR]
    rcases List.mem_append.1 hc with h | h
    · exact List.mem_append_left _ (List.mem_append_left _ h)
    · exact List.mem_append_right _ h
  · simp only [hin', List.head?_cons]
  · simp only [lastAfter, hFo', List.getLast?_singleton, Option.map_some']
    simp
  · simp only [decide_eq_true_eq, hZi', hFd'] at hd ⊢
    exact hd
  · simp only [decide_eq_true_eq, hZi', hFd']

/-! ## Tokens the command lines add -/

theorem startsWith_append_self (p s : String) : startsWith (p ++ s) p = true := by
  simp [startsWith_iff]

theorem isRejected_of_isInputToken {a : String} (h : isInputToken a = true) :
    isRejected a = false := by
  cases hr : isRejected a
  · rfl
  · have := (arm_rejects_iff a).2 hr
    rw [(arm_eq_input_iff a).2 h] at this
    cases this

theorem isRejected_Fo (o : String) : isRejected ("-Fo" ++ o) = false := by
  cases hr : isRejected ("-Fo" ++ o)
  · rfl
  · have := (arm_rejects_iff _).2 hr
    rw [(arm_eq_output_iff _ o).2 ⟨startsWith_append_self _ _, by simp⟩] at this
    cases this

theorem ne_FI_of_isInputToken {a : String} (h : isInputToken a = true) : a ≠ "-FI" := by
  rintro rfl; cases h

theorem Fo_append_ne_FI (o : String) : "-Fo" ++ o ≠ "-FI" := fun h => by
  have := congrArg String.data h
  simp at this

theorem isInputToken_Fo (o : String) : isInputToken ("-Fo" ++ o) = false :=
  isInputToken_of_startsWith (startsWith_append_self _ _) 'F' ['o'] rfl

theorem isDropped_Fo (o : String) : isDropped (.rule, "-Fo" ++ o) = true := by
  simp [isDropped, startsWith_append_self]

theorem isDropped_of_isInputToken {a : String} (h : isInputToken a = true) :
    isDropped (.rule, a) = true := by
  simp [isDropped, h]

/-- What a classified compile's input and pass-through list are. -/
theorem parseArguments_ok_input {host : Host} {args : List String} {p : ParsedArguments}
    (h : parseArguments host args = .ok p) :
    isInputToken p.input = true ∧ (∃ e, Path.extension host p.input = some e) ∧
      (∃ o, p.outputs.get "obj" = some o) ∧ p.commonArgs = keptTokens args := by
  obtain ⟨s, hs, hv⟩ := (parseArguments_eq_ok_iff_scan args p).1 h
  obtain ⟨-, -, rfl⟩ := (scan_eq_ok_iff args s).1 hs
  obtain ⟨-, i, e, o, hi, he, -, -, rfl⟩ := (validate_eq_ok_iff _ p).1 hv
  have hi : i ∈ (ruleTokens args).filter isInputToken := List.mem_of_mem_head? hi
  exact ⟨(List.mem_filter.1 hi).2, ⟨e, he⟩, ⟨o, by simp⟩, rfl⟩

/-! ## The command lines built from a classification -/

/-- The fallback compile `-c input -Fo… common…` of a classified compile classifies with the
same input, outputs and pass-through list. When the original list does not end with a
rule-position `-FI`, so does the primary compile `-c -Fo… common… t` of the temporary file
`t`, with `t` as its input, and the `-showIncludes` of the preprocessor command is at a rule
position. When it does, the pass-through list ends with that `-FI`, which takes `t` and
`-showIncludes` as its value, and the primary compile cannot be cached. -/
theorem parseArguments_commands {host : Host} (args : List String) (p : ParsedArguments)
    (obj t : String) (h : parseArguments host args = .ok p) (hobj : p.outputs.get "obj" = some obj)
    (ht : ∃ c s, t.data = c :: s ∧ c ≠ '-' ∧ c ≠ '@')
    (hname : Path.fileName host t = Path.fileName host p.input) :
    (∃ p', parseArguments host (["-c", p.input, "-Fo" ++ obj] ++ p.commonArgs) = .ok p' ∧
      p'.input = p.input ∧ p'.outputs = p.outputs ∧ p'.commonArgs = p.commonArgs) ∧
    ((slots args).getLast? ≠ some (.rule, "-FI") →
      (∃ p', parseArguments host (["-c", "-Fo" ++ obj] ++ p.commonArgs ++ [t]) = .ok p' ∧
        p'.input = t ∧ p'.outputs = p.outputs ∧ p'.commonArgs = p.commonArgs) ∧
      (slots (["-E", p.input, "-nologo"] ++ p.commonArgs ++ ["-showIncludes"])).getLast? =
        some (.rule, "-showIncludes")) ∧
    ((slots args).getLast? = some (.rule, "-FI") →
      p.commonArgs.getLast? = some "-FI" ∧
      (slots (["-c", "-Fo" ++ obj] ++ p.commonArgs ++ [t])).getLast? = some (.value, t) ∧
      (slots (["-E", p.input, "-nologo"] ++ p.commonArgs ++ ["-showIncludes"])).getLast? =
        some (.value, "-showIncludes") ∧
      parseArguments host (["-c", "-Fo" ++ obj] ++ p.commonArgs ++ [t]) = .cannotCache) := by
  obtain ⟨hin, -, -, hK⟩ := parseArguments_ok_input h
  have htin : isInputToken t = true := by
    obtain ⟨c, s, hts, hc, hc'⟩ := ht
    simp [isInputToken, hts, hc, hc']
  have hcIn : isInputToken "-c" = false := rfl
  have hcDrop : isDropped (.rule, "-c") = true := rfl
  have hcRej : isRejected "-c" = false := by decide
  have hcFo : startsWith "-c" "-Fo" = false := by decide
  refine ⟨?_, fun hdang => ⟨?_, ?_⟩, fun hdang => ?_⟩
  · have := parseArguments_around_keptTokens h ["-c", p.input, "-Fo" ++ obj] [] p.input obj
      (by simp [ne_FI_of_isInputToken hin, Fo_append_ne_FI]) (by simp) (.inl rfl)
      (by simp [hcDrop, hcRej, isDropped_of_isInputToken hin, isRejected_of_isInputToken hin,
        isDropped_Fo, isRejected_Fo])
      (by simp [List.filter_cons, hcIn, hin, isInputToken_Fo]) rfl (by simp)
      (by simp [List.filter_cons, hcFo, startsWith_eq_false_of_isInputToken hin "-Fo" 'F' ['o'] rfl,
        startsWith_append_self])
      hobj
    rwa [List.append_nil] at this
  · exact parseArguments_around_keptTokens h ["-c", "-Fo" ++ obj] [t] t obj
      (by simp [Fo_append_ne_FI]) (by simp [ne_FI_of_isInputToken htin]) (.inr hdang)
      (by simp [hcDrop, hcRej, isDropped_of_isInputToken htin, isRejected_of_isInputToken htin,
        isDropped_Fo, isRejected_Fo])
      (by simp [List.filter_cons, hcIn, htin, isInputToken_Fo])
      (by simp only [Path.extension, hname]) (by simp)
      (by simp [List.filter_cons, hcFo, startsWith_eq_false_of_isInputToken htin "-Fo" 'F' ['o'] rfl,
        startsWith_append_self])
      hobj
  · rw [hK, slots_around_keptTokens _ _ _ (by simp [ne_FI_of_isInputToken hin]) (by simp)
      (.inr hdang)]
    simp [List.getLast?_cons, List.getLast?_append]
  · have hc := slots_around_keptTokens_dangling ["-c", "-Fo" ++ obj] args t
      (by simp [Fo_append_ne_FI]) hdang
    have hE := slots_around_keptTokens_dangling ["-E", p.input, "-nologo"] args "-showIncludes"
      (by simp [ne_FI_of_isInputToken hin]) hdang
    -- The primary's rule-position tokens: `-c`, `-Fo…` and the kept ones, none an input.
    have hR : ruleTokens (["-c", "-Fo" ++ obj] ++ keptTokens args ++ [t]) =
        "-c" :: ("-Fo" ++ obj) :: (ruleTokens args).filter fun a => !isDropped (.rule, a) := by
      rw [ruleTokens, hc, rules_append, rules_append, rules_filter_isDropped, rules_map_rule]
      simp [rules, ruleTokens]
    have hnoIn : ((ruleTokens args).filter fun a => !isDropped (.rule, a)).filter isInputToken = [] :=
      List.filter_eq_nil_iff.2 fun a ha hi => by
        simp [isDropped_of_isInputToken hi] at ha
    rw [hK]
    refine ⟨?_, by rw [hc, List.getLast?_concat], by rw [hE, List.getLast?_concat], ?_⟩
    · rw [← slots_map_snd (keptTokens args), List.getLast?_map, getLast?_slots_keptTokens args hdang]
      rfl
    · rw [parseArguments_eq_classify_of _ _ _ hR rfl]
      exact classify_of_no_input _ (List.mem_cons_self _ _)
        (by simp [List.filter_cons, hcIn, isInputToken_Fo, hnoIn])

theorem parseArguments_commands_simple :
    ∃ p, parseArguments .unix ["-c", "foo.c", "-Fofoo.obj"] = .ok p ∧
      p.outputs.get "obj" = some "foo.obj" ∧
      (∃ c s, "/tmp/0/foo.c".data = c :: s ∧ c ≠ '-' ∧ c ≠ '@') ∧
      Path.fileName .unix "/tmp/0/foo.c" = Path.fileName .unix p.input ∧
      (∃ p', parseArguments .unix (["-c", p.input, "-Fo" ++ "foo.obj"] ++ p.commonArgs) = .ok p' ∧
        p'.input = p.input ∧ p'.outputs = p.outputs ∧ p'.commonArgs = p.commonArgs) ∧
      ((slots ["-c", "foo.c", "-Fofoo.obj"]).getLast? ≠ some (.rule, "-FI") →
        (∃ p', parseArguments .unix (["-c", "-Fo" ++ "foo.obj"] ++ p.commonArgs ++ ["/tmp/0/foo.c"]) =
            .ok p' ∧ p'.input = "/tmp/0/foo.c" ∧ p'.outputs = p.outputs ∧
            p'.commonArgs = p.commonArgs) ∧
        (slots (["-E", p.input, "-nologo"] ++ p.commonArgs ++ ["-showIncludes"])).getLast? =
          some (.rule, "-showIncludes")) ∧
      ((slots ["-c", "foo.c", "-Fofoo.obj"]).getLast? = some (.rule, "-FI") →
        p.commonArgs.getLast? = some "-FI" ∧
        (slots (["-c", "-Fo" ++ "foo.obj"] ++ p.commonArgs ++ ["/tmp/0/foo.c"])).getLast? =
          some (.value, "/tmp/0/foo.c") ∧
        (slots (["-E", p.input, "-nologo"] ++ p.commonArgs ++ ["-showIncludes"])).getLast? =
          some (.value, "-showIncludes") ∧
        parseArguments .unix (["-c", "-Fo" ++ "foo.obj"] ++ p.commonArgs ++ ["/tmp/0/foo.c"]) =
          .cannotCache) :=
  ⟨_, rfl, rfl, ⟨'/', _, rfl, by decide, by decide⟩, by decide,
    parseArguments_commands _ _ "foo.obj" "/tmp/0/foo.c" rfl rfl
      ⟨'/', _, rfl, by decide, by decide⟩ (by decide)⟩

/-- A list ending with a `-FI` that has no value classifies with that `-FI` passed through;
the temporary file appended to the primary compile is then read as its value, which leaves
the compile without an input, and the preprocessor's `-showIncludes` is read as a value. -/
theorem parseArguments_commands_dangling_FI :
    ∃ p, parseArguments .unix ["-c", "foo.c", "-Fofoo.obj", "-FI"] = .ok p ∧
      p.outputs.get "obj" = some "foo.obj" ∧ p.commonArgs = ["-FI"] ∧
      parseArguments .unix (["-c", "-Fo" ++ "foo.obj"] ++ p.commonArgs ++ ["foo.c"]) = .cannotCache ∧
      (slots (["-E", p.input, "-nologo"] ++ p.commonArgs ++ ["-showIncludes"])).getLast? =
        some (.value, "-showIncludes") :=
  ⟨_, rfl, rfl, rfl, rfl, rfl⟩

/-! ## The lookups `compile` and `preprocess` repeat -/

/-- On a classified compile, `compile` never fails for want of an object file or of an input
file name, whatever the processes and the disk do, and `preprocess` writes a dependency file
exactly when one was asked for. -/
theorem lookups_of_parseArguments {host : Host} (args : List String) (p : ParsedArguments)
    (h : parseArguments host args = .ok p) :
    (∀ env executable content cwd w w',
      (compile host env executable content p cwd).run w ≠ .error (.msg "Missing object file output") w' ∧
      (compile host env executable content p cwd).run w ≠ .error (.msg "missing input filename") w') ∧
    ∃ obj, p.outputs.get "obj" = some obj ∧ ∀ env cp normpath executable cwd includesPrefix,
      preprocess host env cp normpath executable p cwd includesPrefix =
        runInputOutput env ⟨executable, ["-E", p.input, "-nologo"] ++ p.commonArgs ++
          (if p.depfile.isSome then ["-showIncludes"] else []), some cwd⟩ >>= fun output =>
        p.depfile.elim (pure output) fun depfile =>
          writeDepfile host env cp normpath p cwd includesPrefix obj depfile output := by
  obtain ⟨-, ⟨e, he⟩, ⟨obj, hobj⟩, -⟩ := parseArguments_ok_input h
  obtain ⟨name, hname⟩ := Option.isSome_iff_exists.1 (Path.fileName_isSome_of_extension he)
  refine ⟨fun env executable content cwd w w' => ?_, obj, hobj, fun _ _ _ _ _ _ => ?_⟩
  · have hio := failsWith_isIo_compile env executable content p cwd obj name hobj hname w
    constructor <;> intro hrun <;> cases hio _ _ hrun
  · simp only [preprocess, hobj]
    cases p.depfile <;> rfl

theorem lookups_of_parseArguments_simple :
    ∃ p, parseArguments .unix ["-c", "foo.c", "-Fofoo.obj", "-depsfoo.d"] = .ok p ∧
      (∀ env executable content cwd w w',
        (compile .unix env executable content p cwd).run w ≠
          .error (.msg "Missing object file output") w' ∧
        (compile .unix env executable content p cwd).run w ≠ .error (.msg "missing input filename") w') ∧
      ∃ obj, p.outputs.get "obj" = some obj ∧ ∀ env cp normpath executable cwd includesPrefix,
        preprocess .unix env cp normpath executable p cwd includesPrefix =
          runInputOutput env ⟨executable, ["-E", p.input, "-nologo"] ++ p.commonArgs ++
            (if p.depfile.isSome then ["-showIncludes"] else []), some cwd⟩ >>= fun output =>
          p.depfile.elim (pure output) fun depfile =>
            writeDepfile .unix env cp normpath p cwd includesPrefix obj depfile output :=
  ⟨_, rfl, lookups_of_parseArguments ["-c", "foo.c", "-Fofoo.obj", "-depsfoo.d"] _ rfl⟩

/-! ## Slicing the compiler's output

The detection slices a line at `i + 1` after a space it found at offset `i`, and
`preprocess` slices an include line at the byte length of the include prefix. A space is one
byte long and a prefix the line starts with ends where a character of the line does, so both
offsets are character boundaries (`String.Pos.Valid`) whatever characters the line holds. -/

/-- Every slice of a line of compiler output falls on a character boundary: the offset after
a space that `char_indices` yields in a line, and the byte length of the include prefix in a
line that starts with it. Neither `detect_showincludes_prefix` nor `preprocess` panics,
whatever the compiler prints, the code page decodes and the disk holds. -/
theorem slices_never_panic :
    (∀ (line : List Char) (i : Nat), (i, ' ') ∈ charIndices line →
      String.Pos.Valid ⟨line⟩ ⟨i + 1⟩ ∧ (sliceFrom line (i + 1)).isSome ∧
        (sliceTo line (i + 1)).isSome) ∧
    (∀ line includesPrefix : String, startsWith line includesPrefix = true →
      String.Pos.Valid line ⟨len includesPrefix⟩ ∧
        (sliceFrom line.data (len includesPrefix)).isSome) ∧
    (∀ host env cp exe w w', (detectShowincludesPrefix host env cp exe).run w ≠ .error .panic w') ∧
    (∀ host env cp normpath executable p cwd includesPrefix w w',
      (preprocess host env cp normpath executable p cwd includesPrefix).run w ≠ .error .panic w') := by
  have hsize : (' ').utf8Size = 1 := rfl
  refine ⟨fun line i h => ?_, fun line pre h => ?_, fun host env cp exe w w' h => ?_,
    fun host env cp normpath executable p cwd pre w w' h => ?_⟩
  · have hv := valid_of_mem_charIndices h
    rw [hsize] at hv
    exact ⟨hv, (sliceFrom_isSome_iff_valid _ _).2 hv, (sliceTo_isSome_iff_valid _ _).2 hv⟩
  · have hs : (sliceFrom line.data (len pre)).isSome := by rw [sliceFrom_of_startsWith h]; rfl
    exact ⟨(sliceFrom_isSome_iff_valid _ _).1 hs, hs⟩
  · rcases failsWith_detectShowincludesPrefix env cp exe w _ w' h with h | h | h <;> cases h
  · rcases failsWith_preprocess env normpath pre cp executable p cwd w _ w' h with h | h <;> cases h

end Sccache
