import Mathlib.Data.String.Basic
import Mathlib.Data.List.Basic

set_option autoImplicit false

/-! # Rust text primitives

The operations of Rust's `str` that the MSVC backend calls, on Lean's `String`. A `String`
is a list of Unicode scalar values, as a Rust `str` is, so prefix and suffix tests on
characters agree with Rust's byte tests on valid UTF-8. Byte offsets and byte lengths are
those of the UTF-8 encoding, counted with `Char.utf8Size`; a slice at an offset that is not
a character boundary is `none`, where Rust panics.
-/

namespace Sccache

/-! ## Prefixes, suffixes and lengths -/

/-- `str::starts_with`. -/
def startsWith (s pre : String) : Bool := pre.data.isPrefixOf s.data

/-- `str::ends_with`. -/
def endsWith (s suf : String) : Bool := suf.data.isSuffixOf s.data

/-- `str::contains` with a `char` pattern. -/
def containsChar (s : String) (c : Char) : Bool := s.data.contains c

/-- The length in bytes of the UTF-8 encoding of some characters. -/
def byteLen : List Char → Nat
  | [] => 0
  | c :: l => c.utf8Size + byteLen l

/-- `str::len`, a length in bytes. -/
def len (s : String) : Nat := byteLen s.data

/-- The UTF-8 encoding of a string: `str::as_bytes`, and what `write!` puts in a file. -/
def utf8Encode (s : String) : List UInt8 := s.data.flatMap String.utf8EncodeChar

theorem startsWith_iff (s pre : String) : startsWith s pre = true ↔ pre.data <+: s.data := by
  simp [startsWith]

theorem endsWith_iff (s suf : String) : endsWith s suf = true ↔ suf.data <:+ s.data := by
  simp [endsWith]

theorem containsChar_iff (s : String) (c : Char) : containsChar s c = true ↔ c ∈ s.data := by
  simp [containsChar]

/-- Two prefixes of one string are prefixes of each other; literals that are not exclude
each other. -/
theorem startsWith_eq_false_of_startsWith {s p : String} (q : String) (hp : startsWith s p = true)
    (hpq : ¬ p.data <+: q.data) (hqp : ¬ q.data <+: p.data) : startsWith s q = false := by
  rw [startsWith_iff] at hp
  cases h : startsWith s q
  · rfl
  · rw [startsWith_iff] at h
    exact ((List.prefix_or_prefix_of_prefix hp h).elim hpq hqp).elim

@[simp] theorem byteLen_nil : byteLen [] = 0 := rfl

@[simp] theorem byteLen_cons (c : Char) (l : List Char) :
    byteLen (c :: l) = c.utf8Size + byteLen l := rfl

@[simp] theorem byteLen_append (l r : List Char) : byteLen (l ++ r) = byteLen l + byteLen r := by
  induction l with
  | nil => simp
  | cons c l ih => simp [ih, Nat.add_assoc]

@[simp] theorem utf8Encode_append (s t : String) :
    utf8Encode (s ++ t) = utf8Encode s ++ utf8Encode t := by
  simp [utf8Encode]

@[simp] theorem utf8Encode_join (l : List String) :
    utf8Encode (String.join l) = l.flatMap utf8Encode := by
  induction l with
  | nil => rfl
  | cons s l ih => simpa [utf8Encode, String.data_join] using ih

/-! ## Character offsets and slices -/

/-- `str::char_indices` of the characters from byte offset `i` on. -/
def charIndicesFrom : Nat → List Char → List (Nat × Char)
  | _, [] => []
  | i, c :: cs => (i, c) :: charIndicesFrom (i + c.utf8Size) cs

/-- `str::char_indices`: each character with the byte offset it starts at. -/
def charIndices (l : List Char) : List (Nat × Char) := charIndicesFrom 0 l

/-- `&s[i..]`, or `none` where Rust panics: `i` is past the end or inside a character. -/
def sliceFrom : List Char → Nat → Option (List Char)
  | s, 0 => some s
  | [], _ + 1 => none
  | c :: s, i + 1 => if c.utf8Size ≤ i + 1 then sliceFrom s (i + 1 - c.utf8Size) else none

/-- `&s[..i]`, or `none` where Rust panics. -/
def sliceTo : List Char → Nat → Option (List Char)
  | _, 0 => some []
  | [], _ + 1 => none
  | c :: s, i + 1 =>
    if c.utf8Size ≤ i + 1 then (sliceTo s (i + 1 - c.utf8Size)).map (c :: ·) else none

theorem charIndicesFrom_append (i : Nat) (l r : List Char) :
    charIndicesFrom i (l ++ r) = charIndicesFrom i l ++ charIndicesFrom (i + byteLen l) r := by
  induction l generalizing i with
  | nil => simp [charIndicesFrom]
  | cons c l ih => simp [charIndicesFrom, ih, Nat.add_assoc]

/-- Read right to left, the offsets of `l ++ [c]` start with the offset of `c`. -/
theorem charIndices_append_singleton (l : List Char) (c : Char) :
    (charIndices (l ++ [c])).reverse = (byteLen l, c) :: (charIndices l).reverse := by
  simp [charIndices, charIndicesFrom_append, charIndicesFrom]

theorem sliceFrom_append (l r : List Char) : sliceFrom (l ++ r) (byteLen l) = some r := by
  induction l with
  | nil => cases r <;> rfl
  | cons c l ih =>
    have hc : 0 < c.utf8Size := Char.utf8Size_pos c
    obtain ⟨k, hk⟩ : ∃ k, c.utf8Size + byteLen l = k + 1 := ⟨_, (Nat.succ_pred_eq_of_pos
      (Nat.lt_of_lt_of_le hc (Nat.le_add_right _ _))).symm⟩
    simp only [List.cons_append, byteLen_cons, hk, sliceFrom]
    rw [if_pos (by omega), show k + 1 - c.utf8Size = byteLen l by omega, ih]

/-- Slicing a string at the byte length of a prefix it starts with lands on a character
boundary: the slice is the rest of the string. -/
theorem sliceFrom_of_startsWith {s p : String} (h : startsWith s p = true) :
    sliceFrom s.data (len p) = some (s.data.drop p.data.length) := by
  obtain ⟨t, ht⟩ := (startsWith_iff _ _).1 h
  rw [← ht, len, sliceFrom_append, List.drop_left]

theorem sliceTo_append (l r : List Char) : sliceTo (l ++ r) (byteLen l) = some l := by
  induction l with
  | nil => cases r <;> rfl
  | cons c l ih =>
    have hc : 0 < c.utf8Size := Char.utf8Size_pos c
    obtain ⟨k, hk⟩ : ∃ k, c.utf8Size + byteLen l = k + 1 := ⟨_, (Nat.succ_pred_eq_of_pos
      (Nat.lt_of_lt_of_le hc (Nat.le_add_right _ _))).symm⟩
    simp only [List.cons_append, byteLen_cons, hk, sliceTo]
    rw [if_pos (by omega), show k + 1 - c.utf8Size = byteLen l by omega, ih]
    rfl

/-! ## Character boundaries

Rust slices a `str` only at a character boundary and panics anywhere else. Batteries'
`String.Pos.Valid s p`, a byte offset equal to the UTF-8 length of an initial segment of `s`,
is that notion, and the model's slices are defined exactly at those offsets
(`sliceFrom_isSome_iff_valid`, `sliceTo_isSome_iff_valid`). -/

theorem byteLen_eq_utf8Len (l : List Char) : byteLen l = String.utf8Len l := by
  induction l with
  | nil => rfl
  | cons c l ih => simp [ih, Nat.add_comm]

/-- `&s[i..]` is `r` only when `s` is `a ++ r` with `a` of byte length `i`. -/
theorem eq_append_of_sliceFrom_eq_some {l r : List Char} {i : Nat} (h : sliceFrom l i = some r) :
    ∃ a, l = a ++ r ∧ i = byteLen a := by
  induction l, i using sliceFrom.induct with
  | case1 s => simp only [sliceFrom, Option.some.injEq] at h; subst h; exact ⟨[], rfl, rfl⟩
  | case2 i => cases h
  | case3 c s i hc ih =>
    simp only [sliceFrom, if_pos hc] at h
    obtain ⟨a, rfl, ha⟩ := ih h
    exact ⟨c :: a, rfl, by simp only [byteLen_cons]; omega⟩
  | case4 c s i hc => simp [sliceFrom, hc] at h

/-- `&s[..i]` is `a` only when `s` is `a ++ r` with `a` of byte length `i`. -/
theorem eq_append_of_sliceTo_eq_some {l a : List Char} {i : Nat} (h : sliceTo l i = some a) :
    ∃ r, l = a ++ r ∧ i = byteLen a := by
  induction l, i using sliceTo.induct generalizing a with
  | case1 s => simp only [sliceTo, Option.some.injEq] at h; subst h; exact ⟨s, rfl, rfl⟩
  | case2 i => cases h
  | case3 c s i hc ih =>
    simp only [sliceTo, if_pos hc, Option.map_eq_some'] at h
    obtain ⟨a', h', rfl⟩ := h
    obtain ⟨r, rfl, ha⟩ := ih h'
    exact ⟨r, rfl, by simp only [byteLen_cons]; omega⟩
  | case4 c s i hc => simp [sliceTo, hc] at h

/-- A character boundary splits the characters into a head of that byte length and the
rest. -/
theorem valid_iff_split (l : List Char) (i : Nat) :
    String.Pos.Valid ⟨l⟩ ⟨i⟩ ↔ ∃ a r, l = a ++ r ∧ i = byteLen a := by
  simp only [String.Pos.Valid, byteLen_eq_utf8Len, @eq_comm _ l]

theorem sliceFrom_isSome_iff_valid (l : List Char) (i : Nat) :
    (sliceFrom l i).isSome ↔ String.Pos.Valid ⟨l⟩ ⟨i⟩ := by
  rw [valid_iff_split, Option.isSome_iff_exists]
  constructor
  · rintro ⟨r, h⟩
    obtain ⟨a, rfl, rfl⟩ := eq_append_of_sliceFrom_eq_some h
    exact ⟨a, r, rfl, rfl⟩
  · rintro ⟨a, r, rfl, rfl⟩
    exact ⟨r, sliceFrom_append a r⟩

theorem sliceTo_isSome_iff_valid (l : List Char) (i : Nat) :
    (sliceTo l i).isSome ↔ String.Pos.Valid ⟨l⟩ ⟨i⟩ := by
  rw [valid_iff_split, Option.isSome_iff_exists]
  constructor
  · rintro ⟨a, h⟩
    obtain ⟨r, rfl, rfl⟩ := eq_append_of_sliceTo_eq_some h
    exact ⟨a, r, rfl, rfl⟩
  · rintro ⟨a, r, rfl, rfl⟩
    exact ⟨a, sliceTo_append a r⟩

/-- `char_indices` yields each character with the byte length of the characters before
it. -/
theorem eq_append_of_mem_charIndicesFrom {k i : Nat} {c : Char} {l : List Char}
    (h : (i, c) ∈ charIndicesFrom k l) : ∃ A B, l = A ++ c :: B ∧ i = k + byteLen A := by
  induction l generalizing k with
  | nil => cases h
  | cons d l ih =>
    rcases List.mem_cons.1 h with h | h
    · obtain ⟨rfl, rfl⟩ := Prod.mk.inj h
      exact ⟨[], l, rfl, rfl⟩
    · obtain ⟨A, B, rfl, rfl⟩ := ih h
      exact ⟨d :: A, B, rfl, by simp only [byteLen_cons]; omega⟩

/-- The offset just past a character that `char_indices` yields is a character boundary. -/
theorem valid_of_mem_charIndices {l : List Char} {i : Nat} {c : Char}
    (h : (i, c) ∈ charIndices l) : String.Pos.Valid ⟨l⟩ ⟨i + c.utf8Size⟩ := by
  obtain ⟨A, B, rfl, rfl⟩ := eq_append_of_mem_charIndicesFrom h
  exact (valid_iff_split _ _).2 ⟨A ++ [c], B, by simp, by simp [Nat.add_comm]⟩

/-! ## Lines and whitespace -/

/-- The loop of `str::lines`, with `cur` the current line reversed. -/
def linesAux (cur : List Char) : List Char → List (List Char)
  | [] => if cur.isEmpty then [] else [cur.reverse]
  | '\n' :: rest =>
    (match cur with
     | '\r' :: cur' => cur'.reverse
     | _ => cur.reverse) :: linesAux [] rest
  | c :: rest => linesAux (c :: cur) rest

/-- `str::lines`: the text split at each `\n`, with one `\r` before it dropped. A final
`\n` ends the last line and starts no other; a last line without `\n` is kept whole. -/
def lines (s : String) : List String := (linesAux [] s.data).map String.mk

/-- `char::is_whitespace`: the Unicode `White_Space` property. -/
def isWhitespace (c : Char) : Bool :=
  c = ' ' || ('\t' ≤ c && c ≤ '\r') || c = '\x85' || c = '\xA0' || c = '\u1680' ||
    ('\u2000' ≤ c && c ≤ '\u200A') || c = '\u2028' || c = '\u2029' || c = '\u202F' ||
    c = '\u205F' || c = '\u3000'

/-- `str::trim`: leading and trailing whitespace removed. -/
def trim (l : List Char) : List Char :=
  ((l.dropWhile isWhitespace).reverse.dropWhile isWhitespace).reverse

/-- `str::lines` never yields a line with a `\n` in it. -/
theorem linesAux_no_newline (cur l : List Char) (hcur : '\n' ∉ cur) :
    ∀ x ∈ linesAux cur l, '\n' ∉ x := by
  induction cur, l using linesAux.induct with
  | case1 cur h => simp [linesAux, h]
  | case2 cur h => simpa [linesAux, h] using hcur
  | case3 cur rest ih =>
    have hrest := ih (List.not_mem_nil _)
    by_cases hr : ∃ cur', cur = '\r' :: cur'
    · obtain ⟨cur', rfl⟩ := hr
      rw [linesAux.eq_2]
      exact List.forall_mem_cons.2
        ⟨fun hm => hcur (List.mem_cons_of_mem _ (List.mem_reverse.1 hm)), hrest⟩
    · rw [linesAux.eq_3 _ _ fun c' h => hr ⟨c', h⟩]
      exact List.forall_mem_cons.2 ⟨by simpa using hcur, hrest⟩
  | case4 cur c rest hc ih =>
    rw [linesAux.eq_4 _ _ _ hc]
    exact ih (by simp [hcur, Ne.symm hc])

theorem newline_not_mem_of_mem_lines {s l : String} (h : l ∈ lines s) : '\n' ∉ l.data := by
  obtain ⟨x, hx, rfl⟩ := List.mem_map.1 h
  exact linesAux_no_newline [] s.data (List.not_mem_nil _) x hx

/-- The loop of `str::lines` reads a piece without `\n` into its current line. -/
theorem linesAux_append (cur w rest : List Char) (hw : '\n' ∉ w) :
    linesAux cur (w ++ rest) = linesAux (w.reverse ++ cur) rest := by
  induction w generalizing cur with
  | nil => rfl
  | cons c w ih =>
    rw [List.cons_append, linesAux.eq_4 _ _ _ fun h => hw (h ▸ List.mem_cons_self _ _),
      ih _ fun h => hw (List.mem_cons_of_mem _ h)]
    simp

/-- Lines without `\n` and not ending in `\r`, each followed by `\n`, read back as
themselves. -/
theorem lines_join (L : List String)
    (h : ∀ l ∈ L, '\n' ∉ l.data ∧ l.data.getLast? ≠ some '\r') :
    lines (String.join (L.map (· ++ "\n"))) = L := by
  suffices linesAux [] (L.map fun l => l.data ++ ['\n']).flatten = L.map String.data by
    simp [lines, String.data_join, Function.comp_def, this]
  induction L with
  | nil => rfl
  | cons l L ih =>
    simp only [List.forall_mem_cons] at h
    have hr : ∀ cur', l.data.reverse = '\r' :: cur' → False := fun cur' hc => h.1.2 (by
      rw [← List.head?_reverse, hc]; rfl)
    rw [List.map_cons, List.flatten_cons, List.append_assoc, linesAux_append _ _ _ h.1.1,
      List.append_nil, List.singleton_append, linesAux.eq_3 _ _ hr, ih h.2, List.reverse_reverse,
      List.map_cons]

/-- `str::trim` keeps only characters of the text. -/
theorem trim_subset (l : List Char) : trim l ⊆ l := fun _ hc =>
  List.dropWhile_subset _ (List.mem_reverse.1
    (List.dropWhile_subset _ (List.mem_reverse.1 hc)))

/-- Pieces each ended by a separator they do not contain split back at it into themselves,
and the empty piece after the last separator. -/
theorem splitOn_flatten_map_append {c : Char} (ps : List (List Char)) (h : ∀ p ∈ ps, c ∉ p) :
    (ps.map (· ++ [c])).flatten.splitOn c = ps ++ [[]] := by
  induction ps with
  | nil => rfl
  | cons p ps ih =>
    simp only [List.mem_cons, forall_eq_or_imp] at h
    rw [List.map_cons, List.flatten_cons, List.append_assoc, List.singleton_append, List.splitOn,
      List.splitOnP_first _ _ (fun x hx hxc => h.1 (by rw [beq_iff_eq] at hxc; exact hxc ▸ hx)) c
        (by simp), ← List.splitOn, ih h.2]
    rfl

end Sccache
