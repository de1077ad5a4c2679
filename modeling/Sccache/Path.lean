import Sccache.Text

set_option autoImplicit false

/-! # Paths on the two hosts of `std::path`

The MSVC backend names files through `std::path`: `Path::file_name` and `Path::extension` of
the input, and `Path::join` for the dependency file, the `.pdb` and the temporary source.
What they do depends on the host the code is built for. On Unix `/` is the only separator.
On Windows, where `cl.exe` runs, `\` separates components as well, and a path may start
with a drive prefix such as `C:`; a path with a prefix joined to a directory replaces it.
Every function of the model that reads a path takes the `Host`, so each theorem holds on
both. UNC and verbatim prefixes (`\\server\share`, `\\?\`) are left out.

Removing a directory removes the paths below it (`below`), read with the host's
separators. A name with no separator and no prefix, joined to a directory, lies below it
(`below_join`). A file name holds no separator (`isSep_of_mem_fileName`), but on Windows it
can start with a drive prefix: `x\c:y.c` has the file name `c:y.c`, and joined to a
directory that name stays `c:y.c`, a path relative to the drive `c:`.
-/

namespace Sccache

/-- The hosts `std::path` is built for. -/
inductive Host where
  | unix
  | windows
  deriving DecidableEq, Repr

namespace Host

/-- `is_sep_byte`: `/` on Unix; `/` and `\` on Windows. -/
def isSep : Host → Char → Bool
  | .unix, c => c == '/'
  | .windows, c => c == '/' || c == '\\'

/-- `MAIN_SEPARATOR`, the separator `PathBuf::push` inserts. -/
def sep : Host → Char
  | .unix => '/'
  | .windows => '\\'

/-- The length of the prefix a path starts with: a drive letter and `:` on Windows, nothing
on Unix. -/
def prefixLen : Host → List Char → Nat
  | .unix, _ => 0
  | .windows, c :: ':' :: _ => if c.isAlpha then 2 else 0
  | .windows, _ => 0

@[simp] theorem isSep_sep (host : Host) : host.isSep host.sep = true := by
  cases host <;> rfl

@[simp] theorem prefixLen_unix (l : List Char) : Host.unix.prefixLen l = 0 := rfl

end Host

namespace Path

/-- The names `Path::components` reports after the prefix: the pieces between separators,
without the empty ones and `.`. -/
def components (host : Host) (p : String) : List String :=
  (((p.data.drop (host.prefixLen p.data)).splitOnP host.isSep).filter
    fun c => c ≠ [] && c ≠ ['.']).map String.mk

/-- `Path::file_name`: the last component, unless it is `..` or there is none. -/
def fileName (host : Host) (p : String) : Option String :=
  match (components host p).getLast? with
  | some c => if c = ".." then none else some c
  | none => none

/-- The extension of a file name, as `rsplit_file_at_dot` finds it: the text after the
last `.`, when there is one and it is not the first character. -/
def extensionOf (name : String) : Option String :=
  match name.data.reverse.dropWhile (· ≠ '.') with
  | '.' :: _ :: _ => some ⟨(name.data.reverse.takeWhile (· ≠ '.')).reverse⟩
  | _ => none

/-- `Path::extension`: the extension of the file name. -/
def extension (host : Host) (p : String) : Option String := (fileName host p).bind extensionOf

/-- `Path::has_root`: after its prefix, the path starts with a separator. -/
def hasRoot (host : Host) (p : String) : Bool :=
  match p.data.drop (host.prefixLen p.data) with
  | c :: _ => host.isSep c
  | [] => false

/-- `Path::is_absolute`: a root, after a prefix on Windows. -/
def isAbsolute (host : Host) (p : String) : Bool :=
  hasRoot host p && (host == .unix || 0 < host.prefixLen p.data)

/-- Whether `PathBuf::push` puts a separator after `p`: `p` does not end with one and is no
bare drive `C:`. -/
def needSep (host : Host) (p : String) : Bool :=
  match p.data.getLast? with
  | some c => !host.isSep c && host.prefixLen p.data != p.data.length
  | none => false

/-- `Path::join`, which runs `PathBuf::push` on a copy of `p`: a `q` that is absolute or has
a prefix replaces `p`; a `q` with a root keeps only the prefix of `p`; any other `q` follows
`p`, after a separator when `p` needs one. -/
def join (host : Host) (p q : String) : String :=
  if isAbsolute host q || 0 < host.prefixLen q.data then q
  else if hasRoot host q then ⟨p.data.take (host.prefixLen p.data)⟩ ++ q
  else if needSep host p then p ++ ⟨[host.sep]⟩ ++ q
  else p ++ q

/-- Whether `q` lies below the directory `dir`: `dir` and then a separator start it. -/
def below (host : Host) (dir q : String) : Bool :=
  startsWith q dir && match q.data.drop dir.data.length with
    | c :: _ => host.isSep c
    | [] => false

/-- A path with an extension has a file name: `extension` reads the file name. -/
theorem fileName_isSome_of_extension {host : Host} {p e : String}
    (h : extension host p = some e) : (fileName host p).isSome := by
  cases hf : fileName host p <;> simp_all [extension]

example : extension .unix "src/foo.c" = some "c" ∧ fileName .unix "src/foo.c" = some "foo.c" := by
  decide
example : fileName .windows "src\\foo.c" = some "foo.c" ∧
    fileName .unix "src\\foo.c" = some "src\\foo.c" := by decide
example : extension .unix ".bashrc" = none ∧ extension .windows "C:foo" = none := by decide

/-- A piece of a list split where `P` holds has no element where `P` holds. -/
theorem eq_false_of_mem_splitOnP {P : Char → Bool} {l piece : List Char}
    (h : piece ∈ l.splitOnP P) : ∀ c ∈ piece, P c = false := by
  induction l generalizing piece with
  | nil => simp_all
  | cons a l ih =>
    rw [List.splitOnP_cons] at h
    obtain ⟨p, ps, hps⟩ := List.exists_cons_of_ne_nil (List.splitOnP_ne_nil P l)
    split at h
    · rcases List.mem_cons.1 h with rfl | h
      · simp
      · exact ih h
    · rw [hps] at h ih
      rcases List.mem_cons.1 h with rfl | h
      · rintro c (_ | ⟨_, hc⟩)
        · simp_all
        · exact ih (List.mem_cons_self _ _) c hc
      · exact ih (List.mem_cons_of_mem _ h)

/-- A file name holds no separator. -/
theorem isSep_of_mem_fileName {host : Host} {p name : String} (h : fileName host p = some name) :
    ∀ c ∈ name.data, host.isSep c = false := by
  unfold fileName at h
  split at h
  · rename_i c hc
    split at h <;> cases h
    obtain ⟨piece, hp, rfl⟩ := List.mem_map.1 (List.mem_of_getLast?_eq_some hc)
    exact eq_false_of_mem_splitOnP (List.mem_filter.1 hp).1
  · cases h

/-- A name with no separator and no prefix, joined to a directory after which `push` puts a
separator, lies below the directory. -/
theorem below_join {host : Host} {dir name : String} (hdir : needSep host dir = true)
    (hsep : ∀ c ∈ name.data, host.isSep c = false) (hpre : host.prefixLen name.data = 0) :
    below host dir (join host dir name) = true := by
  have hroot : hasRoot host name = false := by
    unfold hasRoot
    rw [hpre, List.drop_zero]
    cases hn : name.data with
    | nil => rfl
    | cons c _ => exact hsep c (hn ▸ List.mem_cons_self _ _)
  have hj : join host dir name = dir ++ ⟨[host.sep]⟩ ++ name := by
    simp [join, isAbsolute, hroot, hpre, hdir]
  rw [hj, below, String.data_append, String.data_append, List.append_assoc, List.drop_left]
  simp [startsWith_iff]

/-- On Windows a file name can carry a drive prefix, and `join` then leaves the directory. -/
example : fileName .windows "x\\c:y.c" = some "c:y.c" ∧
    join .windows "C:\\tmp" "c:y.c" = "c:y.c" := by decide

end Path

end Sccache
