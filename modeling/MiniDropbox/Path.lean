/-
Paths as the server computes them (`util.c`): normalisation, the user's root and
the resolution of a client path against it, and the directory iterator.

`normalizePath` keeps the output buffer of the source as the list of the bytes
written so far, so that the index `i` is its length; rewinding the index drops
bytes from the end. The loop over the input runs over the pieces between slashes,
since the source skips slashes and then scans one component at a time. The index and the
length of a component are natural numbers there; `normalizePathInt` keeps them in the `int`
variables of the source, and the two agree below 2 ^ 31 bytes (`normalizePathInt_eq`).
-/

import Mathlib.Data.List.Basic
import MiniDropbox.Lib.Lexical
import MiniDropbox.Types

namespace MiniDropbox

def STORAGE_DIR : CStr := cstr "/var/minibox"

/-! ### Normalisation -/

/-- The components of a path: its nonempty pieces between slashes. -/
def components (path : CStr) : List CStr := Lexical.pieces slash path

/-- `while (i > floor && out[i - 1] != '/') i--;` -/
def rewind (floor : Nat) (out : CStr) : Nat → Nat
  | 0 => 0
  | i + 1 => if floor < i + 1 ∧ out[i]? ≠ some slash then rewind floor out i else i + 1

/-- `out[i - 1] == '.' && (i < 2 || out[i - 2] == '/')`, for a nonempty output: the
test by which a relative path keeps a trailing `..`. -/
def endsInDot (out : CStr) : Bool :=
  out[out.length - 1]? == some dot && (out.length < 2 || out[out.length - 2]? == some slash)

/-- One component of the input. -/
def normalizeStep (isAbsolute : Bool) (out comp : CStr) : CStr :=
  if comp = [dot] then out
  else if comp = [dot, dot] then
    if isAbsolute then
      if out.length > 1 then out.take (rewind 1 out (out.length - 1)) else out
    else if out.length > 0 ∧ ¬ endsInDot out then
      let i := rewind 0 out (out.length - 1)
      out.take (if i > 0 then i - 1 else i)
    else (if out.length > 0 then out ++ [slash] else out) ++ [dot, dot]
  else
    (if out.length > 0 ∧ out[out.length - 1]? ≠ some slash then out ++ [slash] else out) ++ comp

/-- Mirrors `normalize_path` on a non-NULL path of fewer than 2 ^ 31 bytes, as its caller
passes them: the variables `len` and `i` are as large as they have to be. -/
def normalizePath (path : CStr) : CStr :=
  let isAbsolute := path.head? == some slash
  let out := (components path).foldl (normalizeStep isAbsolute) (if isAbsolute then [slash] else [])
  if out = [] then [dot] else out

-- The two cases of the repository's own test.
example : normalizePath (cstr "/usr/./hello/world.txt") = cstr "/usr/hello/world.txt" ∧
    normalizePath (cstr "/usr/../hello/world.txt") = cstr "/hello/world.txt" := by
  decide

/-- The root that an absolute path starts with, and the components with a separator each,
are at most one byte longer than the path. -/
theorem length_components (path : CStr) :
    (if path.head? == some slash then 1 else 0) + (Lexical.joined slash (components path)).length ≤
      path.length + 1 := by
  cases path with
  | nil => decide
  | cons c rest =>
      by_cases absolute : c = slash
      · subst absolute
        have behind : components (slash :: rest) = components rest := Lexical.pieces_append [] rest
        have shorter := @Lexical.length_joined_pieces _ slash _ rest
        rw [behind, components, List.length_cons, List.head?_cons, if_pos (beq_self_eq_true _)]
        omega
      · have relative : ¬ (some c == some slash) = true := by simpa using absolute
        rw [List.head?_cons, if_neg relative, Nat.zero_add]
        exact Lexical.length_joined_pieces (c :: rest)

/-- `int i`: the length of the output, unless it has left the range of `int`. -/
def indexed (out : CStr) : Option CStr := if out.length < 2 ^ 31 then some out else none

/-- One component of the input, with `int len = p - start`: it tells `.` and `..`, and
`memcpy` copies so many bytes. `none` where the length is negative or `i` overflows. -/
def normalizeStepInt (isAbsolute : Bool) (out comp : CStr) : Option CStr :=
  let len := intOf comp.length
  if len = 1 ∧ comp[0]? = some dot then some out
  else if len = 2 ∧ comp[0]? = some dot ∧ comp[1]? = some dot then indexed (normalizeStep isAbsolute out [dot, dot])
  else if len < 0 then none
  else
    indexed ((if out.length > 0 ∧ out[out.length - 1]? ≠ some slash then out ++ [slash] else out) ++
      comp.take len.toNat)

/-- Mirrors `normalize_path` on any non-NULL path. -/
def normalizePathInt (path : CStr) : Option CStr :=
  let isAbsolute := path.head? == some slash
  ((components path).foldlM (normalizeStepInt isAbsolute) (if isAbsolute then [slash] else [])).map fun out =>
    if out = [] then [dot] else out

/-! ### User paths -/

/-- Mirrors `get_user_root`. -/
def getUserRoot (libs : Externals) (token : Token) : CStr :=
  snprintf PATH_MAX (STORAGE_DIR ++ slash :: libs.uuidUnparse token)

/-- Mirrors `get_user_path`: `none` when the normalised path does not start with
the characters of the user's root. -/
def getUserPath (libs : Externals) (path : CStr) (token : Token) : Option CStr :=
  let root := getUserRoot libs token
  let normalized := normalizePath (snprintf (PATH_MAX * 2) (root ++ slash :: path))
  if normalized.take root.length = root then some normalized else none

/-- A path lies in a directory: it is the directory or continues it with a
separator. -/
def LiesIn (root path : CStr) : Prop := path = root ∨ root ++ [slash] <+: path

instance (root path : CStr) : Decidable (LiesIn root path) := by
  unfold LiesIn; infer_instance

theorem length_storage (libs : Externals) (token : Token) : (STORAGE_DIR ++ slash :: libs.uuidUnparse token).length = 49 := by
  rw [List.length_append, List.length_cons, libs.length_uuidUnparse]
  rfl

/-- The user's root is never truncated. -/
theorem getUserRoot_eq (libs : Externals) (token : Token) :
    getUserRoot libs token = STORAGE_DIR ++ slash :: libs.uuidUnparse token := by
  have fits : (STORAGE_DIR ++ slash :: libs.uuidUnparse token).length ≤ PATH_MAX - 1 := by
    rw [length_storage]
    decide
  rw [getUserRoot, snprintf, List.take_of_length_le fits]

theorem length_getUserRoot (libs : Externals) (token : Token) : (getUserRoot libs token).length = 49 := by
  rw [getUserRoot_eq, length_storage]

/-- What a buffer of `size` bytes keeps of a path behind the user's root. -/
def keptPath (size : Nat) (path : CStr) : CStr := path.take (size - 51)

theorem keptPath_of_length_le {size : Nat} {path : CStr} (short : path.length ≤ size - 51) : keptPath size path = path :=
  List.take_of_length_le short

theorem snprintf_root (libs : Externals) (token : Token) {size : Nat} (large : 51 ≤ size) (path : CStr) :
    snprintf size (getUserRoot libs token ++ slash :: path) = getUserRoot libs token ++ slash :: keptPath size path := by
  have room : size - 1 = (getUserRoot libs token).length + (size - 51 + 1) := by
    rw [length_getUserRoot]
    omega
  rw [snprintf, room, List.take_length_add_append, List.take_succ_cons, keptPath]

/-! ### The directory iterator -/

/-- The static variables of `path_next_dir`. The working copy holds a NUL where
the last returned prefix ends. -/
structure PathIter where
  path : List Byte
  len : Nat
  currSlash : Int

/-- `while ((path[i] != '/' || i <= skip_chars) && path[i] != '\0') i++;` -/
def scanDir (path : List Byte) (skip : Int) : Nat → Nat → Nat
  | 0, i => i
  | fuel + 1, i =>
      if (path.getD i 0 ≠ slash ∨ (i : Int) ≤ skip) ∧ path.getD i 0 ≠ 0 then
        scanDir path skip fuel (i + 1)
      else i

/-- Mirrors `path_next_dir`. -/
def pathNextDir (iter : PathIter) (fullPath : Option CStr) (skip : Int) : Option CStr × PathIter :=
  let iter := match fullPath with
    | some path => ⟨path, path.length, -1⟩
    | none => iter
  if iter.currSlash ≥ iter.len then (none, iter)
  else
    let path := if iter.currSlash ≥ 0 then iter.path.set iter.currSlash.toNat slash else iter.path
    let i := scanDir path skip iter.len (iter.currSlash + 1).toNat
    let path := path.set i 0
    (some (cString path), ⟨path, iter.len, i⟩)

-- The case of the repository's own test.
example :
    let first := pathNextDir ⟨[], 0, 0⟩ (some (cstr "/usr/share/dict/british")) 9
    first.1 = some (cstr "/usr/share") ∧
      (pathNextDir first.2 none 0).1 = some (cstr "/usr/share/dict") := by
  decide

end MiniDropbox
