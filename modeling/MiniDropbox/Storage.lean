/-
The file system and the functions of `util.c` and `file.c` that use it.

The tree maps places, lists of names from the root, to nodes; `Fs.resolve` is the
path resolution of the kernel, with `.` and `..`, symbolic links and its limits.
A system call acts on the tree it finds, or fails because `Faults` says so: every
call site can fail for any reason, path by path. Reads of an open regular file by
`file_checksum` do not fail.
-/

import Mathlib.Data.List.Basic
import MiniDropbox.File
import MiniDropbox.Path

namespace MiniDropbox

/-! ### The tree -/

/-- The names from the root directory down. -/
abbrev Place := List CStr

inductive Node where
  | dir
  | file (bytes : List Byte)
  | link (target : CStr)
  deriving DecidableEq

theorem Node.dir_ne_link (target : CStr) : Node.dir ≠ .link target := nofun

theorem Node.file_ne_link (bytes : List Byte) (target : CStr) : Node.file bytes ≠ .link target := nofun

structure Fs where
  nodes : List (Place × Node)
  cwd : Place
  deriving DecidableEq

def Fs.get? (fs : Fs) (place : Place) : Option Node :=
  if place = [] then some .dir else fs.nodes.lookup place

def Fs.erase (fs : Fs) (place : Place) : Fs :=
  { fs with nodes := fs.nodes.filter fun entry => entry.1 ≠ place }

def Fs.set (fs : Fs) (place : Place) (node : Node) : Fs :=
  { fs with nodes := (place, node) :: (fs.erase place).nodes }

/-- The names in a directory. -/
def Fs.names (fs : Fs) (place : Place) : List CStr :=
  fs.nodes.filterMap fun entry => if entry.1.dropLast = place then entry.1.getLast? else none

/-! ### Path resolution -/

def NAME_MAX : Nat := 255

/-- Walk down the names of a path. A link is followed unless it is the last name and
`follow` is off; `links` bounds how many are. The place of a missing last name is
still found. -/
def Fs.walk (fs : Fs) (follow : Bool) : Nat → Nat → Place → List CStr → Except Errno Place
  | 0, _, _, _ => .error .ELOOP
  | _ + 1, _, place, [] => .ok place
  | fuel + 1, links, place, name :: rest =>
      match fs.get? place with
      | none => .error .ENOENT
      | some (.file _) => .error .ENOTDIR
      | some (.link _) => .error .ENOTDIR
      | some .dir =>
          if name = [dot] then fs.walk follow fuel links place rest
          else if name = [dot, dot] then fs.walk follow fuel links place.dropLast rest
          else if name.length > NAME_MAX then .error .ENAMETOOLONG
          else
            match fs.get? (place ++ [name]) with
            | none => if rest = [] then .ok (place ++ [name]) else .error .ENOENT
            | some (.link target) =>
                if rest = [] ∧ ¬ follow then .ok (place ++ [name])
                else if links = 0 then .error .ELOOP
                else fs.walk follow fuel (links - 1)
                  (if target.head? = some slash then [] else place) (components target ++ rest)
            | some _ => fs.walk follow fuel links (place ++ [name]) rest

/-- The place a path names. A trailing slash asks for a directory. -/
def Fs.resolve (fs : Fs) (follow : Bool) (path : CStr) : Except Errno Place :=
  if path = [] then .error .ENOENT
  else if path.length ≥ PATH_MAX then .error .ENAMETOOLONG
  else fs.walk follow (42 * PATH_MAX) 40 (if path.head? = some slash then [] else fs.cwd)
    (components path ++ if path.getLast? = some slash then [[dot]] else [])

/-! ### System calls -/

/-- The call sites of the sources. `lstat` and the opening of `file_checksum` are
used both by the handlers and by `file_send`. -/
inductive Site where
  | existsOpen | infoLstat | infoOpen | sendLstat | sendInfoOpen | sendOpen | recvOpen
  | mkdir | listOpendir | rmLstat | rmUnlink | rmOpendir | rmRmdir
  deriving DecidableEq, Repr

/-- The failures the environment imposes, by call site and path. -/
abbrev Faults := Site → CStr → Option Errno

variable (faults : Faults)

/-- A system call, which fails when the environment says so. -/
def perform {α : Type} (site : Site) (path : CStr) (call : Except Errno α) : Except Errno α :=
  match faults site path with
  | some errno => .error errno
  | none => call

def Fs.lstat (fs : Fs) (path : CStr) : Except Errno Node := do
  let place ← fs.resolve false path
  match fs.get? place with
  | none => .error .ENOENT
  | some node => .ok node

/-- `open(path, O_RDONLY)` -/
def Fs.openRead (fs : Fs) (path : CStr) : Except Errno Node := do
  let place ← fs.resolve true path
  match fs.get? place with
  | none => .error .ENOENT
  | some node => .ok node

/-- `open(path, O_WRONLY | O_CREAT, 0644)`: the tree with the file, its place and its
content. -/
def Fs.openCreate (fs : Fs) (path : CStr) : Except Errno (Fs × Place × List Byte) := do
  let place ← fs.resolve true path
  match fs.get? place with
  | none => .ok (fs.set place (.file []), place, [])
  | some (.file bytes) => .ok (fs, place, bytes)
  | some .dir => .error .EISDIR
  | some (.link _) => .error .ELOOP

/-- A path without its trailing slashes. -/
def trimSlashes (path : CStr) : CStr :=
  let trimmed := (path.reverse.dropWhile (· = slash)).reverse
  if trimmed = [] then path else trimmed

def Fs.mkdir (fs : Fs) (path : CStr) : Except Errno Fs := do
  let place ← fs.resolve false (trimSlashes path)
  match fs.get? place with
  | none => .ok (fs.set place .dir)
  | some _ => .error .EEXIST

def Fs.unlink (fs : Fs) (path : CStr) : Except Errno Fs := do
  let place ← fs.resolve false path
  match fs.get? place with
  | none => .error .ENOENT
  | some .dir => .error .EISDIR
  | some _ => .ok (fs.erase place)

/-- What `rmdir` says of the last name of a path: the root, `.` and `..` are not removed. -/
def refusedName : Option CStr → Option Errno
  | none => some .EBUSY
  | some name => if name = [dot] then some .EINVAL else if name = [dot, dot] then some .ENOTEMPTY else none

def Fs.rmdir (fs : Fs) (path : CStr) : Except Errno Fs := do
  let place ← fs.resolve false (trimSlashes path)
  match refusedName (components path).getLast? with
  | some errno => .error errno
  | none =>
      match fs.get? place with
      | none => .error .ENOENT
      | some .dir => if fs.names place = [] then .ok (fs.erase place) else .error .ENOTEMPTY
      | some _ => .error .ENOTDIR

/-- `opendir` and the names `readdir` returns, `.` and `..` left out. -/
def Fs.opendir (fs : Fs) (path : CStr) : Except Errno (List CStr) := do
  let place ← fs.resolve true path
  match fs.get? place with
  | none => .error .ENOENT
  | some .dir => .ok (fs.names place)
  | some _ => .error .ENOTDIR

/-! ### Regular files -/

theorem ok_of_bind {α β : Type} {call : Except Errno α} {next : α → Except Errno β} {value : β}
    (ok : (call >>= next) = .ok value) : ∃ a, call = .ok a ∧ next a = .ok value := by
  cases call with
  | error errno => cases ok
  | ok a => exact ⟨a, rfl, ok⟩

theorem lstat_of_resolve {fs : Fs} {path : CStr} {place : Place} {node : Node}
    (resolved : fs.resolve false path = .ok place) (there : fs.get? place = some node) :
    fs.lstat path = .ok node := by
  simp [Fs.lstat, resolved, bind, Except.bind, there]

/-! ### The functions of the sources -/

/-- Mirrors `file_exists`: 1, 0, or -1. -/
def fileExists (fs : Fs) (filename : CStr) : Int :=
  match perform faults .existsOpen filename (fs.openRead filename) with
  | .ok _ => 1
  | .error .ENOENT => 0
  | .error _ => -1

/-- Mirrors `file_checksum` on a file whose reads succeed. -/
def fileChecksum (libs : Externals) (site : Site) (fs : Fs) (filename : CStr) : Option Checksum :=
  match perform faults site filename (fs.openRead filename) with
  | .ok (.file bytes) => some (libs.checksum bytes)
  | _ => none

/-- Mirrors `fileinfo_from_filename`, with the call sites of its caller: the return
value and the structure it leaves in `out`. -/
def fileinfoFromFilename (libs : Externals) (lstatSite openSite : Site) (fs : Fs) (filename : CStr)
    (out : FileInfo) : Int × FileInfo :=
  match perform faults lstatSite filename (fs.lstat filename) with
  | .error _ => (-1, out)
  | .ok (.file bytes) =>
      let out := { out with
        filename := filename, size := bytes.length, chunkCount := chunkCount bytes.length }
      match fileChecksum faults libs openSite fs filename with
      | none => (-3, out)
      | some checksum => (0, { out with checksum := checksum })
  | .ok _ => (-2, out)

/-- The loop of `create_directories_from_path`. -/
def createDirectories (fs : Fs) : Nat → PathIter → Fs × Except Errno Unit
  | 0, _ => (fs, .ok ())
  | fuel + 1, iter =>
      match pathNextDir iter none 0 with
      | (none, _) => (fs, .ok ())
      | (some dir, iter) =>
          match perform faults .mkdir dir (fs.mkdir dir) with
          | .ok fs => createDirectories fs fuel iter
          | .error errno =>
              if errno = .EEXIST then createDirectories fs fuel iter else (fs, .error errno)

/-- Mirrors `create_directories_from_path`: the tree, the return value, and `errno`
when a `mkdir` failed. -/
def createDirectoriesFromPath (fs : Fs) (rootDir userPath : CStr) : Fs × Int × Option Errno :=
  let path := normalizePath (snprintf PATH_MAX (rootDir ++ slash :: userPath))
  if path.take rootDir.length = rootDir then
    let iter := (pathNextDir ⟨[], 0, 0⟩ (some path) (rootDir.length - 1)).2
    match createDirectories faults fs (path.length + 1) iter with
    | (fs, .ok _) => (fs, 0, none)
    | (fs, .error errno) => (fs, -3, some errno)
  else (fs, -2, none)

/-- Mirrors `rm_r`. The recursive results are not looked at; `fuel` bounds the
depth. -/
def rmR : Nat → Fs → CStr → Fs × Except Errno Unit
  | 0, fs, _ => (fs, .error .ELOOP)
  | fuel + 1, fs, path =>
      match perform faults .rmLstat path (fs.lstat path) with
      | .error errno => (fs, .error errno)
      | .ok .dir =>
          match perform faults .rmOpendir path (fs.opendir path) with
          | .error errno => (fs, .error errno)
          | .ok names =>
              let fs := names.foldl (fun fs name =>
                (rmR fuel fs (snprintf PATH_MAX (path ++ slash :: name))).1) fs
              match perform faults .rmRmdir path (fs.rmdir path) with
              | .error errno => (fs, .error errno)
              | .ok fs => (fs, .ok ())
      | .ok _ =>
          match perform faults .rmUnlink path (fs.unlink path) with
          | .error errno => (fs, .error errno)
          | .ok fs => (fs, .ok ())

/-- A bound on the depth of the tree. -/
def Fs.depth (fs : Fs) : Nat := fs.nodes.length + 1

end MiniDropbox
