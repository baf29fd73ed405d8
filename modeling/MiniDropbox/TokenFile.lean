/-
The token file: `load_token` (`client.c`) and `xdg_get_dir` (`util.c`).

Every command loads its token before it asks the server for anything: the first one
makes the file and writes a new token into it, the later ones read it. Commands that
run at the same time share nothing but the file, and the one that makes it and the
others take their system calls in any order. `open` with `O_EXCL` lets one process
make the file (`token_agreed`), but between its `open` and its `write` the file is
there and empty, and nobody looks at how much `read` returns.
-/

import Mathlib.Logic.Function.Basic
import MiniDropbox.Lib.Transition
import MiniDropbox.Server
import MiniDropbox.Startup

namespace MiniDropbox

open Transition

/-! ### The path -/

inductive XDGDir where
  | configHome | stateHome
  deriving DecidableEq

/-- Mirrors `xdg_dir_to_str`. -/
def xdgDirToStr : XDGDir → CStr
  | .configHome => cstr "XDG_CONFIG_HOME"
  | .stateHome => cstr "XDG_STATE_HOME"

/-- Mirrors `xdg_get_dir`: the text `snprintf` is asked to print, whose length it returns. -/
def xdgGetDir (getenv : CStr → Option CStr) (dir : XDGDir) : Option CStr :=
  match (getenv (xdgDirToStr dir)).filter (· ≠ []) with
  | some path => some path
  | none => ((getenv (cstr "HOME")).filter (· ≠ [])).map (· ++ cstr "/.config")

def tokfileName : CStr := cstr "/minidropbox.token"

/-- What `load_token` leaves in `tokfile_path`, a buffer of `PATH_MAX` bytes: the difference
it gives to `strncat` is a `size_t`. -/
def tokfilePath (text : CStr) : CStr :=
  snprintf PATH_MAX text ++ tokfileName.take (sizeT (2 ^ 64 + PATH_MAX - text.length))

/-- The path and its terminator stay in the buffer, and the path is that of the file, when the
directory leaves room for the name. `strncat` is not told of the terminator, and a directory
of more than the buffer makes the difference wrap. -/
theorem tokfilePath_fits_iff {text : CStr} (sized : text.length < 2 ^ 31) :
    (tokfilePath text).length < PATH_MAX ↔
      text.length + tokfileName.length < PATH_MAX ∨ text.length = PATH_MAX := by
  have name : tokfileName.length = 18 := rfl
  rw [tokfilePath, snprintf, List.length_append, List.length_take, List.length_take, name]
  simp only [PATH_MAX, sizeT]
  by_cases long : text.length ≤ 4096
  · have left : (2 ^ 64 + 4096 - text.length) % 2 ^ 64 = 4096 - text.length := by omega
    rw [left]
    omega
  · have left : (2 ^ 64 + 4096 - text.length) % 2 ^ 64 = 2 ^ 64 + 4096 - text.length := by omega
    rw [left]
    omega

/-! ### The processes -/

/-- The processes of one user. `held` is what the `token` of the caller contains before the
call, and `stack` what the memory of `token_str` does, from there on. -/
structure Clients where
  libs : Externals
  uuid : UuidParse
  parse_unparse : ∀ t, uuid.parse (libs.uuidUnparse t) = some t
  generate : Nat → Token
  held : Nat → Token
  stack : Nat → List Byte

/-- How a process came by its token: it made it, or it read these bytes. -/
inductive TokenRoute where
  | made
  | read (bytes : List Byte)
  deriving DecidableEq

/-- Where a process is in `load_token`, before the call that comes next; a process can be
killed. -/
inductive LoadPc where
  | create | write | reopen | read
  | done (route : TokenRoute) (token : Token)
  | failed
  | killed
  deriving DecidableEq

/-- The file, and the processes. -/
structure TokenHome where
  file : Option (List Byte)
  procs : Nat → LoadPc

def TokenHome.goto (s : TokenHome) (i : Nat) (pc : LoadPc) : TokenHome :=
  { s with procs := Function.update s.procs i pc }

namespace Clients

variable (c : Clients)

/-- What a process writes. -/
def written (i : Nat) : List Byte := c.libs.uuidUnparse (c.generate i) ++ [0]

/-- The token a process ends with when it has read these bytes into `token_str`: a text that
`uuid_parse` rejects leaves the token as it is. -/
def tokenRead (i : Nat) (bytes : List Byte) : Token :=
  (c.uuid.parse (cString (bytes ++ (c.stack i).drop bytes.length))).getD (c.held i)

def start : TokenHome := ⟨none, fun _ => .create⟩

/-- The next system call of a process in `load_token`, which succeeds or fails. The call that
makes the file is `open` with `O_CREAT | O_EXCL`, which finds no other error number than its
own; results of `read` and `write` are not looked at. -/
def load (s : TokenHome) (i : Nat) (succeeds : Bool) : Option TokenHome :=
  match s.procs i, succeeds with
  | .create, true =>
      match s.file with
      | none => some ({ s with file := some [] }.goto i .write)
      | some _ => some (s.goto i .reopen)
  | .create, false => some (s.goto i .failed)
  | .write, true =>
      some ({ s with file := s.file.map fun old : List Byte => c.written i ++ old.drop (c.written i).length }.goto i
        (.done .made (c.generate i)))
  | .write, false => some (s.goto i (.done .made (c.generate i)))
  | .reopen, true => some (s.goto i .read)
  | .reopen, false => some (s.goto i .failed)
  | .read, true =>
      let bytes := (s.file.getD []).take 37
      some (s.goto i (.done (.read bytes) (c.tokenRead i bytes)))
  | .read, false => some (s.goto i (.done (.read []) (c.tokenRead i [])))
  | .done _ _, _ | .failed, _ | .killed, _ => none

/-- A process takes its next call, or is killed before it. -/
inductive Step (s : TokenHome) : TokenHome → Prop where
  | load (i : Nat) (succeeds : Bool) {t : TokenHome} (next : c.load s i succeeds = some t) : Step s t
  | kill (i : Nat) (inside : ∀ route token, s.procs i ≠ .done route token) : Step s (s.goto i .killed)

variable {c} {s t : TokenHome} {i w : Nat}

/-! ### Who has which token -/

theorem length_written : (c.written i).length = 37 := by
  simp [written, c.libs.length_uuidUnparse]

/-- What a process reads of another's token is the token. -/
theorem tokenRead_written : c.tokenRead i (c.written w) = c.generate w := by
  have clean : 0 ∉ c.libs.uuidUnparse (c.generate w) := fun zero => by
    simpa [IsUuidChar] using c.libs.mem_uuidUnparse _ _ zero
  rw [tokenRead, written, List.append_assoc, List.singleton_append, cString_append clean, c.parse_unparse]
  rfl

/-- Where a process stands when `w` has made the file and `bytes` are in it. -/
def Fits (c : Clients) (w : Nat) (bytes : List Byte) (i : Nat) : LoadPc → Prop
  | .write => i = w ∧ bytes = []
  | .done .made token => i = w ∧ token = c.generate w
  | .done (.read got) token =>
      got = [] ∧ token = c.tokenRead i [] ∨ got = c.written w ∧ bytes = got ∧ token = c.generate w
  | _ => True

/-- Nobody has got beyond `open` before there is a file; the file is that of one process, and
empty or with its token in it. -/
def Told (c : Clients) (s : TokenHome) : Prop :=
  match s.file with
  | none => ∀ i, s.procs i = .create ∨ s.procs i = .failed ∨ s.procs i = .killed
  | some bytes => ∃ w, (bytes = [] ∨ bytes = c.written w) ∧ ∀ i, c.Fits w bytes i (s.procs i)

theorem procs_goto (pc : LoadPc) (j : Nat) : (s.goto i pc).procs j = if j = i then pc else s.procs j := by
  simp [TokenHome.goto, Function.update_apply]

/-- Moving one process on. -/
theorem told_goto (told : c.Told s) (pc : LoadPc) (opened : s.file = none → pc = .failed ∨ pc = .killed)
    (fits : ∀ w bytes, s.file = some bytes → (bytes = [] ∨ bytes = c.written w) →
      c.Fits w bytes i (s.procs i) → c.Fits w bytes i pc) : c.Told (s.goto i pc) := by
  have same : (s.goto i pc).file = s.file := rfl
  unfold Told at told ⊢
  rw [same]
  cases file : s.file with
  | none =>
      rw [file] at told
      intro j
      rw [procs_goto]
      split_ifs
      · exact .inr (opened file)
      · exact told j
  | some bytes =>
      rw [file] at told
      obtain ⟨w, holds, all⟩ := told
      refine ⟨w, holds, fun j => ?_⟩
      rw [procs_goto]
      split_ifs with this
      · exact this ▸ fits w bytes file holds (this ▸ all i)
      · exact all j

/-- Without a file, a process that is still at work has not yet come past its first call. -/
theorem Told.create (told : c.Told s) (file : s.file = none) (inside : s.procs i ≠ .failed ∧ s.procs i ≠ .killed) :
    s.procs i = .create := by
  unfold Told at told
  rw [file] at told
  rcases told i with create | failed | killed
  · exact create
  · exact absurd failed inside.1
  · exact absurd killed inside.2

/-- The exclusive `open` that makes the file. -/
theorem told_made (told : c.Told s) (file : s.file = none) :
    c.Told ({ s with file := some [] }.goto i .write) := by
  unfold Told at told
  rw [file] at told
  refine ⟨i, .inl rfl, fun j => ?_⟩
  rw [procs_goto]
  split_ifs with this
  · exact ⟨this, rfl⟩
  · rcases told j with here | here | here
    all_goals
      rw [here]
      trivial

/-- The `write` of the process that made the file. -/
theorem told_written (told : c.Told s) (here : s.procs i = .write) :
    c.Told ({ s with file := s.file.map fun old : List Byte => c.written i ++ old.drop (c.written i).length }.goto i
      (.done .made (c.generate i))) := by
  cases file : s.file with
  | none =>
      have create := told.create file (i := i) (by simp [here])
      rw [here] at create
      cases create
  | some bytes =>
      unfold Told at told
      rw [file] at told
      obtain ⟨w, -, all⟩ := told
      have own := all i
      rw [here] at own
      obtain ⟨rfl, rfl⟩ := own
      refine ⟨i, .inr (by simp), fun j => ?_⟩
      rw [procs_goto]
      split_ifs with this
      · exact ⟨this, rfl⟩
      · have others := all j
        cases pc : s.procs j with
        | write =>
            rw [pc] at others
            exact absurd others.1 this
        | done route token =>
            rw [pc] at others
            cases route with
            | made => exact others
            | read got =>
                rcases others with empty | ⟨whole, nothing, -⟩
                · exact .inl empty
                · have size := @length_written c i
                  rw [← whole, ← nothing] at size
                  cases size
        | create | reopen | read | failed | killed => trivial

theorem told_load {succeeds : Bool} (told : c.Told s) (next : c.load s i succeeds = some t) : c.Told t := by
  unfold load at next
  split at next
  · rename_i here
    split at next
    · rename_i file
      cases next
      exact told_made told file
    · rename_i there
      cases next
      exact told_goto told _ (fun file => by simp [file] at there) fun _ _ _ _ _ => trivial
  · cases next
    exact told_goto told _ (fun _ => .inl rfl) fun _ _ _ _ _ => trivial
  · rename_i here
    cases next
    exact told_written told here
  · rename_i here
    cases next
    refine told_goto told _ (fun file => ?_) fun w bytes _ _ own => ?_
    · have create := told.create file (i := i) (by simp [here])
      simp [here] at create
    · rw [here] at own
      exact ⟨own.1, own.1 ▸ rfl⟩
  · rename_i here
    cases next
    refine told_goto told _ (fun file => ?_) fun _ _ _ _ _ => trivial
    have create := told.create file (i := i) (by simp [here])
    simp [here] at create
  · cases next
    exact told_goto told _ (fun _ => .inl rfl) fun _ _ _ _ _ => trivial
  · rename_i here
    cases next
    refine told_goto told _ (fun file => ?_) fun w bytes file holds _ => ?_
    · have create := told.create file (i := i) (by simp [here])
      simp [here] at create
    · rw [file, Option.getD_some]
      rcases holds with rfl | rfl
      · exact .inl ⟨rfl, rfl⟩
      · rw [List.take_of_length_le (Nat.le_of_eq length_written)]
        exact .inr ⟨rfl, rfl, tokenRead_written⟩
  · rename_i here
    cases next
    refine told_goto told _ (fun file => ?_) fun _ _ _ _ _ => .inl ⟨rfl, rfl⟩
    have create := told.create file (i := i) (by simp [here])
    simp [here] at create
  all_goals cases next

theorem told_step (told : c.Told s) (step : c.Step s t) : c.Told t := by
  cases step with
  | load i succeeds next => exact told_load told next
  | kill i inside => exact told_goto told _ (fun _ => .inr rfl) fun _ _ _ _ _ => trivial

theorem told_reachable (reach : Reachable c.Step start s) : c.Told s :=
  reachable_invariant c.Told reach (fun _ => .inl rfl) fun _ _ told step => told_step told step

/-- In every interleaving of any number of commands, killed or not, one process makes the
token, and every other one that comes back has read the whole of it and got it right, or has
read nothing and keeps what its memory made of that. -/
theorem token_agreed (c : Clients) {s : TokenHome} (reach : Reachable c.Step start s) :
    ∃ w, ∀ i route token, s.procs i = .done route token →
      route = .made ∧ i = w ∧ token = c.generate w ∨
      route = .read (c.written w) ∧ token = c.generate w ∨
      route = .read [] ∧ token = c.tokenRead i [] := by
  have told := told_reachable reach
  unfold Told at told
  cases file : s.file with
  | none =>
      rw [file] at told
      refine ⟨0, fun i route token here => ?_⟩
      rcases told i with there | there | there
      all_goals
        rw [here] at there
        cases there
  | some bytes =>
      rw [file] at told
      obtain ⟨w, -, all⟩ := told
      refine ⟨w, fun i route token here => ?_⟩
      have own := all i
      rw [here] at own
      cases route with
      | made => exact .inl ⟨rfl, own⟩
      | read got =>
          rcases own with ⟨rfl, token⟩ | ⟨rfl, -, token⟩
          · exact .inr (.inr ⟨rfl, token⟩)
          · exact .inr (.inl ⟨rfl, token⟩)

/-- What has come of a file that its maker left empty: it is still empty, and every process
that came back since has read nothing. -/
structure Left (c : Clients) (s t : TokenHome) : Prop where
  empty : t.file = some []
  nobody : ∀ i, t.procs i ≠ .write
  back : ∀ i route token, t.procs i = .done route token → s.procs i = .done route token ∨ token = c.tokenRead i []

theorem Left.goto (left : c.Left s t) (i : Nat) {pc : LoadPc} (other : pc ≠ .write)
    (reads : ∀ route token, pc = .done route token → token = c.tokenRead i []) : c.Left s (t.goto i pc) where
  empty := left.empty
  nobody j := by
    rw [procs_goto]
    split_ifs
    · exact other
    · exact left.nobody j
  back j route token := by
    rw [procs_goto]
    split_ifs with this
    · exact fun done => .inr (this ▸ reads route token done)
    · exact left.back j route token

theorem Left.step {u : TokenHome} (left : c.Left s t) (step : c.Step t u) : c.Left s u := by
  cases step with
  | kill i inside => exact left.goto i (by simp) (by simp)
  | load i succeeds next =>
      unfold load at next
      split at next
      · rw [left.empty] at next
        cases next
        exact left.goto i (by simp) (by simp)
      · cases next
        exact left.goto i (by simp) (by simp)
      · rename_i here
        exact absurd here (left.nobody i)
      · rename_i here
        exact absurd here (left.nobody i)
      · cases next
        exact left.goto i (by simp) (by simp)
      · cases next
        exact left.goto i (by simp) (by simp)
      · rw [left.empty] at next
        cases next
        exact left.goto i (by simp) (by simp)
      · cases next
        exact left.goto i (by simp) (by simp)
      all_goals cases next

/-- When the process that made the file is gone before it wrote into it, no later command has a
token: where the memory it starts with holds none, the server refuses everything it asks for,
for all time. -/
theorem lockedOut (c : Clients) {s t : TokenHome} (empty : s.file = some []) (nobody : ∀ i, s.procs i ≠ .write)
    (later : Reachable c.Step s t) {i : Nat} {route : TokenRoute} {token : Token}
    (before : s.procs i ≠ .done route token) (after : t.procs i = .done route token)
    (nothing : c.uuid.parse (cString (c.stack i)) = none) (null : c.held i = Token.null)
    (hdr : MessageHdr) {type : MessageType} (known : MessageType.ofNat? hdr.type = some type)
    (asks : type ≠ .authReq) (carries : hdr.token = token) : dispatch hdr = .refuse := by
  have left : c.Left s t :=
    reachable_invariant (c.Left s) later ⟨empty, nobody, fun _ _ _ => .inl⟩ fun _ _ left step => left.step step
  have reads := (left.back i route token after).resolve_left before
  have without : token = Token.null := by
    rw [reads, tokenRead, List.length_nil, List.drop_zero, List.nil_append, nothing, Option.getD_none, null]
  simp [dispatch, known, asks, carries, without]

end Clients

/-- Two commands of a user with an empty memory. -/
def twoCommands : Clients where
  libs := libraries
  uuid := uuidParse
  parse_unparse := parse_unparse
  generate _ := someToken
  held _ := Token.null
  stack _ := []

/-- The first makes the file and writes into it, the second finds it and reads. -/
theorem token_agreed_two : ∃ s, Reachable twoCommands.Step Clients.start s ∧ s.procs 0 = .done .made someToken ∧
    s.procs 1 = .done (.read (twoCommands.written 0)) someToken ∧
    ∃ w, ∀ i route token, s.procs i = .done route token →
      route = .made ∧ i = w ∧ token = twoCommands.generate w ∨
      route = .read (twoCommands.written w) ∧ token = twoCommands.generate w ∨
      route = .read [] ∧ token = twoCommands.tokenRead i [] := by
  have made : Reachable twoCommands.Step Clients.start _ :=
    (Relation.ReflTransGen.refl.tail (.load 0 true rfl)).tail (.load 0 true rfl)
  have found := ((made.tail (.load 1 true rfl)).tail (.load 1 true rfl)).tail (.load 1 true rfl)
  exact ⟨_, found, rfl, rfl, Clients.token_agreed _ found⟩

/-- The first has been killed between `open` and `write`. -/
def halfMade : TokenHome := (TokenHome.goto { Clients.start with file := some [] } 0 .write).goto 0 .killed

/-- The second then asks for a listing. -/
theorem lockedOut_killed : ∃ t, Reachable twoCommands.Step Clients.start halfMade ∧
    Reachable twoCommands.Step halfMade t ∧ t.procs 1 = .done (.read []) Token.null ∧
    dispatch ⟨1, MessageType.listReq.toNat, Token.null, (0, 0)⟩ = .refuse := by
  have killed : Reachable twoCommands.Step Clients.start halfMade :=
    (Relation.ReflTransGen.refl.tail (.load 0 true rfl)).tail (.kill 0 (by simp [Clients.procs_goto]))
  have later : Reachable twoCommands.Step halfMade _ :=
    ((Relation.ReflTransGen.refl.tail (.load 1 true rfl)).tail (.load 1 true rfl)).tail (.load 1 true rfl)
  have nobody : ∀ i, halfMade.procs i ≠ .write := by
    intro i
    rw [halfMade, Clients.procs_goto]
    split_ifs with first
    · simp
    · rw [Clients.procs_goto, if_neg first]
      simp [Clients.start]
  have refused := @Clients.lockedOut twoCommands halfMade _ rfl nobody later 1 (.read []) Token.null
    (by simp [halfMade, TokenHome.goto, Clients.start]) rfl rfl rfl
    ⟨1, MessageType.listReq.toNat, Token.null, (0, 0)⟩ .listReq rfl (by simp) rfl
  exact ⟨_, killed, later, rfl, refused⟩

end MiniDropbox
