/-
Users and their transfer sessions (`session.c`, `user.c`, `user_manager.c`).

A session points to the `FileInfo` of the request that made it; the model keeps
that structure by value in the session, and the handler that goes on writing to it
updates the session too. `userRemoveSession` moves the later sessions down one
place, which is what the swaps of the source amount to within the array.
-/

import Mathlib.Data.List.Basic
import MiniDropbox.File
import MiniDropbox.UserMap

namespace MiniDropbox

/-- Mirrors `SessionType`. -/
inductive SessionType where
  | none | download | upload
  deriving DecidableEq, Repr

/-- Mirrors `SessionState`. -/
inductive SessionState where
  | idle | running | interrupted
  deriving DecidableEq, Repr

/-- Mirrors `Session`, without its start time, which nothing reads. -/
structure Session where
  type : SessionType
  state : SessionState
  fileInfo : FileInfo
  lastTransferedChunk : Nat
  deriving DecidableEq

/-- Mirrors `session_init`. -/
def sessionInit (fileInfo : FileInfo) (type : SessionType) : Session := ⟨type, .idle, fileInfo, 0⟩

def MAX_USER_SPACE : Nat := 10 ^ 10

/-- Mirrors `User`. -/
structure User where
  token : Token
  totalSpace : Nat
  usedSpace : Nat
  sessions : List Session
  sessionsCapacity : Nat
  deriving DecidableEq

/-- Mirrors `user_init` with a token. -/
def userInit (token : Token) : User := ⟨token, MAX_USER_SPACE, 0, [], 10⟩

/-- Mirrors `user_add_session`: a full table is left as it is. -/
def userAddSession (user : User) (session : Session) : User × Int :=
  if user.sessions.length ≥ user.sessionsCapacity then (user, -1)
  else ({ user with sessions := user.sessions ++ [session] }, 0)

/-- The test by which a session is found. -/
def Session.matches (type : SessionType) (filename : CStr) (s : Session) : Bool :=
  s.type = type ∧ s.fileInfo.filename = filename

/-- Mirrors `user_get_session`, which returns a pointer: the place of the session. -/
def userGetSession (user : User) (type : SessionType) (filename : CStr) : Option Nat :=
  user.sessions.findIdx? (Session.matches type filename)

/-- Mirrors `user_remove_session`. -/
def userRemoveSession (user : User) (type : SessionType) (filename : CStr) : User × Int :=
  match userGetSession user type filename with
  | none => (user, -1)
  | some i => ({ user with sessions := user.sessions.eraseIdx i }, 0)

/-! ### The user manager -/

/-- The users `malloc` has returned, by address, and the map from tokens to them. -/
structure UserManager where
  users : List User
  userMap : UserMap Nat

/-- The state in which `uman_init` starts to register the stored users. -/
def umanEmpty : UserManager := ⟨[], umapInit Nat 256⟩

/-- Mirrors `uman_get_user`: the address of the user, `some none` for `NULL`. -/
def umanGetUser (uman : UserManager) (token : Token) : Option (Option Nat) :=
  umapGet uman.userMap token

/-- Mirrors `uman_register_user`. The new user stays allocated when the map refuses
its token. -/
def umanRegisterUser (fresh : Option Nat) (uman : UserManager) (token : Token) :
    Option UserManager := do
  let put ← umapPut fresh uman.userMap token uman.users.length
  some ⟨uman.users ++ [userInit token], put.1⟩

/-- A sequence of registrations, with fresh links null. -/
def umanRegisterAll (uman : UserManager) : List Token → Option UserManager
  | [] => some uman
  | token :: tokens => do
      let next ← umanRegisterUser none uman token
      umanRegisterAll next tokens

end MiniDropbox
