/-
Who is registered.

The user map holds the tokens the server found in its storage when it started and
those of the `AUTH_REQ` messages it has served since, each with a user of its own
(`Registry`). A message registers its token or leaves the map alone, and no message
changes more of a user than the sessions; `registry_serve` says so of one message
and `registry_run` of a run. What a lookup returns follows (`Registry.lookup`).
-/

import MiniDropbox.Server
import MiniDropbox.UserLookup

namespace MiniDropbox

/-! ### What a message changes -/

/-- A user without the sessions. -/
def User.account (user : User) : User := { user with sessions := [] }

/-- Neither the map nor anything but sessions has changed. -/
def SameUsers (before after : UserManager) : Prop :=
  after.userMap = before.userMap ∧ after.users.map User.account = before.users.map User.account

theorem SameUsers.of_eq {before after : UserManager} (same : after = before) : SameUsers before after := by
  subst same
  exact ⟨rfl, rfl⟩

theorem SameUsers.refl (uman : UserManager) : SameUsers uman uman := .of_eq rfl

theorem SameUsers.trans {a b c : UserManager} (first : SameUsers a b) (second : SameUsers b c) :
    SameUsers a c := ⟨second.1.trans first.1, second.2.trans first.2⟩

theorem map_account_modify {users : List User} {addr : Nat} {f : User → User}
    (keeps : ∀ user, users[addr]? = some user → (f user).account = user.account) :
    (users.modify addr f).map User.account = users.map User.account := by
  apply List.ext_getElem?
  intro i
  rw [List.getElem?_map, List.getElem?_map, List.getElem?_modify]
  by_cases here : addr = i
  · subst here
    cases record : users[addr]? with
    | none => rfl
    | some user => simp [keeps user record]
  · simp [here]

section Handlers

variable {libs : Externals} {env : Env} {server : Server} {user : Option Nat} {hdr : MessageHdr}
  {addr : Nat}

theorem sameUsers_modifyUser {f : User → User}
    (keeps : ∀ user, server.uman.users[addr]? = some user → (f user).account = user.account) :
    SameUsers server.uman (server.modifyUser addr f).uman := ⟨rfl, map_account_modify keeps⟩

theorem sameUsers_modifySession {place : Option Nat} {f : Session → Session} :
    SameUsers server.uman (server.modifySession addr place f).uman := by
  cases place with
  | none => exact .refl _
  | some i => exact sameUsers_modifyUser fun _ _ => rfl

theorem account_userRemoveSession (user : User) (type : SessionType) (filename : CStr) :
    (userRemoveSession user type filename).1.account = user.account := by
  unfold userRemoveSession
  split <;> rfl

theorem account_userAddSession (user : User) (session : Session) :
    (userAddSession user session).1.account = user.account := by
  unfold userAddSession
  split_ifs <;> rfl

theorem account_uploadSession (user : User) (info : FileInfo) :
    (uploadSession user info).1.account = user.account := by
  unfold uploadSession
  split
  · split <;> rfl
  · exact account_userAddSession user _

theorem account_downloadSession (user : User) (filename : CStr) (info filled : FileInfo) :
    (downloadSession user filename info filled).1.account = user.account := by
  have added := account_userAddSession user (sessionInit info .download)
  unfold downloadSession
  split
  · rfl
  · dsimp only
    split_ifs
    · rw [← added]
      rfl
    · exact added

/-- A user looked up by address. -/
theorem record_of_bind {found : Nat × User}
    (here : user.bind (fun addr => server.uman.users[addr]?.map fun user => (addr, user)) = some found) :
    user = some found.1 ∧ server.uman.users[found.1]? = some found.2 := by
  obtain ⟨addr, rfl, record⟩ := Option.bind_eq_some_iff.mp here
  obtain ⟨user, record', rfl⟩ := Option.map_eq_some_iff.mp record
  exact ⟨rfl, record'⟩

theorem handleRemove_uman {payload : Option (List Byte)} :
    (handleRemove libs env server user hdr payload).1.uman = server.uman := by
  unfold handleRemove
  split
  · rfl
  · rfl
  · split
    · rfl
    · dsimp only
      split_ifs
      · rfl
      all_goals split <;> rfl

theorem handleMkdir_uman {payload : Option (List Byte)} :
    (handleMkdir libs env server user hdr payload).1.uman = server.uman := by
  unfold handleMkdir
  split <;> rfl

theorem uploadAccept_users {record : User} {info : FileInfo} {behind : List Byte} {sock : Sock}
    (here : server.uman.users[addr]? = some record) :
    match uploadAccept libs env server addr record hdr.token info behind sock with
    | .ready next _ _ _ _ => SameUsers server.uman next.uman
    | .returned next _ _ => SameUsers server.uman next.uman
    | .blocked => True := by
  have same : ∀ info, SameUsers server.uman
      (server.modifyUser addr fun _ => (uploadSession record info).1).uman := fun info =>
    sameUsers_modifyUser fun user found => by
      cases here.symm.trans found
      exact account_uploadSession record info
  unfold uploadAccept
  split_ifs
  · exact .refl _
  · dsimp only
    split
    · rename_i shape
      split at shape
      · cases shape
        exact same _
      · split_ifs at shape
        cases shape
        exact same _
    · rename_i shape
      split at shape
      · cases shape
      · split_ifs at shape
        cases shape
        exact same _
    · trivial

theorem uploadPrepare_users {sock : Sock} :
    match uploadPrepare libs env server user hdr sock with
    | .ready next _ _ _ _ => SameUsers server.uman next.uman
    | .returned next _ _ => SameUsers server.uman next.uman
    | .blocked => True := by
  unfold uploadPrepare
  cases found : user.bind fun addr => server.uman.users[addr]?.map fun user => (addr, user) with
  | none => exact .refl _
  | some pair =>
      dsimp only
      cases msgRecvPayload sock hdr.length sizeofFileInfo with
      | blocked => trivial
      | fail ret got rest => exact .refl _
      | ok payload rest => exact uploadAccept_users (record_of_bind found).2

theorem uploadFinish_users {place : Option Nat} {info : FileInfo} {stats : FileRecvStats} :
    SameUsers server.uman (uploadFinish server addr place info stats).1.uman := by
  have marked : SameUsers server.uman (if stats.errorCode < 0 then
      server.modifySession addr place fun session => { session with
        state := .interrupted, lastTransferedChunk := stats.lastChunkRecvd }
      else server).uman := by
    split_ifs
    · exact sameUsers_modifySession
    · exact .refl _
  unfold uploadFinish
  dsimp only
  split_ifs at marked ⊢
  all_goals first
    | exact marked
    | exact marked.trans (sameUsers_modifyUser fun _ _ => account_userRemoveSession _ _ _)

theorem handleUpload_users {sock : Sock} :
    SameUsers server.uman (handleUpload libs env server user hdr sock).server.uman := by
  have prepared := @uploadPrepare_users libs env server user hdr sock
  unfold handleUpload
  cases early : uploadPrepare libs env server user hdr sock with
  | returned next sock events =>
      rw [early] at prepared
      exact prepared
  | blocked => exact .refl _
  | ready next place info seq sock =>
      rw [early] at prepared
      have running := prepared.trans (@sameUsers_modifySession next (user.getD 0) place
        fun session => { session with state := .running })
      dsimp only
      cases fileRecv libs env _ info sock with
      | blocked fs => exact running
      | faulted fs => exact running
      | ret fs rest stats => exact running.trans uploadFinish_users

theorem downloadPrepare_users {sock : Sock} :
    match downloadPrepare libs env server user hdr sock with
    | .ready next _ _ _ _ _ => SameUsers server.uman next.uman
    | .returned next _ _ => SameUsers server.uman next.uman
    | .blocked => True := by
  unfold downloadPrepare downloadAccept
  cases found : user.bind fun addr => server.uman.users[addr]?.map fun user => (addr, user) with
  | none => exact .refl _
  | some pair =>
      have here := (record_of_bind found).2
      dsimp only
      cases msgRecvPayload sock hdr.length sizeofFileInfo with
      | blocked => trivial
      | fail ret got rest => exact .refl _
      | ok payload rest =>
          dsimp only
          cases getUserPath libs (FileInfo.decode (payload ++ env.tail)).filename hdr.token with
          | none => exact .refl _
          | some path =>
              dsimp only
              split_ifs
              · exact .refl _
              · exact .refl _
              all_goals
                exact sameUsers_modifyUser fun user record => by
                  cases here.symm.trans record
                  exact account_downloadSession _ _ _ _

theorem handleDownload_users {sock : Sock} :
    SameUsers server.uman (handleDownload libs env server user hdr sock).server.uman := by
  have prepared := @downloadPrepare_users libs env server user hdr sock
  unfold handleDownload
  cases early : downloadPrepare libs env server user hdr sock with
  | returned next sock events =>
      rw [early] at prepared
      exact prepared
  | blocked => exact .refl _
  | ready next place path info startChunk sock =>
      rw [early] at prepared
      dsimp only
      split
      · exact prepared
      · unfold downloadFinish
        split_ifs
        · exact prepared.trans sameUsers_modifySession
        · exact prepared.trans (sameUsers_modifyUser fun _ _ => account_userRemoveSession _ _ _)

theorem handleList_server {sock : Sock} : (handleList libs env server user hdr sock).server = server := by
  unfold handleList
  repeat' split
  all_goals rfl

/-- Only `AUTH_REQ` changes more than sessions. -/
theorem serve_users {r : Request} (other : dispatch r.hdr ≠ .accept .authReq) :
    SameUsers server.uman (r.serve libs server).server.uman := by
  unfold Request.serve onClientMessageReceived
  cases dispatched : dispatch r.hdr with
  | abort => exact .refl _
  | refuse => exact .refl _
  | accept type =>
      rw [dispatched] at other
      dsimp only
      cases umanGetUser server.uman r.hdr.token with
      | none => exact .refl _
      | some user =>
          cases type
          case authReq => exact absurd rfl other
          case uploadReq => exact handleUpload_users
          case downloadReq => exact handleDownload_users
          case listReq => exact handleList_server ▸ .refl _
          case removeReq => exact .of_eq (@handleRemove_uman libs r.env server user r.hdr _)
          case mkdirReq => exact .of_eq (@handleMkdir_uman libs r.env server user r.hdr _)
          all_goals exact .refl _

end Handlers

/-! ### The registry -/

/-- The tokens registered so far, in their order: the map holds each with the address of
its user, and the users are as `user_init` made them but for their sessions. -/
structure Registry (uman : UserManager) (tokens : List Token) : Prop where
  represents : Represents 256 uman.userMap tokens.zipIdx
  accounts : uman.users.map User.account = tokens.map userInit

/-- The token a message registers. -/
def Request.registers (r : Request) : List Token :=
  if dispatch r.hdr = .accept .authReq then [r.hdr.token] else []

theorem registry_of_registerAll {tokens : List Token} {uman : UserManager}
    (registered : umanRegisterAll umanEmpty tokens = some uman) : Registry uman tokens := by
  have start : Represents 256 umanEmpty.userMap [] := represents_umapInit (by decide)
  obtain ⟨uman', all, users, represents⟩ := represents_umanRegisterAll start tokens
  cases registered.symm.trans all
  refine ⟨represents, ?_⟩
  rw [users]
  simp [umanEmpty, User.account, userInit]

namespace Registry

variable {libs : Externals} {uman : UserManager} {tokens : List Token} {server : Server}
  {r : Request} {t : Token}

theorem length_users (registry : Registry uman tokens) : uman.users.length = tokens.length := by
  have lengths := congrArg List.length registry.accounts
  simpa using lengths

theorem sameUsers {after : UserManager} (registry : Registry uman tokens)
    (same : SameUsers uman after) : Registry after tokens :=
  ⟨by rw [same.1]; exact registry.represents, by rw [same.2]; exact registry.accounts⟩

/-- What a lookup returns: nobody for a token that is not registered, else the user of the
first token in its bucket. -/
theorem lookup (registry : Registry uman tokens) (t : Token) :
    umanGetUser uman t = some (if t ∈ tokens then firstAt 256 tokens.zipIdx t else none) := by
  rw [umanGetUser, umapGet_firstAt registry.represents, List.zipIdx_map_fst]

theorem lookup_of_not_mem (registry : Registry uman tokens) (unknown : t ∉ tokens) :
    umanGetUser uman t = some none := by
  rw [registry.lookup, if_neg unknown]

/-- A registered token yields a user the server keeps. -/
theorem lookup_of_mem (registry : Registry uman tokens) (mem : t ∈ tokens) :
    ∃ addr user, umanGetUser uman t = some (some addr) ∧ uman.users[addr]? = some user := by
  obtain ⟨addr, first, found, at_addr, -⟩ := firstAt_zipIdx mem
  have within : addr < uman.users.length := by
    rw [registry.length_users]
    exact (List.getElem?_eq_some_iff.mp at_addr).1
  exact ⟨addr, uman.users[addr], by rw [registry.lookup, if_pos mem, found], List.getElem?_eq_getElem within⟩

/-- Nothing is ever counted against the space of a user. -/
theorem account (registry : Registry uman tokens) {addr : Nat} {user : User}
    (record : uman.users[addr]? = some user) :
    ∃ token ∈ tokens, user.account = userInit token := by
  have listed : user.account ∈ tokens.map userInit := by
    rw [← registry.accounts]
    exact List.mem_map_of_mem (List.mem_of_getElem? record)
  obtain ⟨token, mem, same⟩ := List.mem_map.mp listed
  exact ⟨token, mem, same.symm⟩

theorem register (registry : Registry uman tokens) (t : Token) :
    ∃ after, umanRegisterUser none uman t = some after ∧ Registry after (tokens ++ [t]) := by
  obtain ⟨map, ret, called, kept⟩ := represents_umapPut registry.represents t uman.users.length
  refine ⟨⟨uman.users ++ [userInit t], map⟩, by simp [umanRegisterUser, called], ?_, ?_⟩
  · rw [registry.length_users] at kept
    simpa [List.zipIdx_append] using kept
  · rw [List.map_append, registry.accounts, List.map_append]
    rfl

/-- An `AUTH_REQ` is answered, and registers its token whatever becomes of the
directory. -/
theorem serve_auth (registry : Registry server.uman tokens) (null : r.env.fresh = none)
    (auth : dispatch r.hdr = .accept .authReq) :
    ∃ next events, handleAuth libs r.env server r.hdr = some (next, events) ∧
      (r.serve libs server).server = next ∧ Registry next.uman (tokens ++ [r.hdr.token]) := by
  obtain ⟨after, registered, kept⟩ := registry.register r.hdr.token
  have answered : ∃ fs events, handleAuth libs r.env server r.hdr = some (⟨fs, after⟩, events) := by
    simp only [handleAuth, null, registered, Option.bind_eq_bind, Option.bind_some]
    exact ⟨_, _, rfl⟩
  obtain ⟨fs, events, handled⟩ := answered
  refine ⟨⟨fs, after⟩, events, handled, ?_, kept⟩
  simp [Request.serve, onClientMessageReceived, auth, registry.lookup, MessageType.kind, onOneshotReq,
    handled]

/-- One message adds the token it registers. -/
theorem serve (registry : Registry server.uman tokens) (null : r.env.fresh = none) :
    Registry (r.serve libs server).server.uman (tokens ++ r.registers) := by
  by_cases auth : dispatch r.hdr = .accept .authReq
  · obtain ⟨next, events, -, same, kept⟩ := @serve_auth libs tokens server r registry null auth
    rw [same, Request.registers, if_pos auth]
    exact kept
  · rw [Request.registers, if_neg auth, List.append_nil]
    exact registry.sameUsers (serve_users auth)

end Registry

/-- The tokens registered by the messages of a run. -/
def registered (libs : Externals) (server : Server) (rs : List Request) : List Token :=
  (run libs server rs).flatMap fun p => p.2.registers

/-- A run adds the tokens it registers. -/
theorem registry_run {libs : Externals} {server : Server} {tokens : List Token} {rs : List Request}
    (registry : Registry server.uman tokens) (nulls : ∀ r ∈ rs, r.env.fresh = none) :
    Registry (runState libs server rs).uman (tokens ++ registered libs server rs) := by
  induction rs generalizing server tokens with
  | nil => simpa [registered, run, runState] using registry
  | cons r rs ih =>
      have next : Registry (r.serve libs server).server.uman (tokens ++ r.registers) :=
        registry.serve (nulls r List.mem_cons_self)
      rw [registered, run, runState]
      split_ifs
      · have rest := ih next fun r' mem => nulls r' (List.mem_cons_of_mem _ mem)
        rwa [registered, List.append_assoc] at rest
      · simpa using next

end MiniDropbox
