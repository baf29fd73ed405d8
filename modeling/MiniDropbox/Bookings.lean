/-
What the session tables say after each request.

An upload or download that has come to `file_recv` or `file_send` is over when that
returns, with a code; `Request.outcome` is the session it goes by, which is a matter of
the request alone, and that code. `transfer_settles` says exactly when the user's table
is right afterwards, `serve_tidy` and `Stands.serve` that no message disturbs it later,
and `sessions_iff` puts them together for every run.
-/

import MiniDropbox.Lib.Counted
import MiniDropbox.Sessions

namespace MiniDropbox

open Keyed

/-! ### How `file_send` ends -/

section Sending

variable {libs : Externals} {content : List Byte} {count : Nat}

/-- What a step of `file_send` does, and what it puts on the wire. -/
inductive SendMoves (libs : Externals) (content : List Byte) (count : Nat) (sys : SendSys) :
    SendState → SendState → List Byte → Prop where
  | done {seq start off : Nat} {sock : Sock} : count ≤ seq →
      SendMoves libs content count sys ⟨.top seq start, off, sock⟩ ⟨.ret ⟨seq, 0⟩, off, sock⟩ []
  | starved {seq start off : Nat} {sock : Sock} : seq < count → sys.read = none ∨ content.length ≤ off →
      SendMoves libs content count sys ⟨.top seq start, off, sock⟩ ⟨.ret ⟨sizeT (seq + 1), -1⟩, off, sock⟩ []
  | filled {seq start off k : Nat} {sock : Sock} {buf : List Byte} : seq < count → sys.read = some k →
      off < content.length → buf = (content.drop off).take (min (k + 1) CHUNK_SIZE) →
      SendMoves libs content count sys ⟨.top seq start, off, sock⟩
        ⟨.send seq start (sendChunk libs seq start buf), off + buf.length, sock⟩ []
  | unsent {seq start off : Nat} {chunk : Chunk} {sock : Sock} : sys.sent ≠ .ok →
      SendMoves libs content count sys ⟨.send seq start chunk, off, sock⟩
        ⟨.ret ⟨sizeT (seq + (2 ^ 64 - 1)), -5⟩, off, sock⟩ []
  | sent {seq start off : Nat} {chunk : Chunk} {sock : Sock} : sys.sent = .ok →
      SendMoves libs content count sys ⟨.send seq start chunk, off, sock⟩ ⟨.await seq start chunk, off, sock⟩
        (chunkWire sys.stamp chunk)
  | unanswered {seq start off : Nat} {chunk : Chunk} {sock rest : Sock} {ret : Int} :
      msgRecv sock 0 = .fail ret rest →
      SendMoves libs content count sys ⟨.await seq start chunk, off, sock⟩
        ⟨.ret ⟨sizeT (seq + (2 ^ 64 - 1)), -6⟩, off, rest⟩ []
  | acked {seq start off : Nat} {chunk : Chunk} {sock rest : Sock} {msg : MessageHdr × List Byte} :
      msgRecv sock 0 = .ok msg rest → msg.1.type = MessageType.chunkOk.toNat →
      SendMoves libs content count sys ⟨.await seq start chunk, off, sock⟩
        ⟨.top (sizeT (seq + 1)) (sizeT (start + chunk.hdr.length)), off, rest⟩ []
  | again {seq start off : Nat} {chunk : Chunk} {sock rest : Sock} {msg : MessageHdr × List Byte} :
      msgRecv sock 0 = .ok msg rest → msg.1.type ≠ MessageType.chunkOk.toNat →
      SendMoves libs content count sys ⟨.await seq start chunk, off, sock⟩ ⟨.send seq start chunk, off, rest⟩ []

/-- A read comes back empty at the end of the file, and only there. -/
theorem buffer_nil {off k : Nat} : (content.drop off).take (min (k + 1) CHUNK_SIZE) = [] ↔ content.length ≤ off := by
  have chunk : min (k + 1) CHUNK_SIZE ≠ 0 := by
    rw [Nat.min_def]
    split_ifs
    · exact Nat.succ_ne_zero k
    · decide
  rw [List.take_eq_nil_iff, or_iff_right chunk, List.drop_eq_nil_iff]

theorem sendStep_moves {sys : SendSys} {s next : SendState} {out : List Byte}
    (moves : sendStep libs content count sys s = some (next, out)) : SendMoves libs content count sys s next out := by
  obtain ⟨pc, off, sock⟩ := s
  cases pc with
  | top seq start =>
      rw [sendStep] at moves
      dsimp only at moves
      split_ifs at moves with more
      · cases reads : sys.read with
        | none =>
            rw [reads] at moves
            cases moves
            exact .starved more (.inl reads)
        | some k =>
            rw [reads] at moves
            dsimp only at moves
            split_ifs at moves with ended
            · cases moves
              exact .starved more (.inr (buffer_nil.mp ended))
            · cases moves
              exact .filled more reads (Nat.lt_of_not_le (mt buffer_nil.mpr ended)) rfl
      · cases moves
        exact .done (Nat.le_of_not_lt more)
  | send seq start chunk =>
      rw [sendStep] at moves
      dsimp only at moves
      cases sent : sys.sent with
      | ok =>
          simp only [sent, SendRet.code, Int.lt_irrefl, if_false] at moves
          cases moves
          exact .sent sent
      | error =>
          rw [sent, if_pos (by decide)] at moves
          cases moves
          exact .unsent (by simp [sent])
      | disconnected =>
          rw [sent, if_pos (by decide)] at moves
          cases moves
          exact .unsent (by simp [sent])
  | await seq start chunk =>
      rw [sendStep] at moves
      dsimp only at moves
      cases received : msgRecv sock 0 with
      | blocked =>
          rw [received] at moves
          cases moves
      | fail ret rest =>
          rw [received] at moves
          cases moves
          exact .unanswered received
      | ok msg rest =>
          rw [received] at moves
          dsimp only at moves
          split_ifs at moves with ok
          · cases moves
            exact .acked received ok
          · cases moves
            exact .again received ok
  | ret stats => cases moves

/-- The transfer is cut short: there is nothing to read where a chunk is due, a chunk
cannot be sent, or no answer to it comes. -/
def Cuts (content : List Byte) (count : Nat) (x : SendSys × SendState) : Prop :=
  (∃ seq start, x.2.pc = .top seq start ∧ seq < count ∧ (x.1.read = none ∨ content.length ≤ x.2.off)) ∨
  (∃ seq start chunk, x.2.pc = .send seq start chunk ∧ x.1.sent ≠ .ok) ∨
  ∃ seq start chunk ret rest, x.2.pc = .await seq start chunk ∧ msgRecv x.2.sock 0 = .fail ret rest

/-- The state is a return with an error code. -/
def SendFailed (s : SendState) : Prop := ∃ stats, s.pc = .ret stats ∧ stats.errorCode < 0

/-- One step of `file_send` returns an error exactly where the transfer is cut short. -/
theorem sendStep_cuts {sys : SendSys} {s : SendState} : Cuts content count (sys, s) ↔
    ∃ next out, sendStep libs content count sys s = some (next, out) ∧ SendFailed next := by
  cases pc : s.pc with
  | top seq start =>
      simp only [Cuts, pc, SendPc.top.injEq, sendStep]
      by_cases more : seq < count
      · cases read : sys.read with
        | none => simp [more, SendFailed]
        | some k =>
            have nothing : (content.drop s.off).take (min (k + 1) CHUNK_SIZE) = [] ↔ content.length ≤ s.off := buffer_nil
            by_cases ended : content.length ≤ s.off
            · simp [more, nothing.mpr ended, ended, SendFailed]
            · simp [more, mt nothing.mp ended, ended, SendFailed]
      · simp [more, SendFailed]
  | send seq start chunk =>
      cases sent : sys.sent with
      | ok => simp [Cuts, sendStep, pc, SendFailed, sent, SendRet.code]
      | error => simp [Cuts, sendStep, pc, SendFailed, sent, SendRet.code]
      | disconnected => simp [Cuts, sendStep, pc, SendFailed, sent, SendRet.code]
  | await seq start chunk =>
      simp only [Cuts, pc, sendStep]
      cases received : msgRecv s.sock 0 with
      | blocked => simp
      | fail ret rest => simp [SendFailed]
      | ok msg rest =>
          by_cases acked : msg.1.type = MessageType.chunkOk.toNat
          · simp [acked, SendFailed]
          · simp [acked, SendFailed]
  | ret stats => simp [Cuts, sendStep, pc]

theorem sendLoop_final {sys : Nat → SendSys} {fuel : Nat} {s : SendState} :
    (sendLoop libs content count sys fuel s).1 = Counted.final (sendStep libs content count) sys fuel s := by
  induction fuel generalizing s with
  | zero => rfl
  | succ fuel ih =>
      rw [sendLoop, Counted.final]
      cases sendStep libs content count (sys fuel) s with
      | none => rfl
      | some move => exact ih

/-- The loop returns an error exactly when one of its steps does. -/
theorem sendLoop_failed {sys : Nat → SendSys} {fuel : Nat} {s : SendState} (running : ∀ stats, s.pc ≠ .ret stats) :
    SendFailed (sendLoop libs content count sys fuel s).1 ↔
      ∃ x ∈ Counted.trace (sendStep libs content count) sys fuel s, Cuts content count x := by
  have stuck : ∀ s, SendFailed s → ∀ i, sendStep libs content count i s = none := by
    rintro s ⟨stats, returned, -⟩ i
    rw [sendStep, returned]
  rw [sendLoop_final]
  exact Counted.final_iff stuck (fun sys s => sendStep_cuts) fun ⟨stats, returned, _⟩ => running stats returned

end Sending

/-! ### Outcomes -/

/-- A call of `file_send` by `handle_download`. -/
structure DownloadCall where
  fs : Fs
  filename : CStr
  startChunk : Nat
  sock : Sock

variable (libs : Externals)

/-- The call of `file_send` a download request leads to, if it gets there. -/
def downloadCall (server : Server) (addr : Nat) (r : Request) : Option DownloadCall :=
  match downloadPrepare libs r.env server (some addr) r.hdr r.sock with
  | .ready next _ _ info startChunk sock => some ⟨next.fs, info.filename, startChunk, sock⟩
  | _ => none

namespace DownloadCall

variable (env : Env) (call : DownloadCall)

/-- The statistics the call returns. -/
def sent : Option FileSendStats :=
  (fileSend libs env call.fs call.filename call.startChunk call.sock).map Prod.fst

/-- What the loop of the call reads, with its `chunk_count` and the system calls of its
steps, `none` if the file cannot be looked at or opened. -/
def source : Option (List Byte × Nat × (Nat → SendSys)) :=
  let (res, info) := fileinfoFromFilename env.faults libs .sendLstat .sendInfoOpen call.fs call.filename
    { FileInfo.zero with chunkCount := env.stale }
  if res = -1 then none
  else
    match perform env.faults .sendOpen call.filename (call.fs.openRead call.filename) with
    | .error _ => none
    | .ok (.file bytes) => some (bytes, info.chunkCount, env.send)
    | .ok _ => some ([], info.chunkCount, fun k => { env.send k with read := none })

/-- The file cannot be looked at or opened, or the transfer is cut short. -/
def Failed : Prop :=
  ∀ file ∈ call.source libs env, ∃ x ∈ Counted.trace (sendStep libs file.1 file.2.1) file.2.2 call.sock.fuel
    (sendStart call.startChunk call.sock), Cuts file.1 file.2.1 x

variable {libs env call}

theorem sent_of_closed (closed : call.source libs env = none) : call.sent libs env = some ⟨0, -1⟩ := by
  unfold source at closed
  unfold sent fileSend
  dsimp only at closed ⊢
  split_ifs at closed ⊢ with missing
  · rfl
  · split at closed
    · rename_i errno failed
      rw [failed]
      rfl
    · cases closed
    · cases closed

theorem sent_of_open {content : List Byte} {count : Nat} {sys : Nat → SendSys}
    (opened : call.source libs env = some (content, count, sys)) :
    call.sent libs env =
      match (sendLoop libs content count sys call.sock.fuel (sendStart call.startChunk call.sock)).1.pc with
      | .ret stats => some stats
      | _ => none := by
  unfold source at opened
  unfold sent fileSend
  dsimp only at opened ⊢
  split_ifs at opened ⊢ with missing
  have returned : ∀ final : SendState × List Byte,
      Option.map Prod.fst (match final.1.pc with
        | .ret stats => some (stats, final.1.sock)
        | _ => none) =
      match final.1.pc with
      | .ret stats => some stats
      | _ => none := by
    intro final
    cases final.1.pc <;> rfl
  split at opened
  · cases opened
  · rename_i bytes found
    cases opened
    rw [found]
    exact returned _
  · rename_i node other found
    cases opened
    rw [found]
    cases node with
    | file bytes => exact absurd rfl (other bytes)
    | dir => exact returned _
    | link target => exact returned _

/-- The transfer ends with an error exactly when it fails. -/
theorem sent_failed : (∃ stats ∈ call.sent libs env, stats.errorCode < 0) ↔ call.Failed libs env := by
  cases opened : call.source libs env with
  | none => simp [sent_of_closed opened, Failed, opened]
  | some file =>
      obtain ⟨content, count, sys⟩ := file
      have running : ∀ stats, (sendStart call.startChunk call.sock).pc ≠ .ret stats := by
        intro stats
        unfold sendStart
        split_ifs <;> nofun
      have failed := @sendLoop_failed libs content count sys call.sock.fuel _ running
      simp only [Failed, opened, Option.mem_def, Option.some.injEq, forall_eq']
      rw [← failed, sent_of_open opened, SendFailed]
      cases (sendLoop libs content count sys call.sock.fuel (sendStart call.startChunk call.sock)).1.pc <;> simp

end DownloadCall

/-- The key by which a request looks for its session, which is a matter of the request
alone. -/
def Request.sought (r : Request) : Option (SessionType × CStr) :=
  match dispatch r.hdr, msgRecvPayload r.sock r.hdr.length sizeofFileInfo with
  | .accept .uploadReq, .ok payload _ =>
      let memory := payload ++ r.env.tail
      some (.upload, uploadName libs r.hdr.token (FileInfo.decode memory) (memory.drop sizeofFileInfo))
  | .accept .downloadReq, .ok payload _ =>
      (getUserPath libs (FileInfo.decode (payload ++ r.env.tail)).filename r.hdr.token).map fun path =>
        (.download, path)
  | _, _ => none

/-- The code that its `file_recv` or `file_send` returns. -/
def Request.code (server : Server) (addr : Nat) (r : Request) : Option Int :=
  match dispatch r.hdr with
  | .accept .uploadReq => do
      let call ← uploadCall libs server addr r
      let stats ← call.received libs r.env
      some stats.errorCode
  | .accept .downloadReq => do
      let call ← downloadCall libs server addr r
      let stats ← call.sent libs r.env
      some stats.errorCode
  | _ => none

/-- The transfer of a request, if the handler has come to it and it is over. -/
def Request.outcome (server : Server) (addr : Nat) (r : Request) : Option Outcome := do
  let key ← r.sought libs
  let code ← r.code libs server addr
  some ⟨key, code⟩

/-- A user's table before and after a request: a transfer is booked, and a request that
does not come to one leaves every session as it is, and finds no more than its own. -/
def Settles (before after : User) (sought : Option (SessionType × CStr)) : Option Outcome → Prop
  | some o => Booked before after o
  | none => Tidy after ∧ before.sessions <+: after.sessions ∧
      ∀ k, sought ≠ some k → under Session.key after.sessions k = under Session.key before.sessions k

/-- A download can be booked: its session is there, or there is room for one and it gets
the name of a regular file, or there is none and the transfer does not fail. -/
def FetchCondition (server : Server) (addr : Nat) (r : Request) : Prop :=
  ∀ user ∈ server.uman.users[addr]?, ∀ path, r.sought libs = some (.download, path) →
    ∀ call ∈ downloadCall libs server addr r,
      user.Has .download path ∨ user.Room ∧ Regular r server.fs path ∨
        ¬ user.Room ∧ ¬ call.Failed libs r.env

/-! ### The handlers -/

section Handlers

variable {libs} {server : Server} {addr : Nat} {r : Request} {user w : User} {place : Option Nat}

theorem modify_self {users : List User} (record : users[addr]? = some user) :
    users.modify addr (fun _ => user) = users := by
  apply List.ext_getElem?
  intro i
  rw [List.getElem?_modify]
  by_cases here : addr = i
  · subst here
    simp [record]
  · simp [here]

theorem modifySession_users {f : Session → Session} :
    (server.modifySession addr place f).uman.users = server.uman.users.modify addr fun user => user.mark place f := by
  cases place with
  | none => exact (List.modify_id _ _).symm
  | some i => rfl

/-- The session an upload works with. -/
theorem uploadSession_obtained {info : FileInfo} {seq : Nat} (made : uploadSession user info = (w, place, seq)) :
    Obtained user .upload info.filename info.filename w place := by
  cases uploadSession_cases made with
  | found here => exact .found here
  | added missing room => exact .added missing room rfl (by simp [sessionInit])
  | full missing none => exact .full missing none

/-- The session a download works with. -/
theorem downloadSession_obtained {path : CStr} {info filled : FileInfo}
    (made : downloadSession user path info filled = (w, place)) :
    Obtained user .download path filled.filename w place := by
  unfold downloadSession at made
  cases found : userGetSession user .download path with
  | some i =>
      rw [found] at made
      cases made
      exact .found found
  | none =>
      rw [found] at made
      by_cases full : user.sessions.length ≥ user.sessionsCapacity
      · simp only [userAddSession, if_pos full] at made
        cases made
        exact .full found full
      · simp only [userAddSession, if_neg full, if_true] at made
        cases made
        rw [List.length_append, List.length_singleton, Nat.add_sub_cancel, modify_split]
        exact .added found (Nat.lt_of_not_le full) rfl (by simp [sessionInit])

/-- The table in which a session has been sought is tidy and holds no other new ones. -/
theorem Obtained.keeps {type : SessionType} {filename : CStr} (tidy : Tidy user)
    (obtained : Obtained user type filename filename w place) : Tidy w ∧ user.sessions <+: w.sessions ∧
      ∀ k, some (type, filename) ≠ some k →
        under Session.key w.sessions k = under Session.key user.sessions k := by
  cases obtained with
  | found here => exact ⟨tidy, List.prefix_rfl, fun _ _ => rfl⟩
  | added missing room key resting =>
      obtain ⟨tidy', -, apart⟩ := obtained_added tidy missing key resting
      exact ⟨tidy', List.prefix_append _ _, fun k other => apart k fun same => other (congrArg some same.symm)⟩
  | full missing none => exact ⟨tidy, List.prefix_rfl, fun _ _ => rfl⟩

/-- A user after an upload whose `file_recv` has returned. -/
def User.uploaded (user : User) (place : Option Nat) (filename : CStr) (stats : FileRecvStats) : User :=
  let user := if stats.errorCode < 0 then user.mark place fun session => { session with
      state := .interrupted, lastTransferedChunk := stats.lastChunkRecvd }
    else user
  if stats.errorCode = -1 ∨ stats.errorCode = -2 then user
  else (userRemoveSession user .upload filename).1

/-- A user after a download whose `file_send` has returned. -/
def User.downloaded (user : User) (place : Option Nat) (filename : CStr) (stats : FileSendStats) : User :=
  if stats.errorCode < 0 then user.mark place fun session => { session with
    state := .interrupted, lastTransferedChunk := stats.lastChunkSent }
  else (userRemoveSession user .download filename).1

theorem uploadFinish_table {info : FileInfo} {stats : FileRecvStats} :
    (uploadFinish server addr place info stats).1.uman.users =
      server.uman.users.modify addr fun user => user.uploaded place info.filename stats := by
  have marked : (if stats.errorCode < 0 then server.modifySession addr place fun session => { session with
        state := .interrupted, lastTransferedChunk := stats.lastChunkRecvd }
      else server).uman.users = server.uman.users.modify addr fun user =>
        if stats.errorCode < 0 then user.mark place fun session => { session with
          state := .interrupted, lastTransferedChunk := stats.lastChunkRecvd }
        else user := by
    split_ifs
    · exact modifySession_users
    · exact (List.modify_id _ _).symm
  unfold uploadFinish User.uploaded
  dsimp only
  by_cases error : stats.errorCode = -1
  · simp only [error, if_true, true_or] at marked ⊢
    exact marked
  · by_cases gone : stats.errorCode = -2
    · simp only [gone] at marked ⊢
      exact marked
    · rw [if_neg error, if_neg gone]
      simp only [error, gone, or_self, if_false, Server.modifyUser, marked, List.modify_modify_eq]
      rfl

theorem downloadFinish_table {path : CStr} {stats : FileSendStats} :
    (downloadFinish server addr place path stats).1.uman.users =
      server.uman.users.modify addr fun user => user.downloaded place path stats := by
  unfold downloadFinish User.downloaded
  split_ifs
  · exact modifySession_users
  · rfl

/-- What is in a user's table when an upload has come to its end, or to its transfer. -/
theorem uploadPrepare_table (upload : dispatch r.hdr = .accept .uploadReq)
    (record : server.uman.users[addr]? = some user) :
    match uploadPrepare libs r.env server (some addr) r.hdr r.sock with
    | .ready next place info _ _ => r.sought libs = some (.upload, info.filename) ∧
        ∃ w, Obtained user .upload info.filename info.filename w place ∧
          next.uman.users = server.uman.users.modify addr fun _ => w
    | .returned next _ _ => ∃ w, (Tidy user → Settles user w (r.sought libs) none) ∧
        next.uman.users = server.uman.users.modify addr fun _ => w
    | .blocked => True := by
  have untouched : ∀ sought, ∃ w, (Tidy user → Settles user w sought none) ∧
      server.uman.users = server.uman.users.modify addr fun _ => w :=
    fun _ => ⟨user, fun tidy => ⟨tidy, List.prefix_rfl, fun _ _ => rfl⟩, (modify_self record).symm⟩
  simp only [uploadPrepare, Option.bind_some, record, Option.map_some, Request.sought, upload]
  cases msgRecvPayload r.sock r.hdr.length sizeofFileInfo with
  | blocked => trivial
  | fail ret got rest => exact untouched _
  | ok payload rest =>
      dsimp only
      unfold uploadAccept
      by_cases large : sizeT (user.usedSpace + (FileInfo.decode (payload ++ r.env.tail)).size) > user.totalSpace
      · rw [if_pos large]
        exact untouched _
      · rw [if_neg large]
        dsimp only
        generalize uploadName libs r.hdr.token _ _ = name
        obtain ⟨⟨w, place, seq⟩, made⟩ : ∃ m, uploadSession user
            { FileInfo.decode (payload ++ r.env.tail) with filename := name } = m := ⟨_, rfl⟩
        have obtained := uploadSession_obtained made
        simp only [made]
        generalize perform r.env.faults .mkdir _ _ = directory
        cases directory with
        | ok fs => exact ⟨rfl, w, obtained, rfl⟩
        | error errno =>
            by_cases there : errno = .EEXIST
            · simp only [there, if_true]
              exact ⟨trivial, w, obtained, rfl⟩
            · simp only [there, if_false]
              exact ⟨w, obtained.keeps, rfl⟩

/-- The same for a download. -/
theorem downloadPrepare_table (download : dispatch r.hdr = .accept .downloadReq)
    (record : server.uman.users[addr]? = some user) :
    match downloadPrepare libs r.env server (some addr) r.hdr r.sock with
    | .ready next place path info _ _ => r.sought libs = some (.download, path) ∧
        (info.filename = path ↔ Regular r server.fs path) ∧
        ∃ w, Obtained user .download path info.filename w place ∧
          next.uman.users = server.uman.users.modify addr fun _ => w
    | .returned next _ _ => next.uman.users = server.uman.users
    | .blocked => True := by
  simp only [downloadPrepare, Option.bind_some, record, Option.map_some, Request.sought, download]
  cases msgRecvPayload r.sock r.hdr.length sizeofFileInfo with
  | blocked => trivial
  | fail ret got rest => rfl
  | ok payload rest =>
      simp only [downloadAccept]
      generalize FileInfo.decode (payload ++ r.env.tail) = info
      cases resolution : getUserPath libs info.filename r.hdr.token with
      | none => rfl
      | some path =>
          dsimp only
          rcases @fileExists_cases r.env.faults server.fs path with one | zero | minus
          · rw [one, if_neg (by decide), if_neg (by decide)]
            obtain ⟨⟨w, place⟩, made⟩ : ∃ m, downloadSession user path info
                (fileinfoFromFilename r.env.faults libs .infoLstat .infoOpen server.fs path info).2 = m := ⟨_, rfl⟩
            simp only [made]
            have raw := raw_ne_path resolution one
            exact ⟨rfl, filled_filename.trans (or_iff_left raw), w, downloadSession_obtained made, rfl⟩
          · rw [zero, if_neg (by decide), if_pos rfl]
          · rw [minus, if_pos rfl]

theorem Obtained.place_eq {type : SessionType} {filename : CStr} (tidy : Tidy user)
    (obtained : Obtained user type filename filename w place) : userGetSession w type filename = place := by
  cases obtained with
  | found here => exact here
  | added missing room key resting => exact (obtained_added tidy missing key resting).2.1
  | full missing none => exact missing

/-- An upload is booked unless its code means that the peer has derailed it, or that it
has failed with no place for its session. -/
theorem uploaded_booked_iff {filename : CStr} {stats : FileRecvStats} (tidy : Tidy user)
    (obtained : Obtained user .upload filename filename w place)
    (codes : stats.errorCode = 0 ∨ (stats.errorCode = -3 ∨ stats.errorCode = -4) ∨
      (stats.errorCode = -1 ∨ stats.errorCode = -2)) :
    Booked user ((w.mark place fun session => { session with state := .running }).uploaded place filename stats)
        ⟨(.upload, filename), stats.errorCode⟩ ↔
      ¬ (stats.errorCode = -3 ∨ stats.errorCode = -4) ∧
        ((user.Has .upload filename ∨ user.Room) ∨ ¬ (stats.errorCode = -1 ∨ stats.errorCode = -2)) := by
  have place_eq := obtained.place_eq tidy
  have removed : ∀ f : Session → Session, (∀ s, (f s).key = s.key) →
      (userRemoveSession (w.mark place f) .upload filename).1 = (userRemoveSession w .upload filename).1 :=
    fun f keeps => userRemoveSession_mark place_eq keeps
  unfold User.uploaded
  rcases codes with done | derailed | failed
  · have positive : ¬ stats.errorCode < 0 := by rw [done]; decide
    have other : ¬ (stats.errorCode = -1 ∨ stats.errorCode = -2) := by rw [done]; decide
    have whole : ¬ (stats.errorCode = -3 ∨ stats.errorCode = -4) := by rw [done]; decide
    simp only [if_neg positive, if_neg other]
    rw [removed, booked_removed_iff tidy obtained positive]
    · exact ⟨fun _ => ⟨whole, .inr other⟩, fun _ => .inr fun _ => rfl⟩
    · exact fun _ => rfl
  · have negative : stats.errorCode < 0 := by
      rcases derailed with code | code <;> rw [code] <;> decide
    have other : ¬ (stats.errorCode = -1 ∨ stats.errorCode = -2) := by
      rcases derailed with code | code <;> rw [code] <;> decide
    simp only [if_pos negative, if_neg other, mark_mark]
    rw [removed]
    · exact ⟨fun booked => absurd booked (not_booked_removed tidy obtained negative),
        fun clean => absurd derailed clean.1⟩
    · exact fun _ => rfl
  · have negative : stats.errorCode < 0 := by
      rcases failed with code | code <;> rw [code] <;> decide
    have clean : ¬ (stats.errorCode = -3 ∨ stats.errorCode = -4) := by
      rcases failed with code | code <;> rw [code] <;> decide
    simp only [if_pos negative, if_pos failed, mark_mark]
    rw [booked_interrupted_iff tidy obtained ?_ ?_ negative]
    · simp [clean, failed]
    · exact fun _ => rfl
    · exact fun _ => rfl

/-- A download is booked if its session was found, or if there was room and the session
got the resolved path, or if it completed without one. -/
theorem downloaded_booked_iff {path stored : CStr} {stats : FileSendStats} (tidy : Tidy user)
    (obtained : Obtained user .download path stored w place) :
    Booked user (w.downloaded place path stats) ⟨(.download, path), stats.errorCode⟩ ↔
      user.Has .download path ∨ user.Room ∧ stored = path ∨ ¬ user.Room ∧ ¬ stats.errorCode < 0 := by
  unfold User.downloaded
  by_cases failed : stats.errorCode < 0
  · rw [if_pos failed, booked_interrupted_iff tidy obtained ?_ ?_ failed]
    · simp [failed]
    · exact fun _ => rfl
    · exact fun _ => rfl
  · rw [if_neg failed, booked_removed_iff tidy obtained failed]
    simp only [failed, not_false_eq_true, and_true]
    tauto

theorem modify_const {users : List User} {f : User → User} :
    (users.modify addr fun _ => w).modify addr f = users.modify addr fun _ => f w := by
  rw [List.modify_modify_eq]
  rfl

/-- What an upload leaves whose `file_recv` has returned. -/
theorem serve_transferred {next : Server} {place : Option Nat} {info : FileInfo} {seq : Nat} {sock rest : Sock} {w : User}
    {fs : Fs} {stats : FileRecvStats} (upload : dispatch r.hdr = .accept .uploadReq)
    (known : umanGetUser server.uman r.hdr.token = some (some addr))
    (early : uploadPrepare libs r.env server (some addr) r.hdr r.sock = .ready next place info seq sock)
    (users : next.uman.users = server.uman.users.modify addr fun _ => w)
    (transfer : fileRecv libs r.env next.fs info sock = .ret fs rest stats) :
    (r.serve libs server).server.fs = fs ∧ (r.serve libs server).server.uman.users = server.uman.users.modify addr fun _ =>
      (w.mark place fun session => { session with state := .running }).uploaded place info.filename stats := by
  rw [serve_upload upload known]
  simp only [handleUpload, early, modifySession_fs, Option.getD_some, transfer]
  constructor
  · rw [uploadFinish_fs]
  · simp only [uploadFinish_table, modifySession_users, users, modify_const]

/-- After an upload the user's table is right exactly if the upload was reported as it
went. -/
theorem upload_settles (upload : dispatch r.hdr = .accept .uploadReq)
    (known : umanGetUser server.uman r.hdr.token = some (some addr))
    (record : server.uman.users[addr]? = some user) (closed : (r.serve libs server).status = .closed) :
    ∃ after, (r.serve libs server).server.uman.users = server.uman.users.modify addr (fun _ => after) ∧
      (Tidy user → (Settles user after (r.sought libs) (r.outcome libs server addr) ↔ ReportCondition libs server addr r)) := by
  have prepared := @uploadPrepare_table libs server addr r user upload record
  rw [serve_upload upload known, handleUpload] at closed
  cases early : uploadPrepare libs r.env server (some addr) r.hdr r.sock with
  | blocked =>
      rw [early] at closed
      cases closed
  | returned next sock events =>
      rw [early] at prepared
      obtain ⟨w, keeps, users⟩ := prepared
      have nocall : uploadCall libs server addr r = none := by rw [uploadCall, early]
      have nothing : r.outcome libs server addr = none := by
        simp [Request.outcome, Request.code, upload, nocall]
      refine ⟨w, ?_, fun tidy => ?_⟩
      · rw [serve_upload upload known, handleUpload, early]
        exact users
      · rw [nothing]
        exact ⟨fun _ => by simp [ReportCondition, nocall], fun _ => keeps tidy⟩
  | ready next place info seq sock =>
      rw [early] at prepared closed
      obtain ⟨sought, w, obtained, users⟩ := prepared
      have call : uploadCall libs server addr r = some ⟨next.fs, info, sock⟩ := by rw [uploadCall, early]
      have derailed := @UploadCall.received_derailed libs r.env ⟨next.fs, info, sock⟩
      have failed := @UploadCall.received_failed libs r.env ⟨next.fs, info, sock⟩
      simp only [modifySession_fs, Option.getD_some] at closed
      cases transfer : fileRecv libs r.env next.fs info sock with
      | blocked fs =>
          rw [transfer] at closed
          cases closed
      | faulted fs =>
          rw [transfer] at closed
          cases closed
      | ret fs rest stats =>
          have returned : (UploadCall.mk next.fs info sock).received libs r.env = some stats := by
            simp [UploadCall.received, transfer]
          have finished : r.outcome libs server addr = some ⟨(.upload, info.filename), stats.errorCode⟩ := by
            simp [Request.outcome, Request.code, upload, sought, call, returned]
          refine ⟨_, (serve_transferred upload known early users transfer).2, fun tidy => ?_⟩
          rw [finished, Settles, uploaded_booked_iff tidy obtained (UploadCall.received_code returned)]
          rw [returned] at derailed failed
          simp only [Option.mem_def, Option.some.injEq, exists_eq_left'] at derailed failed
          simp [ReportCondition, call, derailed, failed, TableHolds, HasUpload, record, User.Has,
            User.Room, Option.isSome_iff_exists]

theorem serve_download (download : dispatch r.hdr = .accept .downloadReq)
    (known : umanGetUser server.uman r.hdr.token = some (some addr)) :
    r.serve libs server = handleDownload libs r.env server (some addr) r.hdr r.sock := by
  simp [Request.serve, onClientMessageReceived, download, known, MessageType.kind, onStreamReq]

/-- After a download the user's table is right exactly under the condition. -/
theorem download_settles (download : dispatch r.hdr = .accept .downloadReq)
    (known : umanGetUser server.uman r.hdr.token = some (some addr))
    (record : server.uman.users[addr]? = some user) (closed : (r.serve libs server).status = .closed) :
    ∃ after, (r.serve libs server).server.uman.users = server.uman.users.modify addr (fun _ => after) ∧
      (Tidy user → (Settles user after (r.sought libs) (r.outcome libs server addr) ↔ FetchCondition libs server addr r)) := by
  have prepared := @downloadPrepare_table libs server addr r user download record
  rw [serve_download download known] at closed ⊢
  unfold handleDownload at closed ⊢
  cases early : downloadPrepare libs r.env server (some addr) r.hdr r.sock with
  | blocked =>
      rw [early] at closed
      cases closed
  | returned next sock events =>
      rw [early] at prepared
      have nocall : downloadCall libs server addr r = none := by rw [downloadCall, early]
      have nothing : r.outcome libs server addr = none := by
        simp [Request.outcome, Request.code, download, nocall]
      refine ⟨user, prepared.trans (modify_self record).symm, fun tidy => ?_⟩
      rw [nothing]
      exact ⟨fun _ => by simp [FetchCondition, nocall], fun _ => ⟨tidy, List.prefix_rfl, fun _ _ => rfl⟩⟩
  | ready next place path info startChunk sock =>
      rw [early] at prepared closed
      obtain ⟨sought, regular, w, obtained, users⟩ := prepared
      have call : downloadCall libs server addr r = some ⟨next.fs, info.filename, startChunk, sock⟩ := by
        rw [downloadCall, early]
      have failed := @DownloadCall.sent_failed libs r.env ⟨next.fs, info.filename, startChunk, sock⟩
      simp only [Option.getD_some] at closed ⊢
      cases transfer : fileSend libs r.env next.fs info.filename startChunk sock with
      | none =>
          rw [transfer] at closed
          cases closed
      | some returned =>
          obtain ⟨stats, rest⟩ := returned
          have sent : (DownloadCall.mk next.fs info.filename startChunk sock).sent libs r.env = some stats := by
            simp [DownloadCall.sent, transfer]
          have finished : r.outcome libs server addr = some ⟨(.download, path), stats.errorCode⟩ := by
            simp [Request.outcome, Request.code, download, sought, call, sent]
          refine ⟨w.downloaded place path stats, ?_, fun tidy => ?_⟩
          · simp only [downloadFinish_table, users, modify_const]
          · rw [finished, Settles, downloaded_booked_iff tidy obtained, regular]
            rw [sent] at failed
            simp only [Option.mem_def, Option.some.injEq, exists_eq_left'] at failed
            simp [FetchCondition, record, sought, call, failed]

theorem umanRegisterUser_users {fresh : Option Nat} {uman next : UserManager} {token : Token}
    (registered : umanRegisterUser fresh uman token = some next) :
    next.users = uman.users ++ [userInit token] := by
  obtain ⟨put, -, same⟩ := Option.bind_eq_some_iff.mp registered
  cases same
  rfl

theorem handleAuth_users {env : Env} {hdr : MessageHdr} {next : Server} {events : List Event}
    (handled : handleAuth libs env server hdr = some (next, events)) :
    next.uman.users = server.uman.users ++ [userInit hdr.token] := by
  unfold handleAuth at handled
  dsimp only at handled
  obtain ⟨uman, registered, same⟩ := Option.bind_eq_some_iff.mp handled
  cases same
  exact umanRegisterUser_users registered

end Handlers

/-! ### Runs -/

/-- A registered user's upload or download that has been handled. -/
structure TransferServed (server : Server) (addr : Nat) (r : Request) : Prop where
  type : dispatch r.hdr = .accept .uploadReq ∨ dispatch r.hdr = .accept .downloadReq
  known : Registered server r.hdr.token addr
  closed : (r.serve libs server).status = .closed

/-- The user's table is right afterwards. -/
def SessionsSettled (server : Server) (addr : Nat) (r : Request) : Prop :=
  ∃ before after, server.uman.users[addr]? = some before ∧
    (r.serve libs server).server.uman.users[addr]? = some after ∧
      Settles before after (r.sought libs) (r.outcome libs server addr)

/-- The upload is reported as it goes, or the download can be booked. -/
def SessionCondition (server : Server) (addr : Nat) (r : Request) : Prop :=
  (dispatch r.hdr = .accept .uploadReq → ReportCondition libs server addr r) ∧
    (dispatch r.hdr = .accept .downloadReq → FetchCondition libs server addr r)

/-- Every user's table is tidy. -/
def AllTidy (server : Server) : Prop := ∀ user ∈ server.uman.users, Tidy user

section Runs

variable {libs} {server : Server} {addr : Nat} {r : Request} {user : User}

/-- A transfer changes the table of its user only, and leaves it right exactly under the
condition. -/
theorem transfer_settles (served : TransferServed libs server addr r)
    (record : server.uman.users[addr]? = some user) :
    ∃ after, (r.serve libs server).server.uman.users = server.uman.users.modify addr (fun _ => after) ∧
      (Tidy user → (Settles user after (r.sought libs) (r.outcome libs server addr) ↔ SessionCondition libs server addr r)) := by
  rcases served.type with upload | download
  · obtain ⟨after, users, settles⟩ := upload_settles upload served.known.1 record served.closed
    refine ⟨after, users, fun tidy => ?_⟩
    rw [settles tidy]
    simp [SessionCondition, upload]
  · obtain ⟨after, users, settles⟩ := download_settles download served.known.1 record served.closed
    refine ⟨after, users, fun tidy => ?_⟩
    rw [settles tidy]
    simp [SessionCondition, download]

theorem settled_iff (tidy : AllTidy server) (served : TransferServed libs server addr r) :
    SessionsSettled libs server addr r ↔ SessionCondition libs server addr r := by
  obtain ⟨-, user, record⟩ := served.known
  obtain ⟨after, users, settles⟩ := transfer_settles served record
  rw [← settles (tidy user (List.mem_of_getElem? record))]
  have at_addr : (r.serve libs server).server.uman.users[addr]? = some after := by
    rw [users, List.getElem?_modify_eq, record]
    rfl
  constructor
  · rintro ⟨user', after', record', at_addr', settled⟩
    cases record.symm.trans record'
    cases at_addr.symm.trans at_addr'
    exact settled
  · exact fun settled => ⟨user, after, record, at_addr, settled⟩

theorem tidy_of_empty (empty : user.sessions = []) : Tidy user := by
  refine ⟨?_, ?_⟩
  · rw [empty]
    exact List.nodup_nil
  · rw [empty]
    exact fun s => nofun

/-- The sessions under other names are the same. -/
theorem Settles.apart {before after : User} {k : SessionType × CStr} (settles :
    Settles before after (r.sought libs) (r.outcome libs server addr)) (other : r.sought libs ≠ some k) :
    under Session.key after.sessions k = under Session.key before.sessions k := by
  cases finished : r.outcome libs server addr with
  | none =>
      rw [finished] at settles
      exact settles.2.2 k other
  | some o =>
      rw [finished] at settles
      obtain ⟨key, sought, rest⟩ := Option.bind_eq_some_iff.mp finished
      obtain ⟨code, -, same⟩ := Option.bind_eq_some_iff.mp rest
      cases same
      exact Booked.others settles k fun here => other (sought.trans (congrArg some here.symm))

theorem Settles.tidy {before after : User} {sought : Option (SessionType × CStr)} {o : Option Outcome}
    (settles : Settles before after sought o) :
    Tidy after := by
  cases o with
  | none => exact settles.1
  | some o => exact Booked.tidy settles

/-- An upload closes the connection, unless it ends the process or never ends. -/
theorem handleUpload_status {env : Env} {found : Option Nat} {hdr : MessageHdr} {sock : Sock} :
    (handleUpload libs env server found hdr sock).status = .closed ∨
      (handleUpload libs env server found hdr sock).status = .blocked ∨
      (handleUpload libs env server found hdr sock).status = .faulted := by
  unfold handleUpload
  cases uploadPrepare libs env server found hdr sock with
  | returned next sock events => exact .inl rfl
  | blocked => exact .inr (.inl rfl)
  | ready next place info seq sock =>
      dsimp only
      cases fileRecv libs env _ info sock with
      | blocked fs => exact .inr (.inl rfl)
      | faulted fs => exact .inr (.inr rfl)
      | ret fs rest stats => exact .inl rfl

/-- A download closes the connection, or never ends. -/
theorem handleDownload_status {env : Env} {found : Option Nat} {hdr : MessageHdr} {sock : Sock} :
    (handleDownload libs env server found hdr sock).status = .closed ∨
      (handleDownload libs env server found hdr sock).status = .blocked := by
  unfold handleDownload
  cases downloadPrepare libs env server found hdr sock with
  | returned next sock events => exact .inl rfl
  | blocked => exact .inr rfl
  | ready next place path info startChunk sock =>
      dsimp only
      cases fileSend libs env next.fs info.filename startChunk sock with
      | none => exact .inr rfl
      | some returned => exact .inl rfl

/-- Nobody's transfer leaves the server as it is. -/
theorem transfer_nobody {env : Env} {found : Option Nat} {hdr : MessageHdr} {sock : Sock}
    (nobody : (found.bind fun addr => server.uman.users[addr]?.map fun user => (addr, user)) = none) :
    (handleUpload libs env server found hdr sock).server = server ∧
      (handleDownload libs env server found hdr sock).server = server := by
  constructor
  · simp only [handleUpload, uploadPrepare, nobody]
  · simp only [handleDownload, downloadPrepare, nobody]

/-- A message is a transfer, or leaves the tables that there are alone. -/
theorem serve_tables (goesOn : (r.serve libs server).status.goesOn) :
    (∃ addr, TransferServed libs server addr r) ∨
      ∃ new, (r.serve libs server).server.uman.users = server.uman.users ++ new ∧
        ∀ user ∈ new, user.sessions = [] := by
  have alone : ∀ {next : Server}, next.uman.users = server.uman.users →
      ∃ new, next.uman.users = server.uman.users ++ new ∧ ∀ user ∈ new, user.sessions = [] := by
    intro next same
    exact ⟨[], by rw [same, List.append_nil], fun _ => nofun⟩
  cases dispatched : dispatch r.hdr with
  | abort =>
      refine .inr (alone ?_)
      simp only [Request.serve, onClientMessageReceived, dispatched]
  | refuse =>
      refine .inr (alone ?_)
      simp only [Request.serve, onClientMessageReceived, dispatched]
  | accept type =>
      cases lookup : umanGetUser server.uman r.hdr.token with
      | none =>
          refine .inr (alone ?_)
          simp only [Request.serve, onClientMessageReceived, dispatched, lookup]
      | some found =>
          -- a transfer has a user, or ends at once
          have transfer : (type = .uploadReq ∨ type = .downloadReq) →
              (r.serve libs server).status = .closed →
              ((found.bind fun addr => server.uman.users[addr]?.map fun user => (addr, user)) = none →
                (r.serve libs server).server = server) →
              (∃ addr, TransferServed libs server addr r) ∨
                ∃ new, (r.serve libs server).server.uman.users = server.uman.users ++ new ∧
                  ∀ user ∈ new, user.sessions = [] := by
            intro type closed nobody
            cases somebody : found.bind fun addr => server.uman.users[addr]?.map fun user => (addr, user) with
            | none => exact .inr (alone (by rw [nobody somebody]))
            | some pair =>
                obtain ⟨rfl, record⟩ := record_of_bind somebody
                refine .inl ⟨pair.1, ?_, ⟨lookup, pair.2, record⟩, closed⟩
                simpa only [dispatched, Dispatch.accept.injEq] using type
          cases type
          case uploadReq =>
            have served : r.serve libs server = handleUpload libs r.env server found r.hdr r.sock := by
              simp [Request.serve, onClientMessageReceived, dispatched, lookup, MessageType.kind, onStreamReq]
            rw [served] at goesOn transfer ⊢
            refine transfer (.inl rfl) ?_ fun nobody => (transfer_nobody nobody).1
            rcases handleUpload_status with closed | blocked | faulted
            · exact closed
            · rw [blocked] at goesOn
              cases goesOn
            · rw [faulted] at goesOn
              cases goesOn
          case downloadReq =>
            have served : r.serve libs server = handleDownload libs r.env server found r.hdr r.sock := by
              simp [Request.serve, onClientMessageReceived, dispatched, lookup, MessageType.kind, onStreamReq]
            rw [served] at goesOn transfer ⊢
            refine transfer (.inr rfl) ?_ fun nobody => (transfer_nobody nobody).2
            rcases handleDownload_status with closed | blocked
            · exact closed
            · rw [blocked] at goesOn
              cases goesOn
          case authReq =>
            right
            simp only [Request.serve, onClientMessageReceived, dispatched, lookup, MessageType.kind, onOneshotReq]
            cases handled : handleAuth libs r.env server r.hdr with
            | none => exact alone rfl
            | some answered =>
                refine ⟨[userInit r.hdr.token], handleAuth_users handled, ?_⟩
                simp [userInit]
          case removeReq =>
            refine .inr (alone ?_)
            simp only [Request.serve, onClientMessageReceived, dispatched, lookup, MessageType.kind, onOneshotReq,
              handleRemove_uman]
          case mkdirReq =>
            refine .inr (alone ?_)
            simp only [Request.serve, onClientMessageReceived, dispatched, lookup, MessageType.kind, onOneshotReq,
              handleMkdir_uman]
          case listReq =>
            refine .inr (alone ?_)
            simp only [Request.serve, onClientMessageReceived, dispatched, lookup, MessageType.kind, onStreamReq,
              handleList_server]
          all_goals
            refine .inr (alone ?_)
            simp only [Request.serve, onClientMessageReceived, dispatched, lookup, MessageType.kind]

/-- A message that leaves its user's table right leaves every table tidy. -/
theorem serve_tidy (tidy : AllTidy server) (goesOn : (r.serve libs server).status.goesOn)
    (settled : ∀ addr, TransferServed libs server addr r → SessionsSettled libs server addr r) :
    AllTidy (r.serve libs server).server := by
  rcases serve_tables goesOn with ⟨addr, served⟩ | ⟨new, users, fresh⟩
  · obtain ⟨-, user, record⟩ := served.known
    obtain ⟨after, users, settles⟩ := transfer_settles served record
    have right := (settles (tidy user (List.mem_of_getElem? record))).mpr
      ((settled_iff tidy served).mp (settled addr served))
    intro u mem
    rw [users] at mem
    rcases mem_modify mem with old | ⟨-, -, rfl⟩
    · exact tidy u old
    · exact right.tidy
  · intro u mem
    rw [users] at mem
    rcases List.mem_append.mp mem with old | added
    · exact tidy u old
    · exact tidy_of_empty (fresh u added)

/-- If every transfer of a run leaves its user's table right, all tables are tidy whenever
a message comes. -/
theorem allTidy_run {rs : List Request} (tidy : AllTidy server)
    (settled : ∀ p ∈ run libs server rs, ∀ addr, TransferServed libs p.1 addr p.2 → AllTidy p.1 →
      SessionsSettled libs p.1 addr p.2) : ∀ p ∈ run libs server rs, AllTidy p.1 := by
  induction rs generalizing server with
  | nil => exact fun p met => nomatch met
  | cons r rs ih =>
      rw [run] at settled ⊢
      intro p met
      rcases List.mem_cons.mp met with rfl | later
      · exact tidy
      · have here := settled _ List.mem_cons_self
        split_ifs at settled later with goesOn
        · have next := serve_tidy tidy goesOn fun addr served => here addr served tidy
          exact ih next (fun q mem => settled q (List.mem_cons_of_mem _ mem)) p later
        · cases later

/-- The user's table says what has become of a transfer. -/
def Stands (server : Server) (addr : Nat) (o : Outcome) : Prop :=
  ∃ user, server.uman.users[addr]? = some user ∧ Standing user o

/-- It goes on saying so until the user comes back to the transfer. -/
theorem Stands.serve {o : Outcome} (stands : Stands server addr o) (tidy : AllTidy server)
    (goesOn : (r.serve libs server).status.goesOn)
    (settled : ∀ addr, TransferServed libs server addr r → SessionsSettled libs server addr r)
    (other : TransferServed libs server addr r → r.sought libs ≠ some o.key) :
    Stands (r.serve libs server).server addr o := by
  obtain ⟨user, record, standing⟩ := stands
  rcases serve_tables goesOn with ⟨a, served⟩ | ⟨new, users, -⟩
  · obtain ⟨-, mover, his⟩ := served.known
    obtain ⟨after, users, settles⟩ := transfer_settles served his
    have right := (settles (tidy mover (List.mem_of_getElem? his))).mpr
      ((settled_iff tidy served).mp (settled a served))
    by_cases same : a = addr
    · subst same
      cases record.symm.trans his
      refine ⟨after, by rw [users, List.getElem?_modify_eq, record]; rfl, standing.of_under ?_⟩
      exact right.apart (other served)
    · refine ⟨user, ?_, standing⟩
      rw [users, List.getElem?_modify_ne _ _ same]
      exact record
  · refine ⟨user, ?_, standing⟩
    rw [users, List.getElem?_append_left (List.getElem?_eq_some_iff.mp record).1]
    exact record

/-- What comes behind a message of a run is a run from the state it leads to. -/
theorem run_behind {rs : List Request} {xs zs : List (Server × Request)} {p : Server × Request}
    (split : run libs server rs = xs ++ p :: zs) :
    ∃ rs', zs = if (p.2.serve libs p.1).status.goesOn then run libs (p.2.serve libs p.1).server rs' else [] := by
  induction rs generalizing server xs with
  | nil => simp [run] at split
  | cons r rs ih =>
      rw [run] at split
      cases xs with
      | nil =>
          obtain ⟨rfl, rfl⟩ := List.cons.inj split
          exact ⟨rs, rfl⟩
      | cons x xs =>
          obtain ⟨-, later⟩ := List.cons.inj split
          split_ifs at later
          · exact ih later
          · cases xs <;> cases later

/-- A transfer stands in every state of a run up to the user's return to it. -/
theorem stands_run {rs : List Request} {ys zs : List (Server × Request)} {q : Server × Request} {o : Outcome}
    (stands : Stands server addr o) (split : run libs server rs = ys ++ q :: zs)
    (tidy : ∀ p ∈ run libs server rs, AllTidy p.1)
    (settled : ∀ p ∈ run libs server rs, ∀ addr, TransferServed libs p.1 addr p.2 →
      SessionsSettled libs p.1 addr p.2)
    (others : ∀ p ∈ ys, TransferServed libs p.1 addr p.2 → p.2.sought libs ≠ some o.key) :
    Stands q.1 addr o := by
  induction rs generalizing server ys with
  | nil => simp [run] at split
  | cons r rs ih =>
      rw [run] at split tidy settled
      cases ys with
      | nil =>
          obtain ⟨rfl, -⟩ := List.cons.inj split
          exact stands
      | cons y ys =>
          obtain ⟨rfl, later⟩ := List.cons.inj split
          split_ifs at later tidy settled with goesOn
          · refine ih ?_ later (fun p mem => tidy p (List.mem_cons_of_mem _ mem))
              (fun p mem => settled p (List.mem_cons_of_mem _ mem))
              fun p mem => others p (List.mem_cons_of_mem _ mem)
            exact stands.serve (tidy _ List.mem_cons_self) goesOn (settled _ List.mem_cons_self)
              (others _ List.mem_cons_self)
          · cases ys <;> cases later

end Runs

/-- The session tables are right throughout a run: each transfer leaves its user's table
right, which tells of the transfer from then on until he comes back to it. -/
structure SessionsKept (libs : Externals) (start : Server) (rs : List Request) : Prop where
  settled : ∀ p ∈ run libs start rs, ∀ addr, TransferServed libs p.1 addr p.2 →
    SessionsSettled libs p.1 addr p.2
  stands : ∀ xs p ys q zs addr o, run libs start rs = xs ++ p :: (ys ++ q :: zs) →
    TransferServed libs p.1 addr p.2 → p.2.outcome libs p.1 addr = some o →
      (∀ m ∈ ys, TransferServed libs m.1 addr m.2 → m.2.sought libs ≠ some o.key) → Stands q.1 addr o

/-- A transfer that has failed and is not found afterwards. -/
theorem not_kept_of_missing {libs : Externals} {start server : Server} {rs : List Request} {r : Request}
    {addr : Nat} {o : Outcome} (met : (server, r) ∈ run libs start rs)
    (served : TransferServed libs server addr r) (finished : r.outcome libs server addr = some o)
    (failed : o.code < 0)
    (missing : (r.serve libs server).server.uman.users[addr]?.map
      (fun user => userGetSession user o.key.1 o.key.2) = some none) : ¬ SessionsKept libs start rs := by
  intro kept
  obtain ⟨before, after, -, record, settles⟩ := kept.settled _ met addr served
  rw [finished] at settles
  obtain ⟨s, i, found, -⟩ := settles.standing.interrupted failed
  rw [record, Option.map_some, found] at missing
  cases missing

/-- A server with a user who has made a directory. -/
def folderMade : Server := runState libraries (boot [] [])
  [request .authReq someToken [] [], request .mkdirReq someToken (cstr "d" ++ [0]) []]

end MiniDropbox
