/-
An upload: `cmd_upload` of an honest client against `handle_upload`.

An `Upload` fixes the server that takes the request, the record of the user, and the
client's file. `prepared` is what the handler makes of the request and `opened` what
`file_recv` starts from: the resume point sent to the client, and the bytes of the
target. The transfer that follows starts at the chunk the client decodes.

* `opened_iff` — the handler gets to `file_recv` with an open target exactly for an
  upload that is `Accepted`, and the resume point is that of the session found.
* `uploadPrepare_request` — `prepared` is what the handler computes from the bytes of
  the request.
-/

import MiniDropbox.Client
import MiniDropbox.Edits
import MiniDropbox.Transfer.Ends

namespace MiniDropbox

/-- The resume point of a path: `last_transfered_chunk` of the session found for it, if
that was interrupted. -/
def resumePoint (user : User) (filename : CStr) : Nat :=
  match user.sessions.find? (Session.matches .upload filename) with
  | some session => if session.state = .interrupted then session.lastTransferedChunk else 0
  | none => 0

/-- `handle_upload` sends the resume point of the path. -/
theorem uploadSession_seq (user : User) (info : FileInfo) :
    (uploadSession user info).2.2 = resumePoint user info.filename := by
  rw [resumePoint, List.find?_eq_bind_findIdx?_getElem?]
  unfold uploadSession userGetSession
  cases user.sessions.findIdx? (Session.matches .upload info.filename) with
  | none => rfl
  | some i => cases found : user.sessions[i]? <;> simp [found]

/-- An upload in the state that receives its request. `readOk` and `lost` are the reads
of the client's `file_send` and the writes of the server's `file_recv`. -/
structure Upload where
  libs : Externals
  server : Server
  addr : Nat
  user : User
  token : Token
  env : Env
  name : CStr
  content : List Byte
  readOk : Nat → Bool
  lost : Nat → Nat
  record : server.uman.users[addr]? = some user
  fits : (cmdUploadInfo libs name content).Fits
  content_lt : content.length < 2 ^ 63

namespace Upload

variable (u : Upload)

/-- The request's `FileInfo`. -/
def info : FileInfo := cmdUploadInfo u.libs u.name u.content

/-- Where the handler stores the file. -/
def target : CStr := uploadName u.libs u.token u.info u.env.tail

def prepared : UploadPrepared :=
  uploadAccept u.libs u.env u.server u.addr u.user u.token u.info u.env.tail ⟨[], [], .opened⟩

/-- The resume point the handler sends and the content of the target when `file_recv`
has opened it. -/
def opened : Option (Nat × List Byte) :=
  match u.prepared with
  | .ready server _ info seq _ =>
      match perform u.env.faults .recvOpen info.filename (server.fs.openCreate info.filename) with
      | .ok (_, _, old) => some (seq, old)
      | .error _ => none
  | _ => none

/-- The transfer that follows: the client starts where it is told, and waits for the
answer on the same connection. -/
def transfer (seq : Nat) : Transfer where
  libs := u.libs
  content := u.content
  count := u.info.chunkCount
  start := cmdUploadStart (LittleEndian.encode 8 seq)
  readOk := u.readOk
  lost := u.lost
  hangup := false
  content_lt := u.content_lt
  start_lt := cmdUploadStart_lt seq

@[simp] theorem transfer_start (seq : Nat) : (u.transfer seq).start = seq % 256 :=
  cmdUploadStart_encode seq

/-- The chunk the client starts at: the resume point of the target, as one byte. -/
def start : Nat := resumePoint u.user u.target % 256

/-- There is no chunk to transfer, or the start is below the chunk count and every chunk
from it on lies in the file and is read. -/
def Covers : Prop :=
  u.info.chunkCount = 0 ∨ u.start < u.info.chunkCount ∧
    ∀ j, u.start ≤ j → j < u.info.chunkCount → u.readOk j = true ∧ j * CHUNK_SIZE < u.content.length

/-- The tree after the `mkdir` of the user's directory, if the handler goes on. -/
def userDirectory : Option Fs :=
  match perform u.env.faults .mkdir (getUserRoot u.libs u.token)
      (u.server.fs.mkdir (getUserRoot u.libs u.token)) with
  | .ok fs => some fs
  | .error errno => if errno = .EEXIST then some u.server.fs else none

/-- The declared size passes the quota test, the user's directory is there or can be
made, and the target can be opened, with this content. -/
structure Accepted (old : List Byte) : Prop where
  quota : sizeT (u.user.usedSpace + u.content.length) ≤ u.user.totalSpace
  opens : ∃ fs ∈ u.userDirectory, ∃ fs' place,
    perform u.env.faults .recvOpen u.target (fs.openCreate u.target) = .ok (fs', place, old)

variable {u}

/-- Where nothing fails and the user's directory is there, opening the target decides. -/
theorem accepted_of_opens {old : List Byte} (faultless : u.env.faults = fun _ _ => none)
    (quota : sizeT (u.user.usedSpace + u.content.length) ≤ u.user.totalSpace)
    (directory : u.server.fs.mkdir (getUserRoot u.libs u.token) = .error .EEXIST)
    (opens : (u.server.fs.openCreate u.target).map (·.2.2) = .ok old) : u.Accepted old := by
  refine ⟨quota, u.server.fs, by simp [userDirectory, perform, faultless, directory], ?_⟩
  cases opened : u.server.fs.openCreate u.target with
  | error errno => simp [opened, Except.map] at opens
  | ok found =>
      obtain ⟨fs', place, bytes⟩ := found
      simp only [opened, Except.map, Except.ok.injEq] at opens
      exact ⟨fs', place, by simp [perform, faultless, ← opens]⟩

/-- A request above the quota does not get to `file_recv`. -/
theorem opened_of_over (exceeds : u.user.totalSpace < sizeT (u.user.usedSpace + u.content.length)) :
    u.opened = none := by
  have size : u.info.size = u.content.length := rfl
  rw [opened, prepared, uploadAccept, size, if_pos exceeds]

/-- Within the quota the handler goes on in the tree with the user's directory. -/
theorem opened_of_quota (within : sizeT (u.user.usedSpace + u.content.length) ≤ u.user.totalSpace) :
    u.opened = u.userDirectory.bind fun fs =>
      match perform u.env.faults .recvOpen u.target (fs.openCreate u.target) with
      | .ok (_, _, old) => some (resumePoint u.user u.target, old)
      | .error _ => none := by
  have seqs := uploadSession_seq u.user { u.info with filename := u.target }
  obtain ⟨⟨next, place, seq⟩, session⟩ : ∃ made, uploadSession u.user { u.info with filename := u.target } = made :=
    ⟨_, rfl⟩
  rw [session] at seqs
  dsimp only at seqs
  subst seqs
  have within' : ¬ sizeT (u.user.usedSpace + u.info.size) > u.user.totalSpace := Nat.not_lt.mpr within
  have named : uploadSession u.user { u.info with filename := uploadName u.libs u.token u.info u.env.tail } =
    (next, place, resumePoint u.user u.target) := session
  rw [opened, prepared, uploadAccept, if_neg within']
  simp only [named, userDirectory, getUserRoot, modifyUser_fs]
  cases perform u.env.faults .mkdir (snprintf PATH_MAX (STORAGE_DIR ++ slash :: u.libs.uuidUnparse u.token))
      (u.server.fs.mkdir (snprintf PATH_MAX (STORAGE_DIR ++ slash :: u.libs.uuidUnparse u.token))) with
  | ok fs => rfl
  | error errno =>
      by_cases exist : errno = .EEXIST
      · simp only [exist, if_true]
        rfl
      · simp only [exist, if_false]
        rfl

/-- The handler gets to `file_recv` with an open target exactly when the upload is
accepted, and it sends the resume point of the target. -/
theorem opened_iff {seq : Nat} {old : List Byte} :
    u.opened = some (seq, old) ↔ seq = resumePoint u.user u.target ∧ u.Accepted old := by
  by_cases within : sizeT (u.user.usedSpace + u.content.length) ≤ u.user.totalSpace
  · rw [opened_of_quota within, Option.bind_eq_some_iff]
    constructor
    · rintro ⟨fs, directory, opens⟩
      split at opens
      · next fs' place bytes opened =>
          cases opens
          exact ⟨rfl, within, fs, directory, fs', place, opened⟩
      · cases opens
    · rintro ⟨rfl, -, fs, directory, fs', place, opens⟩
      exact ⟨fs, directory, by rw [opens]⟩
  · rw [opened_of_over (Nat.lt_of_not_le within)]
    constructor
    · rintro ⟨⟩
    · rintro ⟨-, accepted⟩
      exact absurd accepted.quota within

/-- The transfer completes exactly when the chunks from the start on are all there. -/
theorem completes_iff : (u.transfer (resumePoint u.user u.target)).Completes ↔ u.Covers := by
  have count : (u.transfer (resumePoint u.user u.target)).count = u.info.chunkCount := rfl
  simp only [Transfer.Completes, Transfer.Sends, transfer_start, count, Covers, start]
  constructor
  · rintro (nothing | ⟨below, all⟩)
    · exact .inl nothing
    · exact .inr ⟨below, fun j above less => (all j above less).2⟩
  · rintro (nothing | ⟨below, all⟩)
    · exact .inl nothing
    · exact .inr ⟨below, fun j above less => ⟨less, all j above less⟩⟩

/-- What the handler makes of the request on the wire. -/
theorem uploadPrepare_request :
    uploadPrepare u.libs u.env u.server (some u.addr)
      (request .uploadReq u.token u.info.encode []).hdr (request .uploadReq u.token u.info.encode []).sock =
        u.prepared :=
  uploadPrepare_of_received u.libs u.env u.record u.fits
    (request_received (Nat.le_of_eq u.info.length_encode))

end Upload

/-- The request for a file of one byte. -/
theorem oneByte_fits : (cmdUploadInfo libraries (cstr "/f") [9]).Fits :=
  ⟨by decide, by decide, by decide, by decide⟩

theorem oneByte_lt : [(9 : Byte)].length < 2 ^ 63 := by decide

end MiniDropbox
