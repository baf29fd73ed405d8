/-
How far an interrupted upload is recorded, and how far it is stored.

`handle_upload` keeps in the session whatever number `file_recv` returns. That number is
right if the receiver has come to a chunk and has been brought back to where it was;
otherwise it falls behind what lies on the disk. `uploadProgress_exact` says of every
sequence of attempts to upload one file when record and disk stay in step.
-/

import MiniDropbox.Bookings
import MiniDropbox.CutTransfer
import MiniDropbox.Footprint
import MiniDropbox.Registration
import MiniDropbox.Resolution
import MiniDropbox.Upload

namespace MiniDropbox

/-! ### Attempts -/

/-- A file that an honest client uploads. -/
structure LocalFile where
  libs : Externals
  token : Token
  name : CStr
  content : List Byte
  named : token ≠ Token.null
  fits : (cmdUploadInfo libs name content).Fits
  content_lt : content.length < 2 ^ 63

/-- One attempt, as the server meets it: what arrives behind the header of the request, in
which `inflow` are the chunk messages. -/
structure Attempt where
  sentAt : Nat × Nat
  rx : List Byte
  sched : List (Option Nat)
  fin : SockEnd
  env : Env
  inflow : Inflow

namespace LocalFile

variable (f : LocalFile)

def info : FileInfo := cmdUploadInfo f.libs f.name f.content

def request (a : Attempt) : Request :=
  ⟨⟨f.info.encode.length, MessageType.uploadReq.toNat, f.token, a.sentAt⟩, ⟨a.rx, a.sched, a.fin⟩, a.env⟩

def serve (server : Server) (a : Attempt) : Server := ((f.request a).serve f.libs server).server

/-- What arrives is a part of the request, or the request and the messages behind it. -/
def Arrives (a : Attempt) : Prop := a.rx <+: f.info.encode ∧ a.rx ≠ f.info.encode ∨ a.rx = f.info.encode ++ a.inflow.rx

/-- The client sends its request, and then its chunks from the one on that it reads in the
answer. -/
structure Tries (target : CStr) (server : Server) (a : Attempt) : Prop where
  target : uploadName f.libs f.token f.info a.env.tail = target
  comes : f.Arrives a
  chunks : ∀ body, Event.sent .uploadRes body ∈ ((f.request a).serve f.libs server).events →
    a.inflow.From f.libs f.content f.info.chunkCount (cmdUploadStart body)

/-- The attempt is interrupted: a transfer that it comes to ends, and not with the file. The
disk works. -/
structure Interrupted (addr : Nat) (server : Server) (a : Attempt) : Prop where
  broken : ∀ call ∈ uploadCall f.libs server addr (f.request a), ∃ stats ∈ call.received f.libs a.env, stats.errorCode ≠ 0
  works : FileWorks a.env.recv

end LocalFile

/-! ### The record and the disk -/

/-- The upload session for a path. -/
def User.upload (user : User) (filename : CStr) : Option Session :=
  (userGetSession user .upload filename).bind fun i => user.sessions[i]?

/-- Its `last_transfered_chunk`. -/
def User.recorded (user : User) (filename : CStr) : Nat :=
  (user.upload filename).elim 0 fun session => session.lastTransferedChunk

def Server.recorded (server : Server) (addr : Nat) (filename : CStr) : Nat :=
  match server.uman.users[addr]? with
  | some user => user.recorded filename
  | none => 0

/-- The bytes of the file at a path whose names are its place. -/
def Fs.bytesAt (fs : Fs) (path : CStr) : List Byte :=
  match fs.get? (components path) with
  | some (.file bytes) => bytes
  | _ => []

/-- How many leading chunks of the content are stored. -/
def leading (content bytes : List Byte) : Nat :=
  ((List.range (chunksOf content.length)).takeWhile fun i => segmentAt content i <+: bytes.drop (i * CHUNK_SIZE)).length

namespace LocalFile

variable (f : LocalFile) (addr : Nat) (target : CStr)

/-- After the attempt the session knows how many leading chunks are stored, and no fewer
than before. -/
structure Advances (server : Server) (a : Attempt) : Prop where
  recorded : (f.serve server a).recorded addr target = leading f.content ((f.serve server a).fs.bytesAt target)
  grows : server.recorded addr target ≤ (f.serve server a).recorded addr target

/-- The chunks that a call takes, if it can open its target. -/
def took (a : Attempt) (call : UploadCall) : Option Nat :=
  match perform a.env.faults .recvOpen call.info.filename (call.fs.openCreate call.info.filename) with
  | .ok _ => a.inflow.taken f.libs a.env.recv a.inflow.whole call.sock.fuel
  | .error _ => none

/-- If `file_recv` is called, what has been left in memory does not make another chunk of the
message that is cut off. -/
def Sound (server : Server) (a : Attempt) : Prop :=
  ∀ call ∈ uploadCall f.libs server addr (f.request a), a.inflow.Sound f.libs f.content a.env.recv

/-- And nothing was recorded before, or the receiver comes to a chunk and the chunks
acknowledged lead back to what was recorded; and there is a session for the record, or room
for one, or no chunk is taken. -/
def Regains (server : Server) (a : Attempt) : Prop :=
  f.Sound addr server a ∧ ∀ call ∈ uploadCall f.libs server addr (f.request a),
    (server.recorded addr target = 0 ∨
      ∃ m ∈ f.took a call, server.recorded addr target ≤ server.recorded addr target % 256 + m) ∧
    (TableHolds server addr target ∨ (f.took a call).getD 0 = 0)

/-- The record says what is stored, which is that many chunks and nothing else. -/
structure InStep (server : Server) : Prop where
  resumes : ∀ user, server.uman.users[addr]? = some user → resumePoint user target = user.recorded target
  within : server.recorded addr target ≤ chunksOf f.content.length
  stored : server.fs.bytesAt target = f.content.take (server.recorded addr target * CHUNK_SIZE)

end LocalFile

/-! ### Chunks stored -/

section Stored

variable {content : List Byte} {r i : Nat}

theorem segment_stored (below : i < r) : segmentAt content i <+: (content.take (r * CHUNK_SIZE)).drop (i * CHUNK_SIZE) := by
  have room : CHUNK_SIZE ≤ r * CHUNK_SIZE - i * CHUNK_SIZE := by
    rw [← Nat.sub_mul]
    exact Nat.le_mul_of_pos_left _ (Nat.sub_pos_of_lt below)
  rw [List.drop_take, List.prefix_take_iff]
  refine ⟨List.take_prefix _ _, Nat.le_trans ?_ room⟩
  rw [length_segmentAt]
  exact Nat.min_le_left _ _

theorem segment_missing (inside : i < chunksOf content.length) :
    ¬ segmentAt content i <+: (content.take (i * CHUNK_SIZE)).drop (i * CHUNK_SIZE) := by
  rw [List.drop_of_length_le (List.length_take_le _ _), List.prefix_nil]
  intro empty
  have width := length_segmentAt content i
  rw [empty, List.length_nil] at width
  simp only [chunksOf, CHUNK_SIZE] at inside width
  omega

/-- The first chunks of the content are so many leading chunks. -/
theorem leading_take (within : r ≤ chunksOf content.length) : leading content (content.take (r * CHUNK_SIZE)) = r := by
  have split : List.range (chunksOf content.length) =
      List.range r ++ List.range' r (chunksOf content.length - r) := by
    have parts := @List.range'_append_1 0 r (chunksOf content.length - r)
    rw [Nat.zero_add, Nat.add_sub_cancel' within] at parts
    rw [List.range_eq_range', List.range_eq_range', parts]
  rw [leading, split, List.takeWhile_append_of_pos]
  · by_cases last : r = chunksOf content.length
    · rw [last, Nat.sub_self, List.range'_zero, List.takeWhile_nil, List.append_nil, List.length_range]
    · obtain ⟨k, more⟩ : ∃ k, chunksOf content.length - r = k + 1 := ⟨chunksOf content.length - r - 1, by omega⟩
      rw [more, List.range'_succ, List.takeWhile_cons_of_neg, List.append_nil, List.length_range]
      rw [decide_eq_true_eq]
      exact segment_missing (by omega)
  · intro i mem
    rw [decide_eq_true_eq]
    exact segment_stored (List.mem_range.mp mem)

end Stored

/-! ### Sessions -/

section Sessions

variable {user w : User} {place : Option Nat} {seq : Nat} {info : FileInfo} {filename : CStr} {g : Session → Session}

theorem resumePoint_upload : resumePoint user filename =
    (user.upload filename).elim 0 fun session => if session.state = .interrupted then session.lastTransferedChunk else 0 := by
  rw [resumePoint, List.find?_eq_bind_findIdx?_getElem?, User.upload, userGetSession]
  cases (user.sessions.findIdx? (Session.matches .upload filename)).bind fun i => user.sessions[i]? <;> rfl

theorem upload_isSome : (user.upload filename).isSome = (userGetSession user .upload filename).isSome := by
  rw [User.upload]
  cases found : userGetSession user .upload filename with
  | none => rfl
  | some i =>
      obtain ⟨inside, -⟩ := List.findIdx?_eq_some_iff_getElem.mp found
      rw [Option.bind_some, List.getElem?_eq_getElem inside]
      rfl

/-- The session a handler goes on with is the one that was there, or a new one. -/
theorem uploadSession_upload (made : uploadSession user info = (w, place, seq)) :
    w.upload info.filename = user.upload info.filename ∨
      user.upload info.filename = none ∧ w.upload info.filename = some (sessionInit info .upload) := by
  cases uploadSession_cases made with
  | found here => exact .inl rfl
  | full missing none => exact .inl rfl
  | added missing room =>
      refine .inr ⟨by rw [User.upload, missing]; rfl, ?_⟩
      rw [userGetSession] at missing
      simp [User.upload, userGetSession, List.findIdx?_append, missing, matches_sessionInit]

/-- What is recorded stays as it is when the session is made. -/
theorem uploadSession_recorded (made : uploadSession user info = (w, place, seq)) :
    w.recorded info.filename = user.recorded info.filename ∧
      resumePoint w info.filename = resumePoint user info.filename := by
  rw [resumePoint_upload, resumePoint_upload, User.recorded, User.recorded]
  rcases uploadSession_upload made with same | ⟨missing, new⟩
  · rw [same]
    exact ⟨rfl, rfl⟩
  · rw [missing, new]
    exact ⟨rfl, rfl⟩

theorem upload_mark (found : place = userGetSession w .upload filename) (keeps : ∀ s, (g s).key = s.key) :
    (w.mark place g).upload filename = (w.upload filename).map g := by
  rw [User.upload, userGetSession_mark keeps, User.upload, ← found]
  cases place with
  | none => rfl
  | some i =>
      rw [Option.bind_some, Option.bind_some, User.mark, List.getElem?_modify_eq]
      rfl

/-- After a failure the session holds the number returned, if there is a session. -/
theorem recorded_uploaded {stats : FileRecvStats} (found : place = userGetSession w .upload filename)
    (failed : stats.errorCode = -1 ∨ stats.errorCode = -2) :
    ((w.mark place fun session => { session with state := .running }).uploaded place filename stats).recorded filename =
        (if place.isSome then stats.lastChunkRecvd else 0) ∧
      resumePoint ((w.mark place fun session => { session with state := .running }).uploaded place filename stats) filename =
        (if place.isSome then stats.lastChunkRecvd else 0) := by
  have negative : stats.errorCode < 0 := by
    rcases failed with code | code <;> rw [code] <;> decide
  rw [User.uploaded, if_pos negative, if_pos failed, mark_mark, resumePoint_upload, User.recorded,
    upload_mark found, found, ← upload_isSome]
  · cases w.upload filename with
    | none => exact ⟨rfl, rfl⟩
    | some session => exact ⟨rfl, rfl⟩
  · exact fun _ => rfl

end Sessions

/-! ### Files -/

section Files

variable {libs : Externals} {env : Env} {fs fs' : Fs} {token : Token} {path : CStr}

/-- Making the user's directory makes no file and hides none. -/
theorem bytesAt_rootMade (free : LinkFree fs) (made : rootMade libs env.faults fs token = some fs') :
    fs'.bytesAt path = fs.bytesAt path := by
  have grown : fs' = fs ∨ fs.get? (userPlace libs token) = none ∧ fs' = fs.set (userPlace libs token) .dir := by
    unfold rootMade at made
    split at made
    · rename_i created
      cases made
      exact .inr (mkdir_root free (perform_ok created))
    · split_ifs at made
      cases made
      exact .inl rfl
  rcases grown with rfl | ⟨missing, rfl⟩
  · rfl
  · rw [Fs.bytesAt, Fs.bytesAt]
    by_cases root : components path = []
    · rw [root]
      rfl
    · rw [get?_set root]
      by_cases own : components path = userPlace libs token
      · rw [if_pos own, own, missing]
      · rw [if_neg own]

/-- The file opened holds what is stored at the path, and what is written to it is stored there. -/
theorem bytesAt_opened {place : Place} {old : List Byte} {info : FileInfo} {behind : List Byte} (free : LinkFree fs)
    (clean : 0 ∉ info.filename) (opened : fs.openCreate (uploadName libs token info behind) = .ok (fs', place, old)) :
    fs.bytesAt (uploadName libs token info behind) = old ∧
      ∀ bytes, (fs'.set place (.file bytes)).bytesAt (uploadName libs token info behind) = bytes := by
  have names := openCreate_components free clean opened
  refine ⟨?_, fun bytes => ?_⟩
  · rw [Fs.bytesAt, ← names]
    rcases (openCreate_place opened).2 with ⟨missing, -, rfl⟩ | ⟨content, -⟩
    · rw [missing]
    · rw [content]
  · rw [Fs.bytesAt, ← names, get?_set (openCreate_ne_nil free clean opened), if_pos rfl]

variable {f : LocalFile} {a : Attempt} {call : UploadCall} {received : FileInfo} {behind : List Byte} {s r : Nat}

/-- What `file_recv` returns and leaves, when the connection fails during the transfer. -/
theorem fileRecv_progress (free : LinkFree call.fs) (clean : 0 ∉ received.filename)
    (named : call.info.filename = uploadName libs token received behind) (count : call.info.chunkCount = f.info.chunkCount)
    (arrived : call.sock.rx = a.inflow.rx) (from_ : a.inflow.From f.libs f.content f.info.chunkCount s) (below : s ≤ r)
    (works : FileWorks a.env.recv) (sound : a.inflow.Sound f.libs f.content a.env.recv)
    (stored : call.fs.bytesAt call.info.filename = f.content.take (r * CHUNK_SIZE))
    (broken : ∃ stats ∈ call.received f.libs a.env, stats.errorCode ≠ 0) :
    ∃ fs' rest stats, fileRecv f.libs a.env call.fs call.info call.sock = .ret fs' rest stats ∧
      (stats.errorCode = -1 ∨ stats.errorCode = -2) ∧ stats.lastChunkRecvd = (f.took a call).elim 0 (s + ·) ∧
        fs'.bytesAt call.info.filename = f.content.take (max r (s + (f.took a call).getD 0) * CHUNK_SIZE) := by
  obtain ⟨stats, returned, failed⟩ := broken
  rw [UploadCall.received] at returned
  unfold fileRecv at returned ⊢
  cases opens : perform a.env.faults .recvOpen call.info.filename (call.fs.openCreate call.info.filename) with
  | error errno =>
      rw [opens] at returned
      cases returned
      refine ⟨call.fs, call.sock, _, rfl, .inl rfl, ?_, ?_⟩
      · rw [LocalFile.took, opens]
        rfl
      · rw [stored, LocalFile.took, opens]
        dsimp only
        rw [Option.getD_none, Nat.add_zero, Nat.max_eq_left below]
  | ok target =>
      obtain ⟨fs', place, old⟩ := target
      rw [opens] at returned
      dsimp only at returned ⊢
      obtain ⟨held, kept⟩ := bytesAt_opened free clean (named ▸ perform_ok opens)
      rw [← named] at held kept
      rw [LocalFile.took, opens]
      rw [stored] at held
      rw [← held, count] at returned ⊢
      dsimp only
      cases pc : (recvLoop f.libs f.info.chunkCount a.env.recv call.sock.fuel
          (recvStart (f.content.take (r * CHUNK_SIZE)) call.sock)).1.pc with
      | ret found =>
          rw [pc] at returned
          obtain rfl := Option.some.inj returned
          have progress := progress_of_start works f.content_lt from_ sound below arrived pc failed
          refine ⟨_, _, found, rfl, progress.code, progress.count, ?_⟩
          rw [kept]
          exact progress.stored
      | top seq => rw [pc] at returned; cases returned
      | again seq => rw [pc] at returned; cases returned
      | ok seq chunk => rw [pc] at returned; cases returned
      | write seq chunk => rw [pc] at returned; cases returned
      | fault => rw [pc] at returned; cases returned

end Files

/-! ### One attempt -/

/-- What the server records for a path and stores there: the number in the session, from
which it would resume, and the bytes. -/
structure Records (server : Server) (addr : Nat) (target : CStr) (count : Nat) (bytes : List Byte) : Prop where
  recorded : server.recorded addr target = count
  resumes : ∀ user, server.uman.users[addr]? = some user → resumePoint user target = user.recorded target
  stored : server.fs.bytesAt target = bytes

namespace LocalFile

variable {f : LocalFile} {addr : Nat} {target : CStr} {server : Server} {user : User} {a : Attempt}

theorem upload_request : dispatch (f.request a).hdr = .accept .uploadReq := by
  have upload : MessageType.ofNat? (f.request a).hdr.type = some .uploadReq := rfl
  rw [dispatch, upload]
  exact if_neg fun both => f.named both.2

/-- How an attempt gets to `file_recv`, or does not. -/
inductive Prepares (f : LocalFile) (addr : Nat) (target : CStr) (server : Server) (user : User) (a : Attempt) :
    UploadPrepared → Prop where
  | blocked : Prepares f addr target server user a .blocked
  | refused {sock : Sock} {events : List Event} : (∀ body, Event.sent .uploadRes body ∉ events) →
      Prepares f addr target server user a (.returned server sock events)
  | unmade {w : User} {place : Option Nat} {seq : Nat} {sock : Sock} {events : List Event} :
      uploadSession user { f.info with filename := target } = (w, place, seq) →
      (∀ body, Event.sent .uploadRes body ∉ events) →
      Prepares f addr target server user a (.returned (server.modifyUser addr fun _ => w) sock events)
  | ready {w : User} {place : Option Nat} {seq : Nat} {fs : Fs} {sock : Sock} :
      uploadSession user { f.info with filename := target } = (w, place, seq) →
      rootMade f.libs a.env.faults server.fs f.token = some fs → sock.rx = a.inflow.rx → sock.fin = a.fin →
      Prepares f addr target server user a (.ready { server.modifyUser addr (fun _ => w) with fs := fs } place
        { f.info with filename := target } seq sock)

theorem accept_prepares {sock : Sock} (named : uploadName f.libs f.token f.info a.env.tail = target)
    (arrived : sock.rx = a.inflow.rx) (ends : sock.fin = a.fin) : Prepares f addr target server user a
      (uploadAccept f.libs a.env server addr user f.token f.info a.env.tail sock) := by
  have error : ∀ text body, Event.sent .uploadRes body ∉ [sendError text] := by
    intro text body sent
    cases List.mem_singleton.mp sent
  unfold uploadAccept
  split_ifs with exceeds
  · exact .refused (error _)
  · rw [named]
    obtain ⟨⟨w, place, seq⟩, made⟩ : ∃ made, uploadSession user { f.info with filename := target } = made := ⟨_, rfl⟩
    dsimp only at made ⊢
    rw [made]
    dsimp only [modifyUser_fs]
    cases created : perform a.env.faults .mkdir (snprintf PATH_MAX (STORAGE_DIR ++ slash :: f.libs.uuidUnparse f.token))
        (server.fs.mkdir (snprintf PATH_MAX (STORAGE_DIR ++ slash :: f.libs.uuidUnparse f.token))) with
    | ok fs =>
        have root : rootMade f.libs a.env.faults server.fs f.token = some fs := by
          rw [rootMade, getUserRoot, created]
        exact .ready made root arrived ends
    | error errno =>
        by_cases there : errno = .EEXIST
        · have root : rootMade f.libs a.env.faults server.fs f.token = some server.fs := by
            rw [rootMade, getUserRoot, created]
            exact if_pos there
          simp only [if_pos there]
          exact .ready made root arrived ends
        · simp only [if_neg there]
          exact .unmade made (error _)

theorem request_length : (f.request a).hdr.length = sizeofFileInfo := f.info.length_encode

/-- A request that has come whole is taken up. -/
theorem prepare_whole (record : server.uman.users[addr]? = some user) (whole : a.rx = f.info.encode ++ a.inflow.rx) :
    ∃ sched, uploadPrepare f.libs (f.request a).env server (some addr) (f.request a).hdr (f.request a).sock =
      uploadAccept f.libs a.env server addr user f.token f.info a.env.tail ⟨a.inflow.rx, sched, a.fin⟩ := by
  have arrived : (f.request a).sock.rx = f.info.encode ++ a.inflow.rx := whole
  have enough : (f.request a).hdr.length ≤ (f.request a).sock.rx.length := by
    rw [arrived, List.length_append]
    exact Nat.le_add_right _ _
  obtain ⟨sched, received⟩ := msgRecvPayload_of_le (Nat.le_of_eq request_length) enough
  have front : (f.request a).sock.rx.take (f.request a).hdr.length = f.info.encode := by
    rw [arrived]
    exact List.take_left' rfl
  have rest : (f.request a).sock.rx.drop (f.request a).hdr.length = a.inflow.rx := by
    rw [arrived]
    exact List.drop_left' rfl
  rw [front, rest] at received
  exact ⟨sched, uploadPrepare_of_received f.libs a.env record f.fits received⟩

/-- A request that is cut off is not answered. -/
theorem prepares (record : server.uman.users[addr]? = some user)
    (named : uploadName f.libs f.token f.info a.env.tail = target) (arrives : f.Arrives a) :
    Prepares f addr target server user a
      (uploadPrepare f.libs (f.request a).env server (some addr) (f.request a).hdr (f.request a).sock) := by
  rcases arrives with ⟨front, cut⟩ | whole
  · have short : (f.request a).sock.rx.length < (f.request a).hdr.length := by
      refine Nat.lt_of_le_of_ne front.length_le fun same => cut ?_
      exact front.eq_of_length same
    have within : ¬ (f.request a).hdr.length > sizeofFileInfo := by
      rw [request_length]
      exact Nat.lt_irrefl _
    obtain ⟨sched, dry⟩ := recvAll_of_lt short
    have received : msgRecvPayload (f.request a).sock (f.request a).hdr.length sizeofFileInfo =
        .dry (f.request a).sock.rx ⟨[], sched, (f.request a).sock.fin⟩ := by
      rw [msgRecvPayload, if_neg within, if_pos (Nat.zero_lt_of_lt short), dry]
    simp only [uploadPrepare, Option.bind_some, record, Option.map_some, received, RecvAll.dry]
    cases (f.request a).sock.fin with
    | opened => exact .blocked
    | closed => exact .refused fun _ => List.not_mem_nil
    | failed => exact .refused fun _ => List.not_mem_nil
  · obtain ⟨sched, prepared⟩ := prepare_whole record whole
    rw [prepared]
    exact accept_prepares named rfl rfl

theorem recorded_of_record (record : server.uman.users[addr]? = some user) :
    server.recorded addr target = user.recorded target := by
  rw [Server.recorded, record]

theorem records_of_record {bytes : List Byte} (record : server.uman.users[addr]? = some user) {count : Nat}
    (recorded : user.recorded target = count) (resumes : resumePoint user target = count)
    (stored : server.fs.bytesAt target = bytes) : Records server addr target count bytes := by
  refine ⟨(recorded_of_record record).trans recorded, fun other same => ?_, stored⟩
  cases record.symm.trans same
  exact resumes.trans recorded.symm

/-- Another answer carries no resume point. -/
theorem uploadFinish_silent {place : Option Nat} {info : FileInfo} {stats : FileRecvStats} {body : List Byte} :
    Event.sent .uploadRes body ∉ (uploadFinish server addr place info stats).2 := by
  unfold uploadFinish
  dsimp only
  split_ifs <;> simp [sendError]

/-- The resume point is in the answer, and no other number. -/
theorem uploadRes_sent {next : Server} {place : Option Nat} {info : FileInfo} {seq : Nat} {sock rest : Sock} {hdr : MessageHdr}
    (ready : uploadPrepare f.libs a.env server (some addr) hdr sock = .ready next place info seq rest) :
    uploadRes seq ∈ (handleUpload f.libs a.env server (some addr) hdr sock).events ∧
      ∀ body, Event.sent .uploadRes body ∈ (handleUpload f.libs a.env server (some addr) hdr sock).events →
        body = LittleEndian.encode 8 seq := by
  have two : ∀ body, Event.sent .uploadRes body ∈ [uploadRes seq, Event.fileRecv info.filename] →
      body = LittleEndian.encode 8 seq := by
    intro body sent
    rcases List.mem_cons.mp sent with first | second
    · exact (Event.sent.inj first).2
    · cases List.mem_singleton.mp second
  simp only [handleUpload, ready, modifySession_fs]
  cases fileRecv f.libs a.env next.fs info rest with
  | blocked fs => exact ⟨List.mem_cons_self, two⟩
  | faulted fs => exact ⟨List.mem_cons_self, two⟩
  | ret fs sock stats =>
      refine ⟨List.mem_append_left _ List.mem_cons_self, fun body sent => ?_⟩
      rcases List.mem_append.mp sent with first | reply
      · exact two body first
      · exact absurd reply uploadFinish_silent

/-- The chunks taken are there to be taken. -/
theorem took_le {call : UploadCall} {s : Nat} (from_ : a.inflow.From f.libs f.content f.info.chunkCount s)
    (first : s ≤ chunksOf f.content.length) : s + (f.took a call).getD 0 ≤ chunksOf f.content.length := by
  rw [took]
  cases perform a.env.faults .recvOpen call.info.filename (call.fs.openCreate call.info.filename) with
  | error errno => exact first
  | ok opened => exact taken_le from_.delivers first

/-- What an attempt leaves that comes to `file_recv`. -/
structure Comes (f : LocalFile) (addr : Nat) (target : CStr) (server : Server) (a : Attempt) (call : UploadCall) : Prop where
  within : server.recorded addr target % 256 + (f.took a call).getD 0 ≤ chunksOf f.content.length
  records : ∃ count, Records (f.serve server a) addr target count
    (f.content.take (max (server.recorded addr target) (server.recorded addr target % 256 + (f.took a call).getD 0) * CHUNK_SIZE)) ∧
    (TableHolds server addr target → count = (f.took a call).elim 0 (server.recorded addr target % 256 + ·)) ∧
    (¬ TableHolds server addr target → count = 0)

theorem serve_records (registered : Registered server f.token addr) (free : LinkFree server.fs)
    (inStep : f.InStep addr target server) (tries : f.Tries target server a) (interrupted : f.Interrupted addr server a)
    (sound : f.Sound addr server a) :
    uploadCall f.libs server addr (f.request a) = none ∧
        Records (f.serve server a) addr target (server.recorded addr target) (server.fs.bytesAt target) ∨
      ∃ call, uploadCall f.libs server addr (f.request a) = some call ∧ f.Comes addr target server a call := by
  obtain ⟨known, user, record⟩ := registered
  have whole := @serve_upload f.libs server (f.request a) addr upload_request known
  have served : f.serve server a = _ := congrArg Handled.server whole
  have recorded := @recorded_of_record addr target server user record
  have resumes := inStep.resumes user record
  have prepared := prepares record tries.target tries.comes
  cases early : uploadPrepare f.libs (f.request a).env server (some addr) (f.request a).hdr (f.request a).sock with
  | blocked =>
      have same : f.serve server a = server := by rw [served, handleUpload, early]
      rw [same]
      exact .inl ⟨by rw [uploadCall, early], rfl, inStep.resumes, rfl⟩
  | returned next sock events =>
      have same : f.serve server a = next := by rw [served, handleUpload, early]
      rw [early] at prepared
      rw [same]
      refine .inl ⟨by rw [uploadCall, early], ?_⟩
      cases prepared with
      | refused silent => exact ⟨rfl, inStep.resumes, rfl⟩
      | @unmade w place seq _ _ made silent =>
          obtain ⟨kept, again⟩ := uploadSession_recorded made
          have after : (server.modifyUser addr fun _ => w).uman.users[addr]? = some w := by
            rw [modifyUser_users, record, Option.map_some]
          exact records_of_record after (kept.trans recorded.symm) (again.trans (resumes.trans recorded.symm))
            (by rw [modifyUser_fs])
  | ready next place info seq sock =>
      rw [early] at prepared
      cases prepared with
      | @ready w _ _ fs _ made root arrived ends =>
          have seqs : seq = server.recorded addr target := by
            have point := uploadSession_seq user { f.info with filename := target }
            rw [made] at point
            exact point.trans (resumes.trans recorded.symm)
          have from_ := tries.chunks (LittleEndian.encode 8 seq) (whole ▸ (uploadRes_sent early).1)
          rw [cmdUploadStart_encode, seqs] at from_
          have call : uploadCall f.libs server addr (f.request a) = some ⟨fs, { f.info with filename := target }, sock⟩ := by
            rw [uploadCall, early]
          have ordinary : LinkFree fs := fun place target link => free place target (links_of_edits (rootMade_edits root) link)
          obtain ⟨fs', rest, stats, transfer, code, last, bytes⟩ := fileRecv_progress ordinary f.fits.name tries.target.symm rfl
            arrived from_ (Nat.mod_le _ _) interrupted.works (sound _ call) ((bytesAt_rootMade free root).trans inStep.stored)
            (interrupted.broken _ call)
          obtain ⟨found, -, held⟩ := uploadSession_place made
          obtain ⟨disk, users⟩ := @serve_transferred f.libs server addr (f.request a) _ _ _ _ _ rest w _ _
            upload_request known early rfl transfer
          have after : (f.serve server a).uman.users[addr]? =
              some ((w.mark place fun session => { session with state := .running }).uploaded place target stats) := by
            rw [LocalFile.serve, users, List.getElem?_modify_eq, record]
            rfl
          obtain ⟨counted, point⟩ := recorded_uploaded found code
          have holds : place.isSome = true ↔ TableHolds server addr target := by
            rw [held]
            simp [TableHolds, HasUpload, record]
          refine .inr ⟨_, call, took_le from_ (Nat.le_trans (Nat.mod_le _ _) inStep.within), _,
            records_of_record after counted point ((congrArg (Fs.bytesAt · target) disk).trans bytes), fun holds' => ?_, fun lacks => ?_⟩
          · rw [if_pos (holds.mpr holds'), last]
          · rw [if_neg (mt holds.mp lacks)]

/-! ### Every attempt -/

/-- What is known of the server from attempt to attempt. -/
structure Known (f : LocalFile) (addr : Nat) (target : CStr) (server : Server) : Prop where
  registered : Registered server f.token addr
  ordinary : Ordinary server.fs
  inStep : f.InStep addr target server

/-- Nothing is recorded where there is no session. -/
theorem recorded_of_lacking (lacks : ¬ TableHolds server addr target) : server.recorded addr target = 0 := by
  rw [Server.recorded]
  cases record : server.uman.users[addr]? with
  | none => rfl
  | some user =>
      have missing : user.upload target = none := by
        rw [← Option.not_isSome_iff_eq_none, upload_isSome]
        exact fun found => lacks (.inl ⟨user, record, found⟩)
      dsimp only
      rw [User.recorded, missing, Option.elim_none]

/-- One attempt keeps record and disk in step exactly if it regains what was recorded. -/
theorem advances_iff (known : f.Known addr target server) (tries : f.Tries target server a)
    (interrupted : f.Interrupted addr server a) (sound : f.Sound addr server a) :
    f.Advances addr target server a ↔ f.Regains addr target server a := by
  have within := known.inStep.within
  rcases serve_records known.registered known.ordinary.links known.inStep tries interrupted sound with
    ⟨nocall, records⟩ | ⟨call, called, comes⟩
  · constructor
    · refine fun _ => ⟨sound, fun call called => ?_⟩
      cases nocall.symm.trans called
    · refine fun _ => ⟨?_, Nat.le_of_eq records.recorded.symm⟩
      rw [records.recorded, records.stored, known.inStep.stored, leading_take within]
  · obtain ⟨count, records, held, lacking⟩ := comes.records
    have bound := Nat.max_le.mpr ⟨within, comes.within⟩
    have advances : f.Advances addr target server a ↔ count = max (server.recorded addr target)
        (server.recorded addr target % 256 + (f.took a call).getD 0) := by
      constructor
      · intro advances
        have leads := advances.recorded
        rwa [records.recorded, records.stored, leading_take bound] at leads
      · intro same
        refine ⟨?_, ?_⟩
        · rw [records.recorded, records.stored, leading_take bound, same]
        · rw [records.recorded, same]
          exact Nat.le_max_left _ _
    have regains : f.Regains addr target server a ↔ (server.recorded addr target = 0 ∨
        ∃ m ∈ f.took a call, server.recorded addr target ≤ server.recorded addr target % 256 + m) ∧
          (TableHolds server addr target ∨ (f.took a call).getD 0 = 0) := by
      constructor
      · exact fun all => all.2 call called
      · refine fun here => ⟨sound, fun other called' => ?_⟩
        cases called.symm.trans called'
        exact here
    have start := Nat.mod_le (server.recorded addr target) 256
    rw [advances, regains]
    by_cases holds : TableHolds server addr target
    · rw [held holds]
      cases f.took a call with
      | none =>
          simp [holds]
          omega
      | some m =>
          simp [holds]
          omega
    · rw [lacking holds, recorded_of_lacking holds]
      simp [holds, eq_comm]

/-- An attempt that regains what was recorded leaves the server as known. -/
theorem Known.serve (known : f.Known addr target server) (tries : f.Tries target server a)
    (interrupted : f.Interrupted addr server a) (regains : f.Regains addr target server a) :
    f.Known addr target (f.serve server a) := by
  have sound := regains.1
  have advances := (advances_iff known tries interrupted sound).mpr regains
  have same := @serve_users f.libs server (f.request a) (by rw [upload_request]; exact fun other => by cases other)
  refine ⟨⟨?_, ?_⟩, ordinary_serve known.ordinary, ?_⟩
  · exact (congrArg (fun map => umapGet map f.token) same.1).trans known.registered.1
  · obtain ⟨user, record⟩ := known.registered.2
    have lengths := congrArg List.length same.2
    rw [List.length_map, List.length_map] at lengths
    have inside : addr < (f.serve server a).uman.users.length :=
      lengths ▸ (List.getElem?_eq_some_iff.mp record).1
    exact ⟨_, List.getElem?_eq_getElem inside⟩
  · rcases serve_records known.registered known.ordinary.links known.inStep tries interrupted sound with
      ⟨-, records⟩ | ⟨call, -, comes⟩
    · exact ⟨records.resumes, records.recorded ▸ known.inStep.within, by
        rw [records.stored, records.recorded, known.inStep.stored]⟩
    · obtain ⟨count, records, -⟩ := comes.records
      have bound := Nat.max_le.mpr ⟨known.inStep.within, comes.within⟩
      have leads := advances.recorded
      rw [records.stored, leading_take bound] at leads
      exact ⟨records.resumes, leads ▸ bound, by rw [records.stored, leads]⟩

/-- An attempt leaves the users' directories as they are. -/
theorem rooted_serve {tokens : List Token} (rooted : Rooted f.libs server tokens) : Rooted f.libs (f.serve server a) tokens := by
  have none : (f.request a).registers = [] := by
    rw [Request.registers, upload_request]
    rfl
  have kept := rooted.serve (@orderly_upload f.libs server (f.request a) upload_request)
  rwa [none, List.append_nil] at kept

/-! ### Connections that end -/

/-- A client that starts where the record sends him is an honest one. -/
theorem tries_of_from (known : f.Known addr target server) (named : uploadName f.libs f.token f.info a.env.tail = target)
    (arrives : f.Arrives a) (from_ : a.inflow.From f.libs f.content f.info.chunkCount (server.recorded addr target % 256)) :
    f.Tries target server a := by
  refine ⟨named, arrives, fun body sent => ?_⟩
  obtain ⟨lookup, user, record⟩ := known.registered
  rw [serve_upload upload_request lookup] at sent
  have prepared := prepares record named arrives
  cases early : uploadPrepare f.libs (f.request a).env server (some addr) (f.request a).hdr (f.request a).sock with
  | blocked =>
      rw [handleUpload, early] at sent
      cases sent
  | returned next sock events =>
      rw [handleUpload, early] at sent
      rw [early] at prepared
      cases prepared with
      | refused silent => exact absurd sent (silent body)
      | unmade made silent => exact absurd sent (silent body)
  | ready next place info seq sock =>
      rw [(uploadRes_sent early).2 body sent, cmdUploadStart_encode]
      rw [early] at prepared
      cases prepared with
      | ready made root arrived ends =>
          have point := uploadSession_seq user { f.info with filename := target }
          rw [made] at point
          rw [show seq = _ from point, known.inStep.resumes user record, ← recorded_of_record record]
          exact from_

/-- The call of `file_recv`. -/
structure Called (f : LocalFile) (target : CStr) (server : Server) (a : Attempt) (call : UploadCall) : Prop where
  root : rootMade f.libs a.env.faults server.fs f.token = some call.fs
  info : call.info = { f.info with filename := target }
  arrived : call.sock.rx = a.inflow.rx
  ends : call.sock.fin = a.fin

theorem called_of_mem (record : server.uman.users[addr]? = some user) (named : uploadName f.libs f.token f.info a.env.tail = target)
    (arrives : f.Arrives a) {call : UploadCall} (called : uploadCall f.libs server addr (f.request a) = some call) :
    Called f target server a call := by
  have prepared := prepares record named arrives
  rw [uploadCall] at called
  cases early : uploadPrepare f.libs (f.request a).env server (some addr) (f.request a).hdr (f.request a).sock with
  | blocked =>
      rw [early] at called
      cases called
  | returned next sock events =>
      rw [early] at called
      cases called
  | ready next place info seq sock =>
      rw [early] at called prepared
      cases called
      cases prepared with
      | ready made root arrived ends => exact ⟨root, rfl, arrived, ends⟩

/-- A whole request that passes the quota test comes to `file_recv` if the user's directory is
there or can be made. -/
theorem exists_call (record : server.uman.users[addr]? = some user) (whole : a.rx = f.info.encode ++ a.inflow.rx)
    (quota : sizeT (user.usedSpace + f.info.size) ≤ user.totalSpace)
    (root : (rootMade f.libs a.env.faults server.fs f.token).isSome) :
    ∃ call, uploadCall f.libs server addr (f.request a) = some call := by
  obtain ⟨sched, prepared⟩ := prepare_whole record whole
  have ends := @uploadAccept_ends f.libs a.env server addr user f.token f.info a.env.tail ⟨a.inflow.rx, sched, a.fin⟩
  rw [uploadCall, prepared]
  cases accept : uploadAccept f.libs a.env server addr user f.token f.info a.env.tail ⟨a.inflow.rx, sched, a.fin⟩ with
  | ready next place info seq sock => exact ⟨_, rfl⟩
  | returned next sock events =>
      rw [accept] at ends
      exact absurd ⟨quota, root⟩ ends.2
  | blocked =>
      rw [accept] at ends
      exact ends.elim

/-- A connection that ends before the last chunk interrupts the attempt. -/
theorem interrupted_of_ended (known : f.Known addr target server) (tries : f.Tries target server a)
    (works : FileWorks a.env.recv) (sound : f.Sound addr server a) (legible : a.inflow.Legible a.env.recv)
    (ended : a.fin ≠ .opened)
    (from_ : a.inflow.From f.libs f.content f.info.chunkCount (server.recorded addr target % 256))
    (lacks : ∀ call ∈ uploadCall f.libs server addr (f.request a),
      server.recorded addr target % 256 + (f.took a call).getD 0 < f.info.chunkCount) : f.Interrupted addr server a := by
  refine ⟨fun call called => ?_, works⟩
  obtain ⟨-, user, record⟩ := known.registered
  obtain ⟨root, info, arrived, ends⟩ := called_of_mem record tries.target tries.comes called
  have missing := lacks call called
  have stored := (bytesAt_rootMade known.ordinary.links root).trans known.inStep.stored
  have free : LinkFree call.fs := fun place target link => known.ordinary.links place target (links_of_edits (rootMade_edits root) link)
  have name : call.info.filename = uploadName f.libs f.token f.info a.env.tail := by rw [info, tries.target]
  rw [took] at missing
  rw [UploadCall.received, fileRecv]
  cases opens : perform a.env.faults .recvOpen call.info.filename (call.fs.openCreate call.info.filename) with
  | error errno => exact ⟨_, rfl, show (-1 : Int) ≠ 0 by decide⟩
  | ok found =>
      obtain ⟨fs', place, old⟩ := found
      rw [opens] at missing
      have held := (@bytesAt_opened f.libs call.fs fs' f.token place old f.info a.env.tail free f.fits.name
        (name ▸ perform_ok opens)).1
      rw [tries.target, stored] at held
      obtain ⟨stats, returned, failed⟩ := breaks_of_start works f.content_lt from_ (sound call called) legible
        (Nat.mod_le _ _) arrived (ends ▸ ended) missing
      have count : call.info.chunkCount = f.info.chunkCount := by rw [info]
      dsimp only
      rw [← held, count, returned]
      exact ⟨stats, rfl, failed⟩

end LocalFile

open Lexical Transition

/-- When record and disk stay in step: for every file and every sequence of interrupted
attempts to upload it, from a state of the server in which they are, the record says after
each attempt how much is stored, and never less than before it, if each attempt that comes to
`file_recv` regains what was recorded. Where memory plays no part, it has to. -/
theorem uploadProgress_exact (f : LocalFile) {outside : List (Place × Node)} {cwd : Place} {history : List Request}
    {start : Server} (booted : start = runState f.libs (boot outside cwd) history) {addr : Nat} {target : CStr}
    (registered : Registered start f.token addr) (inStep : f.InStep addr target start) {attempts : List Attempt}
    (honest : ∀ p ∈ met f.serve start attempts, f.Tries target p.1 p.2 ∧ f.Interrupted addr p.1 p.2) :
    ((∀ p ∈ met f.serve start attempts, f.Regains addr target p.1 p.2) →
      ∀ p ∈ met f.serve start attempts, f.Advances addr target p.1 p.2) ∧
    ((∀ p ∈ met f.serve start attempts, f.Sound addr p.1 p.2) →
      (∀ p ∈ met f.serve start attempts, f.Advances addr target p.1 p.2) →
        ∀ p ∈ met f.serve start attempts, f.Regains addr target p.1 p.2) := by
  have known : f.Known addr target start := ⟨registered, booted ▸ ordinary_runState (ordinary_boot outside cwd), inStep⟩
  have step : (∀ p ∈ met f.serve start attempts, f.Sound addr p.1 p.2) →
      ((∀ p ∈ met f.serve start attempts, f.Advances addr target p.1 p.2) ↔
        ∀ p ∈ met f.serve start attempts, f.Regains addr target p.1 p.2) := by
    intro sound
    have exactly : ∀ server a, f.Known addr target server →
        (f.Tries target server a ∧ f.Interrupted addr server a) ∧ f.Sound addr server a →
          (f.Advances addr target server a ↔ f.Regains addr target server a) :=
      fun server a known given => LocalFile.advances_iff known given.1.1 given.1.2 given.2
    have kept : ∀ server a, f.Known addr target server →
        (f.Tries target server a ∧ f.Interrupted addr server a) ∧ f.Sound addr server a →
          f.Regains addr target server a → f.Known addr target (f.serve server a) :=
      fun server a known given regains => known.serve given.1.1 given.1.2 regains
    exact forall_met_iff exactly kept known fun p mem => ⟨honest p mem, sound p mem⟩
  exact ⟨fun regains => (step fun p mem => (regains p mem).1).mpr regains, fun sound => (step sound).mp⟩

/-- A file in the directory of a user is opened as it is. -/
theorem Rooted.openCreate {libs : Externals} {server : Server} {tokens : List Token} {t : Token} {name : CStr} {bytes : List Byte}
    (rooted : Rooted libs server tokens) (among : t ∈ tokens) (proper : Proper name) (short : name.length ≤ NAME_MAX)
    (there : server.fs.get? (userPlace libs t ++ [name]) = some (.file bytes)) :
    server.fs.openCreate (joined slash (userPlace libs t ++ [name])) =
      .ok (server.fs, userPlace libs t ++ [name], bytes) := by
  have root : server.fs.get? (userPlace libs t) = some .dir := by rw [rooted.roots, if_pos among]
  have plain := @plain_of_mem_userPlace libs t
  have long := libs.length_uuidUnparse t
  have walks : Walks server.fs true (172027 + 5) 40 [] (userPlace libs t ++ [name]) (userPlace libs t ++ [name]) :=
    .down rfl (by decide) (by decide) (by decide) rooted.var Node.dir_ne_link
      (.down rooted.var (by decide) (by decide) (by decide) rooted.storage Node.dir_ne_link
        (.down rooted.storage (plain (by simp [userPlace])).1 (plain (by simp [userPlace])).2 (by rw [long]; decide) root
          Node.dir_ne_link (.down root proper.notDot proper.notDots short there (Node.file_ne_link bytes) .arrived)))
  have good : ∀ n ∈ userPlace libs t ++ [name], IsName slash n := by
    intro n mem
    rcases List.mem_append.mp mem with above | last
    · exact isName_of_mem_userPlace above
    · rw [List.mem_singleton.mp last]
      exact proper.toIsName
  have fits : (joined slash (userPlace libs t ++ [name])).length < PATH_MAX := by
    rw [joined_append, joined_singleton, List.length_append, ← getUserRoot_joined, length_getUserRoot, List.length_cons]
    unfold NAME_MAX at short
    unfold PATH_MAX
    omega
  have resolved : server.fs.resolve true (joined slash (userPlace libs t ++ [name])) = .ok (userPlace libs t ++ [name]) := by
    rw [resolve_joined (List.append_ne_nil_of_right_ne_nil _ (List.cons_ne_nil _ _)) good fits]
    exact walks.walk
  simp only [Fs.openCreate, resolved, bind, Except.bind, there]

theorem someToken_ne_null : someToken ≠ Token.null := by decide

theorem sevens_fits : (cmdUploadInfo libraries (cstr "/f") (List.replicate 8193 7)).Fits :=
  ⟨by simp [cmdUploadInfo, -List.reduceReplicate], by simp [cmdUploadInfo, -List.reduceReplicate]; decide, by decide,
    by decide⟩

theorem sevens_lt : (List.replicate 8193 (7 : Byte)).length < 2 ^ 63 := by
  rw [List.length_replicate]
  decide

/-- A file of three chunks. -/
def sevens : LocalFile where
  libs := libraries
  token := someToken
  name := cstr "/f"
  content := List.replicate 8193 7
  named := someToken_ne_null
  fits := sevens_fits
  content_lt := sevens_lt

theorem sevens_length : sevens.content.length = 8193 := List.length_replicate

theorem sevens_count : sevens.info.chunkCount = 3 := by
  change chunkCount sevens.content.length = 3
  rw [sevens_length]
  decide

def sevens.target : CStr := uploadName libraries someToken sevens.info []

/-- Its upload, after which the connection ends, with the messages given. -/
def sevens.breaking (whole : List (Stamp × Chunk)) : Attempt :=
  let inflow : Inflow := ⟨whole, (default, chunkAt libraries sevens.content 1), 0⟩
  ⟨(0, 0), sevens.info.encode ++ inflow.rx, [], .closed, default, inflow⟩

def sevens.first : Attempt := sevens.breaking [(default, chunkAt libraries sevens.content 0)]

def sevens.second : Attempt := sevens.breaking []

def sevens.resumed : Attempt := sevens.breaking [(default, chunkAt libraries sevens.content 1)]

theorem breaking_works {whole : List (Stamp × Chunk)} : FileWorks (sevens.breaking whole).env.recv :=
  ⟨fun _ => rfl, fun _ => rfl⟩

theorem breaking_sound {addr : Nat} {server : Server} {whole : List (Stamp × Chunk)} :
    sevens.Sound addr server (sevens.breaking whole) :=
  fun _ _ _ passes => absurd rfl (bytes_ne_zero passes.1)

theorem breaking_legible {whole : List (Stamp × Chunk)} :
    (sevens.breaking whole).inflow.Legible (sevens.breaking whole).env.recv :=
  fun _ enough => absurd rfl (bytes_ne_zero enough)

theorem sevens_known : sevens.Known 0 sevens.target tokenKnown := by
  refine ⟨⟨tokenKnown_lookup, _, tokenKnown_record⟩, ?_, ?_⟩
  · rw [tokenKnown]
    exact ordinary_runState (ordinary_boot _ _)
  · have nothing : tokenKnown.recorded 0 sevens.target = 0 := LocalFile.recorded_of_record tokenKnown_record
    refine ⟨fun user record => ?_, ?_, ?_⟩
    · cases tokenKnown_record.symm.trans record
      rfl
    · rw [nothing]
      exact Nat.zero_le _
    · rw [nothing, Nat.zero_mul, List.take_zero]
      decide

theorem breaking_arrives {whole : List (Stamp × Chunk)} : sevens.Arrives (sevens.breaking whole) := .inr rfl

theorem breaking_short {whole : List (Stamp × Chunk)} : (sevens.breaking whole).inflow.bytes <
    (chunkWire (sevens.breaking whole).inflow.cut.1 (sevens.breaking whole).inflow.cut.2).length := by
  rw [chunkWire, length_msgWire, sizeofMessageHdr]
  exact Nat.lt_of_lt_of_le (Nat.succ_pos 47) (Nat.le_add_right _ _)

/-- The first chunk comes. -/
theorem first_from : sevens.first.inflow.From sevens.libs sevens.content sevens.info.chunkCount 0 := by
  refine ⟨.intact ?_ ?_ .stop, breaking_short⟩
  · rw [sevens_count]
    decide
  · rw [sevens_length]
    decide

/-- And then the second one. -/
theorem resumed_from : sevens.resumed.inflow.From sevens.libs sevens.content sevens.info.chunkCount 1 := by
  refine ⟨.intact ?_ ?_ .stop, breaking_short⟩
  · rw [sevens_count]
    decide
  · rw [sevens_length]
    decide

theorem second_from : sevens.second.inflow.From sevens.libs sevens.content sevens.info.chunkCount 1 :=
  ⟨.stop, breaking_short⟩

theorem breaking_passes {whole : List (Stamp × Chunk)} {junk : Junk} :
    ¬ (sevens.breaking whole).inflow.Passes libraries junk :=
  fun passes => absurd rfl (bytes_ne_zero passes.1)

theorem second_taken (fuel : Nat) :
    sevens.second.inflow.taken libraries sevens.second.env.recv sevens.second.inflow.whole fuel = none :=
  if_neg breaking_passes

/-- A chunk that comes is taken. -/
theorem breaking_taken (i fuel : Nat) :
    (sevens.breaking [(default, chunkAt libraries sevens.content i)]).inflow.taken libraries
      (sevens.breaking [(default, chunkAt libraries sevens.content i)]).env.recv
      [(default, chunkAt libraries sevens.content i)] (fuel + 3) = some 1 := by
  have intact : libraries.checksum (chunkAt libraries sevens.content i).data = (chunkAt libraries sevens.content i).hdr.checksum :=
    chunkAt_checksum
  have nothing : (sevens.breaking [(default, chunkAt libraries sevens.content i)]).inflow.taken libraries
      (sevens.breaking [(default, chunkAt libraries sevens.content i)]).env.recv [] fuel = none := if_neg breaking_passes
  have first := @taken_cons libraries (sevens.breaking [(default, chunkAt libraries sevens.content i)]).env.recv fuel
    (sevens.breaking [(default, chunkAt libraries sevens.content i)]).inflow (default, chunkAt libraries sevens.content i) []
  rw [if_pos intact, nothing] at first
  exact first

theorem tokenKnown_rooted : Rooted libraries tokenKnown [someToken] := by
  have orderly : Orderly libraries (boot [] []) (request .authReq someToken [] []) :=
    ⟨fun _ _ => rfl, fun _ => rfl, fun other => absurd other (by decide)⟩
  have registers : (request .authReq someToken [] []).registers = [someToken] := by decide
  have state : tokenKnown = ((request .authReq someToken [] []).serve libraries (boot [] [])).server := by
    rw [tokenKnown]
    simp [runState]
  have rooted := (rooted_boot libraries [] []).serve orderly
  rwa [registers, List.nil_append, ← state] at rooted

theorem sevens_rooted : Rooted sevens.libs tokenKnown [someToken] := tokenKnown_rooted

/-- An attempt comes to `file_recv`. -/
theorem breaking_call {server : Server} {user : User} (rooted : Rooted sevens.libs server [someToken])
    (record : server.uman.users[0]? = some user) (whole : List (Stamp × Chunk)) :
    ∃ call, uploadCall sevens.libs server 0 (sevens.request (sevens.breaking whole)) = some call := by
  have root := rooted.rootMade List.mem_cons_self (show (sevens.breaking whole).env.faults .mkdir _ = none from rfl)
  have account := rooted.account record
  have used : user.usedSpace = 0 := congrArg User.usedSpace account
  have total : user.totalSpace = MAX_USER_SPACE := congrArg User.totalSpace account
  have quota : sizeT (user.usedSpace + sevens.info.size) ≤ user.totalSpace := by
    have size : sevens.info.size = 8193 := sevens_length
    rw [used, total, size]
    decide
  exact @LocalFile.exists_call sevens 0 _ user (sevens.breaking whole) record rfl quota (Option.isSome_iff_exists.mpr ⟨_, root⟩)

/-- If its target can be opened, the chunk that comes is taken. -/
theorem breaking_took {server : Server} {user : User} {target : Fs × Place × List Byte} (i : Nat) {call : UploadCall}
    (rooted : Rooted sevens.libs server [someToken]) (record : server.uman.users[0]? = some user)
    (opened : server.fs.openCreate sevens.target = .ok target)
    (called : uploadCall sevens.libs server 0
      (sevens.request (sevens.breaking [(default, chunkAt libraries sevens.content i)])) = some call) :
    sevens.took (sevens.breaking [(default, chunkAt libraries sevens.content i)]) call = some 1 := by
  have root := rooted.rootMade List.mem_cons_self
    (show (sevens.breaking [(default, chunkAt libraries sevens.content i)]).env.faults .mkdir _ = none from rfl)
  have facts := @LocalFile.called_of_mem sevens 0 sevens.target _ user _ record rfl breaking_arrives call called
  have tree : call.fs = server.fs := Option.some.inj (facts.root.symm.trans root)
  have name : call.info.filename = sevens.target := by rw [facts.info]
  have opens : perform (sevens.breaking [(default, chunkAt libraries sevens.content i)]).env.faults .recvOpen
      call.info.filename (call.fs.openCreate call.info.filename) = .ok target := by
    rw [tree, name, opened]
    rfl
  rw [LocalFile.took, opens]
  exact breaking_taken i (4 * call.sock.rx.length)

theorem tokenKnown_opens : ∃ target, tokenKnown.fs.openCreate sevens.target = .ok target := by
  have opens : (tokenKnown.fs.openCreate sevens.target).isOk = true := by decide
  cases opened : tokenKnown.fs.openCreate sevens.target with
  | error errno =>
      rw [opened] at opens
      cases opens
  | ok target => exact ⟨target, rfl⟩

/-- One chunk of the first attempt is taken. -/
theorem first_call : ∃ call, uploadCall libraries tokenKnown 0 (sevens.request sevens.first) = some call ∧
    sevens.took sevens.first call = some 1 := by
  obtain ⟨call, called⟩ := breaking_call sevens_rooted tokenKnown_record [(default, chunkAt libraries sevens.content 0)]
  obtain ⟨target, opened⟩ := tokenKnown_opens
  exact ⟨call, called, breaking_took 0 sevens_rooted tokenKnown_record opened called⟩

theorem tokenKnown_recorded : tokenKnown.recorded 0 sevens.target = 0 := LocalFile.recorded_of_record tokenKnown_record

theorem first_tries : sevens.Tries sevens.target tokenKnown sevens.first := by
  refine LocalFile.tries_of_from sevens_known rfl breaking_arrives ?_
  rw [tokenKnown_recorded]
  exact first_from

theorem first_interrupted : sevens.Interrupted 0 tokenKnown sevens.first := by
  refine LocalFile.interrupted_of_ended sevens_known first_tries breaking_works breaking_sound breaking_legible (by decide) ?_ fun call called => ?_
  · rw [tokenKnown_recorded]
    exact first_from
  · obtain ⟨other, called', taken⟩ := first_call
    obtain rfl : call = other := Option.some.inj (called.symm.trans called')
    rw [taken, tokenKnown_recorded, sevens_count]
    decide

theorem tokenKnown_holds : TableHolds tokenKnown 0 sevens.target := .inr ⟨_, tokenKnown_record, by decide⟩

theorem first_regains : sevens.Regains 0 sevens.target tokenKnown sevens.first :=
  ⟨breaking_sound, fun _ _ => ⟨.inl tokenKnown_recorded, .inl tokenKnown_holds⟩⟩

theorem sevens_booted : tokenKnown = runState sevens.libs (boot [] []) [request .authReq someToken [] []] := by
  have libs : sevens.libs = libraries := rfl
  rw [tokenKnown, libs]

/-- After the first attempt one chunk is recorded. -/
theorem first_recorded : (sevens.serve tokenKnown sevens.first).recorded 0 sevens.target = 1 := by
  obtain ⟨call, called, taken⟩ := first_call
  rcases LocalFile.serve_records sevens_known.registered sevens_known.ordinary.links sevens_known.inStep first_tries
    first_interrupted breaking_sound with ⟨nocall, -⟩ | ⟨other, called', comes⟩
  · cases nocall.symm.trans called
  · obtain rfl : call = other := Option.some.inj (called.symm.trans called')
    obtain ⟨count, records, held, -⟩ := comes.records
    rw [records.recorded, held tokenKnown_holds, taken, tokenKnown_recorded]
    rfl

theorem second_known : sevens.Known 0 sevens.target (sevens.serve tokenKnown sevens.first) :=
  sevens_known.serve first_tries first_interrupted first_regains

theorem second_rooted : Rooted sevens.libs (sevens.serve tokenKnown sevens.first) [someToken] := LocalFile.rooted_serve sevens_rooted

/-- What the first attempt has stored is opened again. -/
theorem second_opens : ∃ target, (sevens.serve tokenKnown sevens.first).fs.openCreate sevens.target = .ok target := by
  have names : components sevens.target = userPlace libraries someToken ++ [cstr "f"] := by decide
  have spelled : sevens.target = joined slash (userPlace libraries someToken ++ [cstr "f"]) := by decide
  have stored := second_known.inStep.stored
  rw [first_recorded, Fs.bytesAt, names] at stored
  split at stored
  · rename_i bytes there
    rw [spelled]
    exact ⟨_, second_rooted.openCreate List.mem_cons_self ⟨⟨by decide, by decide⟩, by decide, by decide⟩ (by decide) there⟩
  · have lengths := congrArg List.length stored
    rw [List.length_take, sevens_length] at lengths
    simp [CHUNK_SIZE] at lengths

/-- One chunk is taken from an attempt that goes on. -/
theorem resumed_took {call : UploadCall}
    (called : uploadCall sevens.libs (sevens.serve tokenKnown sevens.first) 0 (sevens.request sevens.resumed) = some call) :
    sevens.took sevens.resumed call = some 1 := by
  obtain ⟨-, user, record⟩ := second_known.registered
  obtain ⟨target, opened⟩ := second_opens
  exact breaking_took 1 second_rooted record opened called

theorem second_took (call : UploadCall) : sevens.took sevens.second call = none := by
  rw [LocalFile.took]
  cases perform sevens.second.env.faults .recvOpen call.info.filename (call.fs.openCreate call.info.filename) with
  | error errno => rfl
  | ok target => exact second_taken _

theorem second_tries : sevens.Tries sevens.target (sevens.serve tokenKnown sevens.first) sevens.second := by
  refine LocalFile.tries_of_from second_known rfl breaking_arrives ?_
  rw [first_recorded]
  exact second_from

theorem second_interrupted : sevens.Interrupted 0 (sevens.serve tokenKnown sevens.first) sevens.second := by
  refine LocalFile.interrupted_of_ended second_known second_tries breaking_works breaking_sound breaking_legible (by decide) ?_ fun call _ => ?_
  · rw [first_recorded]
    exact second_from
  · rw [second_took, first_recorded, sevens_count]
    decide

theorem resumed_tries : sevens.Tries sevens.target (sevens.serve tokenKnown sevens.first) sevens.resumed := by
  refine LocalFile.tries_of_from second_known rfl breaking_arrives ?_
  rw [first_recorded]
  exact resumed_from

theorem resumed_interrupted : sevens.Interrupted 0 (sevens.serve tokenKnown sevens.first) sevens.resumed := by
  refine LocalFile.interrupted_of_ended second_known resumed_tries breaking_works breaking_sound breaking_legible (by decide) ?_
    fun call called => ?_
  · rw [first_recorded]
    exact resumed_from
  · rw [resumed_took called, first_recorded, sevens_count]
    decide

theorem resumed_regains : sevens.Regains 0 sevens.target (sevens.serve tokenKnown sevens.first) sevens.resumed := by
  refine ⟨breaking_sound, fun call called => ⟨.inr ⟨1, resumed_took called, ?_⟩, .inl ?_⟩⟩
  · rw [first_recorded]
    decide
  · refine Classical.byContradiction fun lacks => ?_
    cases first_recorded.symm.trans (LocalFile.recorded_of_lacking lacks)

/-- The first attempt is followed by another one that is interrupted. -/
theorem first_followed {a : Attempt} (tries : sevens.Tries sevens.target (sevens.serve tokenKnown sevens.first) a)
    (interrupted : sevens.Interrupted 0 (sevens.serve tokenKnown sevens.first) a) :
    ∀ p ∈ met sevens.serve tokenKnown [sevens.first, a],
      sevens.Tries sevens.target p.1 p.2 ∧ sevens.Interrupted 0 p.1 p.2 := by
  refine (forall_met_cons fun server a => sevens.Tries sevens.target server a ∧ sevens.Interrupted 0 server a).mpr
    ⟨⟨first_tries, first_interrupted⟩, ?_⟩
  exact (forall_met_cons fun server a => sevens.Tries sevens.target server a ∧ sevens.Interrupted 0 server a).mpr
    ⟨⟨tries, interrupted⟩, forall_met_nil⟩

/-- Two attempts, the second one resuming: each is recorded as it is stored. -/
theorem uploadProgress_resumed : sevens.Advances 0 sevens.target tokenKnown sevens.first ∧
    sevens.Advances 0 sevens.target (sevens.serve tokenKnown sevens.first) sevens.resumed := by
  have advances := (uploadProgress_exact sevens sevens_booted sevens_known.registered sevens_known.inStep
    (first_followed resumed_tries resumed_interrupted)).1
      ((forall_met_cons (sevens.Regains 0 sevens.target)).mpr
        ⟨first_regains, (forall_met_cons (sevens.Regains 0 sevens.target)).mpr ⟨resumed_regains, forall_met_nil⟩⟩)
  obtain ⟨first, later⟩ := (forall_met_cons (sevens.Advances 0 sevens.target)).mp advances
  exact ⟨first, ((forall_met_cons (sevens.Advances 0 sevens.target)).mp later).1⟩

/-- An interruption before the first chunk loses the record. -/
theorem not_advances_second : ¬ sevens.Advances 0 sevens.target (sevens.serve tokenKnown sevens.first) sevens.second := by
  intro advances
  obtain ⟨-, user, record⟩ := second_known.registered
  obtain ⟨call, called⟩ := breaking_call second_rooted record []
  obtain ⟨-, regains⟩ := (LocalFile.advances_iff second_known second_tries second_interrupted breaking_sound).mp advances
  rcases (regains call called).1 with nothing | ⟨m, took, -⟩
  · cases first_recorded.symm.trans nothing
  · cases (second_took call).symm.trans took

/-- Two attempts, both interrupted; the second one sets back what is recorded. -/
theorem uploadProgress_lost :
    (∀ p ∈ met sevens.serve tokenKnown [sevens.first, sevens.second],
      sevens.Tries sevens.target p.1 p.2 ∧ sevens.Interrupted 0 p.1 p.2) ∧
    ¬ ∀ p ∈ met sevens.serve tokenKnown [sevens.first, sevens.second], sevens.Advances 0 sevens.target p.1 p.2 := by
  constructor
  · exact first_followed second_tries second_interrupted
  · intro advances
    obtain ⟨-, later⟩ := (forall_met_cons (sevens.Advances 0 sevens.target)).mp advances
    exact not_advances_second ((forall_met_cons (sevens.Advances 0 sevens.target)).mp later).1

end MiniDropbox
