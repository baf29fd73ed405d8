/-
The server: its state, the request handlers and the dispatch of a message
(`server.c`).

A handler returns the new state of the server, what is left on the socket, what it
has done (`Event`s) and how it leaves the connection (`Status`). The environment of
a request, `Env`, says which system calls fail, what lies in memory behind a
received payload, and how the calls of a transfer go. Failures to send a reply are
reported by the sources and otherwise ignored.
-/

import MiniDropbox.Storage
import MiniDropbox.User

namespace MiniDropbox

/-! ### State and environment -/

structure Server where
  fs : Fs
  uman : UserManager

/-- What surrounds the handling of one request. `tail` is the memory behind a received
payload, `fresh` the `next` field of a fresh map entry, `stale` the `chunk_count` of
the uninitialised `FileInfo` in `file_send`. -/
structure Env where
  faults : Faults
  tail : List Byte
  fresh : Option Nat
  stale : Nat
  recv : Nat → RecvSys
  send : Nat → SendSys

instance : Inhabited RecvSys := ⟨default, false, .ok, 0, default⟩

instance : Inhabited SendSys := ⟨some (CHUNK_SIZE - 1), .ok, default⟩

/-- Nothing fails, and the memory behind a payload is clear. -/
instance : Inhabited Env := ⟨fun _ _ => none, [], none, 0, fun _ => default, fun _ => default⟩

/-- What a handler does that can be seen from outside: the messages it sends, and the
paths it hands to `file_send` and `file_recv`, with the start chunk and with the
error code the call returned. -/
inductive Event where
  | sent (type : MessageType) (body : List Byte)
  | fileSend (path : CStr) (startChunk : Nat)
  | fileRecv (path : CStr)
  deriving DecidableEq

/-- The connection after a message has been handled: still in the epoll set, closed,
waited for without end, or gone with the process, by a failed assertion or a
memory fault. -/
inductive Status where
  | kept | closed | blocked | aborted | faulted
  deriving DecidableEq, Repr

structure Handled where
  server : Server
  sock : Sock
  events : List Event
  status : Status

def strerror : Errno → CStr
  | .EEXIST => cstr "File exists"
  | .ENOENT => cstr "No such file or directory"
  | .ENOTDIR => cstr "Not a directory"
  | .EISDIR => cstr "Is a directory"
  | .ENOTEMPTY => cstr "Directory not empty"
  | .ENAMETOOLONG => cstr "File name too long"
  | .ELOOP => cstr "Too many levels of symbolic links"
  | .EACCES => cstr "Permission denied"
  | .ENOSPC => cstr "No space left on device"
  | .EROFS => cstr "Read-only file system"
  | .EBUSY => cstr "Device or resource busy"
  | .EINVAL => cstr "Invalid argument"

/-- Mirrors `send_error`. -/
def sendError (text : CStr) : Event := .sent .error (text ++ [0])

/-- `strrchr(s, '/')` -/
def strrchr (s : CStr) : Option CStr :=
  if slash ∈ s then some (slash :: (s.reverse.takeWhile (· ≠ slash)).reverse) else none

/-- What `printf` makes of a string argument. -/
def printed (s : Option CStr) : CStr := s.getD (cstr "(null)")

/-- A user record changed in place. -/
def Server.modifyUser (server : Server) (addr : Nat) (f : User → User) : Server :=
  { server with uman := { server.uman with users := server.uman.users.modify addr f } }

/-- A session changed through the handler's pointer; `none` is one that found no place
in the table. -/
def Server.modifySession (server : Server) (addr : Nat) (place : Option Nat)
    (f : Session → Session) : Server :=
  match place with
  | none => server
  | some i => server.modifyUser addr fun user => { user with sessions := user.sessions.modify i f }

def FileInfo.zero : FileInfo := ⟨0, 0, ⟨List.replicate 32 0, length_zeroed⟩, []⟩

/-! ### One-shot requests

The handlers of `REMOVE_REQ` and `MKDIR_REQ` take what their
`msg_recv_payload(sockfd, msg, 8192)` call left, `none` when it returned an error. -/

variable (libs : Externals) (env : Env)

/-- Mirrors `handle_auth`. `none` is a registration that loses itself in the map. -/
def handleAuth (server : Server) (hdr : MessageHdr) : Option (Server × List Event) := do
  let userDir := snprintf PATH_MAX (STORAGE_DIR ++ slash :: libs.uuidUnparse hdr.token)
  let (fs, reply) := match perform env.faults .mkdir userDir (server.fs.mkdir userDir) with
    | .error errno =>
        (server.fs, Event.sent .authFail
          ((if errno = .EEXIST then cstr "Already registered" else strerror errno) ++ [0]))
    | .ok fs => (fs, .sent .authOk (cstr "Registered" ++ [0, 0]))
  let uman ← umanRegisterUser env.fresh server.uman hdr.token
  some (⟨fs, uman⟩, [reply])

/-- Mirrors `handle_remove`. -/
def handleRemove (server : Server) (user : Option Nat) (hdr : MessageHdr)
    (payload : Option (List Byte)) : Server × List Event :=
  match user, payload with
  | none, _ => (server, [sendError (cstr "user not found")])
  | some _, none => (server, [])
  | some _, some payload =>
      match getUserPath libs (cString (payload ++ env.tail)) hdr.token with
      | none => (server, [sendError (cstr "invalid path")])
      | some filepath =>
          let (ret, info) := fileinfoFromFilename env.faults libs .infoLstat .infoOpen server.fs
            filepath FileInfo.zero
          if ret < 0 ∧ ret ≠ -2 then
            (server, [sendError (cstr "failed to get fileinfo from filename\n")])
          else
            let info := if ret = -2 then { info with filename := filepath } else info
            match rmR env.faults server.fs.depth server.fs filepath with
            | (fs, .error errno) => ({ server with fs := fs }, [sendError (strerror errno)])
            | (fs, .ok _) => ({ server with fs := fs }, [.sent .removeRes info.encode])

/-- Mirrors `handle_mkdir`. -/
def handleMkdir (server : Server) (user : Option Nat) (hdr : MessageHdr)
    (payload : Option (List Byte)) : Server × List Event :=
  match user, payload with
  | none, _ => (server, [sendError (cstr "user not found")])
  | some _, none => (server, [])
  | some _, some payload =>
      match createDirectoriesFromPath env.faults server.fs (getUserRoot libs hdr.token)
        (cString (payload ++ env.tail)) with
      | (fs, ret, errno) =>
          ({ server with fs := fs },
            if ret = 0 then [.sent .mkdirRes []]
            else if ret = -3 then [sendError (strerror (errno.getD .EACCES))]
            else [sendError (cstr "invalid path")])

/-- How much payload the handler of a one-shot request asks for, if it does at all. -/
def payloadLimit (type : MessageType) (user : Option Nat) : Option Nat :=
  match type, user with
  | .removeReq, some _ => some 8192
  | .mkdirReq, some _ => some 8192
  | _, _ => none

/-- Mirrors `on_oneshot_req`, with the outcome of the handler's receive call. -/
def onOneshotReq (server : Server) (user : Option Nat) (hdr : MessageHdr) (type : MessageType)
    (payload : Option (List Byte)) : Option (Server × List Event) :=
  match type with
  | .authReq => handleAuth libs env server hdr
  | .removeReq => some (handleRemove libs env server user hdr payload)
  | .mkdirReq => some (handleMkdir libs env server user hdr payload)
  | _ => some (server, [])

/-! ### Transfers -/

/-- Mirrors `file_recv`: the tree and the socket afterwards, and the statistics
returned. -/
inductive FileRecv where
  | ret (fs : Fs) (sock : Sock) (stats : FileRecvStats)
  | blocked (fs : Fs)
  | faulted (fs : Fs)

def fileRecv (fs : Fs) (info : FileInfo) (sock : Sock) : FileRecv :=
  match perform env.faults .recvOpen info.filename (fs.openCreate info.filename) with
  | .error _ => .ret fs sock ⟨0, -1⟩
  | .ok (fs, place, bytes) =>
      let final := (recvLoop libs info.chunkCount env.recv sock.fuel (recvStart bytes sock)).1
      let fs := fs.set place (.file final.file)
      match final.pc with
      | .ret stats => .ret fs final.sock stats
      | .fault => .faulted fs
      | _ => .blocked fs

/-- Mirrors `file_send`: the statistics returned and the socket afterwards, `none` when
it waits for an answer that does not come. A `FileInfo` that was not filled in keeps
the `chunk_count` of the memory it lies in, and a directory cannot be read. -/
def fileSend (fs : Fs) (filename : CStr) (startChunk : Nat) (sock : Sock) :
    Option (FileSendStats × Sock) :=
  let (res, info) := fileinfoFromFilename env.faults libs .sendLstat .sendInfoOpen fs filename
    { FileInfo.zero with chunkCount := env.stale }
  if res = -1 then some (⟨0, -1⟩, sock)
  else
    match perform env.faults .sendOpen filename (fs.openRead filename) with
    | .error _ => some (⟨0, -1⟩, sock)
    | .ok node =>
        let content := match node with
          | .file bytes => bytes
          | _ => []
        let sys := match node with
          | .file _ => env.send
          | _ => fun k => { env.send k with read := none }
        let final := (sendLoop libs content info.chunkCount sys sock.fuel (sendStart startChunk sock)).1
        match final.pc with
        | .ret stats => some (stats, final.sock)
        | _ => none

/-! ### Uploads -/

/-- The stretch of `handle_upload` before `file_recv`: an early return, a wait for the
payload, or a session, the request's `FileInfo` and the resume point. -/
inductive UploadPrepared where
  | returned (server : Server) (sock : Sock) (events : List Event)
  | blocked
  | ready (server : Server) (place : Option Nat) (info : FileInfo) (seq : Nat) (sock : Sock)

/-- The path an upload is stored at: the last component of the client's name, put
behind the user's directory and into the name field of the `FileInfo`. -/
def uploadName (token : Token) (info : FileInfo) (behind : List Byte) : CStr :=
  let rootDir := snprintf PATH_MAX (STORAGE_DIR ++ slash :: libs.uuidUnparse token)
  let filename := snprintf (PATH_MAX * 2) (rootDir ++ printed (strrchr info.filename))
  if filename.length < PATH_MAX then filename else cString (filename.take PATH_MAX ++ behind)

/-- The session of an upload: the one found, with its resume point if the transfer was
interrupted, or a new one. -/
def uploadSession (user : User) (info : FileInfo) : User × Option Nat × Nat :=
  match userGetSession user .upload info.filename with
  | some i =>
      match user.sessions[i]? with
      | some session =>
          (user, some i, if session.state = .interrupted then session.lastTransferedChunk else 0)
      | none => (user, some i, 0)
  | none =>
      match userAddSession user (sessionInit info .upload) with
      | (user, ret) => (user, if ret = 0 then some (user.sessions.length - 1) else none, 0)

/-- The part of `handle_upload` that works on the received `FileInfo`; `behind` is the
memory behind it. -/
def uploadAccept (server : Server) (addr : Nat) (user : User) (token : Token) (info : FileInfo)
    (behind : List Byte) (sock : Sock) : UploadPrepared :=
  if sizeT (user.usedSpace + info.size) > user.totalSpace then
    .returned server sock [sendError (cstr "user storage space is not sufficient")]
  else
    let info := { info with filename := uploadName libs token info behind }
    let (user, place, seq) := uploadSession user info
    let server := server.modifyUser addr fun _ => user
    let rootDir := snprintf PATH_MAX (STORAGE_DIR ++ slash :: libs.uuidUnparse token)
    match perform env.faults .mkdir rootDir (server.fs.mkdir rootDir) with
    | .ok fs => .ready { server with fs := fs } place info seq sock
    | .error errno =>
        if errno = .EEXIST then .ready server place info seq sock
        else .returned server sock [sendError (cstr "failed to create user directory")]

def uploadPrepare (server : Server) (user : Option Nat) (hdr : MessageHdr) (sock : Sock) :
    UploadPrepared :=
  match user.bind fun addr => server.uman.users[addr]?.map fun user => (addr, user) with
  | none => .returned server sock [sendError (cstr "user not found")]
  | some (addr, user) =>
      match msgRecvPayload sock hdr.length sizeofFileInfo with
      | .blocked => .blocked
      | .fail _ _ sock => .returned server sock []
      | .ok payload sock =>
          let memory := payload ++ env.tail
          uploadAccept libs env server addr user hdr.token (FileInfo.decode memory)
            (memory.drop sizeofFileInfo) sock

/-- A `FileInfo` sent as it is reaches the handler as it is. -/
theorem uploadPrepare_of_received {server : Server} {addr : Nat} {user : User} {hdr : MessageHdr}
    {sock rest : Sock} {info : FileInfo} (record : server.uman.users[addr]? = some user)
    (fits : info.Fits) (received : msgRecvPayload sock hdr.length sizeofFileInfo = .ok info.encode rest) :
    uploadPrepare libs env server (some addr) hdr sock =
      uploadAccept libs env server addr user hdr.token info env.tail rest := by
  have behind : (info.encode ++ env.tail).drop sizeofFileInfo = env.tail :=
    List.drop_left' info.length_encode
  simp only [uploadPrepare, Option.bind_some, record, Option.map_some, received,
    FileInfo.decode_encode fits, behind]

/-- The reply that carries the resume point. -/
def uploadRes (seq : Nat) : Event := .sent .uploadRes (LittleEndian.encode 8 seq)

/-- The stretch of `handle_upload` after `file_recv`. -/
def uploadFinish (server : Server) (addr : Nat) (place : Option Nat) (info : FileInfo)
    (stats : FileRecvStats) : Server × List Event :=
  let server := if stats.errorCode < 0 then
      server.modifySession addr place fun session => { session with
        state := .interrupted, lastTransferedChunk := stats.lastChunkRecvd }
    else server
  if stats.errorCode = -1 then (server, [sendError (cstr "could not recv file")])
  else if stats.errorCode = -2 then (server, [])
  else (server.modifyUser addr fun user => (userRemoveSession user .upload info.filename).1,
    [.sent .uploadFin (cstr "file successfully uploaded" ++ [0])])

/-- Mirrors `handle_upload` and the disconnection that follows it. -/
def handleUpload (server : Server) (user : Option Nat) (hdr : MessageHdr) (sock : Sock) : Handled :=
  match uploadPrepare libs env server user hdr sock with
  | .returned server sock events => ⟨server, sock, events, .closed⟩
  | .blocked => ⟨server, sock, [], .blocked⟩
  | .ready server place info seq sock =>
      let addr := user.getD 0
      let server := server.modifySession addr place fun session => { session with state := .running }
      let events := [uploadRes seq, .fileRecv info.filename]
      match fileRecv libs env server.fs info sock with
      | .blocked fs => ⟨{ server with fs := fs }, sock, events, .blocked⟩
      | .faulted fs => ⟨{ server with fs := fs }, sock, events, .faulted⟩
      | .ret fs sock stats =>
          let (server, replies) := uploadFinish { server with fs := fs } addr place info stats
          ⟨server, sock, events ++ replies, .closed⟩

/-! ### Downloads -/

/-- The stretch of `handle_download` before the transfer, as for an upload. The
`FileInfo` is the reply; `path` is the resolved path, and the start chunk comes from
the client's own claim. -/
inductive DownloadPrepared where
  | returned (server : Server) (sock : Sock) (events : List Event)
  | blocked
  | ready (server : Server) (place : Option Nat) (path : CStr) (info : FileInfo) (startChunk : Nat)
      (sock : Sock)

/-- The session of a download. A new one points to the request's `FileInfo`, which is
filled in afterwards. -/
def downloadSession (user : User) (filename : CStr) (info filled : FileInfo) : User × Option Nat :=
  match userGetSession user .download filename with
  | some i => (user, some i)
  | none =>
      match userAddSession user (sessionInit info .download) with
      | (user, ret) =>
          if ret = 0 then
            ({ user with sessions := user.sessions.modify (user.sessions.length - 1) fun session =>
              { session with fileInfo := filled } }, some (user.sessions.length - 1))
          else (user, none)

/-- The part of `handle_download` that works on the received `FileInfo`. -/
def downloadAccept (server : Server) (addr : Nat) (user : User) (token : Token) (info : FileInfo)
    (sock : Sock) : DownloadPrepared :=
  match getUserPath libs info.filename token with
  | none => .returned server sock [sendError (cstr "failed to get user path")]
  | some filename =>
      let found := fileExists env.faults server.fs filename
      if found = -1 then
        .returned server sock [sendError (cstr "error while checking if file exists")]
      else if found = 0 then .returned server sock [sendError (cstr "file doesn't exist")]
      else
        let startChunk := if info.size > 0 then viaInt info.chunkCount else 0
        let (_, filled) := fileinfoFromFilename env.faults libs .infoLstat .infoOpen
          server.fs filename info
        let (user, place) := downloadSession user filename info filled
        .ready (server.modifyUser addr fun _ => user) place filename filled startChunk sock

def downloadPrepare (server : Server) (user : Option Nat) (hdr : MessageHdr) (sock : Sock) :
    DownloadPrepared :=
  match user.bind fun addr => server.uman.users[addr]?.map fun user => (addr, user) with
  | none => .returned server sock [sendError (cstr "user not found")]
  | some (addr, user) =>
      match msgRecvPayload sock hdr.length sizeofFileInfo with
      | .blocked => .blocked
      | .fail _ _ sock => .returned server sock []
      | .ok payload sock =>
          downloadAccept libs env server addr user hdr.token (FileInfo.decode (payload ++ env.tail))
            sock

/-- The stretch of `handle_download` after `file_send`. -/
def downloadFinish (server : Server) (addr : Nat) (place : Option Nat) (filename : CStr)
    (stats : FileSendStats) : Server × List Event :=
  if stats.errorCode < 0 then
    (server.modifySession addr place fun session => { session with
        state := .interrupted, lastTransferedChunk := stats.lastChunkSent },
      [sendError (cstr "transfer interrupted, try again to resume download\n")])
  else (server.modifyUser addr fun user => (userRemoveSession user .download filename).1, [])

/-- Mirrors `handle_download` and the disconnection that follows it. The path handed to
`file_send` is the name in the `FileInfo`. -/
def handleDownload (server : Server) (user : Option Nat) (hdr : MessageHdr) (sock : Sock) : Handled :=
  match downloadPrepare libs env server user hdr sock with
  | .returned server sock events => ⟨server, sock, events, .closed⟩
  | .blocked => ⟨server, sock, [], .blocked⟩
  | .ready server place filename info startChunk sock =>
      let addr := user.getD 0
      let events := [.sent .downloadRes info.encode, .fileSend info.filename startChunk]
      match fileSend libs env server.fs info.filename startChunk sock with
      | none => ⟨server, sock, events, .blocked⟩
      | some (stats, sock) =>
          let (server, replies) := downloadFinish server addr place filename stats
          ⟨server, sock, events ++ replies, .closed⟩

/-! ### Listings -/

/-- One entry of a listing: the size and checksum of a regular file, and the name. -/
def listEntry (fs : Fs) (path : CStr) (place : Place) (name : CStr) : Event :=
  let info := match fs.get? (place ++ [name]) with
    | some (.file _) => (fileinfoFromFilename env.faults libs .infoLstat .infoOpen fs
        (snprintf PATH_MAX (path ++ slash :: name)) FileInfo.zero).2
    | _ => FileInfo.zero
  .sent .fileinfo { info with filename := name }.encode

/-- Mirrors `handle_list` and the disconnection that follows it. -/
def handleList (server : Server) (user : Option Nat) (hdr : MessageHdr) (sock : Sock) : Handled :=
  match user with
  | none => ⟨server, sock, [sendError (cstr "user not found")], .closed⟩
  | some _ =>
      match msgRecvPayload sock hdr.length PATH_MAX with
      | .blocked => ⟨server, sock, [], .blocked⟩
      | .fail _ _ sock => ⟨server, sock, [], .closed⟩
      | .ok payload sock =>
          match getUserPath libs (cString (payload ++ env.tail)) hdr.token with
          | none => ⟨server, sock, [], .closed⟩
          | some path =>
              match perform env.faults .listOpendir path (server.fs.opendir path) with
              | .error errno => ⟨server, sock, [sendError (strerror errno)], .closed⟩
              | .ok names =>
                  let place := (server.fs.resolve true path).toOption.getD []
                  ⟨server, sock, names.map (listEntry libs env server.fs path place) ++ [.sent .none []],
                    .closed⟩

/-! ### Dispatch -/

/-- A receive on a client's non-blocking socket fails where a blocking one would wait. -/
def Sock.nonblocking (sock : Sock) : Sock :=
  { sock with fin := if sock.fin = .opened then .failed else sock.fin }

/-- What the dispatcher does with a message before it looks the user up: an unknown type
fails the assertion of `msg_type_to_str`, and only `AUTH_REQ` may come with a null
token. -/
inductive Dispatch where
  | abort
  | refuse
  | accept (type : MessageType)
  deriving DecidableEq

def dispatch (hdr : MessageHdr) : Dispatch :=
  match MessageType.ofNat? hdr.type with
  | none => .abort
  | some type => if type ≠ .authReq ∧ hdr.token = Token.null then .refuse else .accept type

/-- The arms of the `switch` over the message type. -/
inductive Kind where
  | oneshot | stream | ignored
  deriving DecidableEq

def MessageType.kind : MessageType → Kind
  | .authReq | .removeReq | .mkdirReq => .oneshot
  | .uploadReq | .downloadReq | .listReq => .stream
  | _ => .ignored

/-- Mirrors `on_stream_req`. -/
def onStreamReq (server : Server) (user : Option Nat) (hdr : MessageHdr) (type : MessageType)
    (sock : Sock) : Handled :=
  match type with
  | .uploadReq => handleUpload libs env server user hdr sock
  | .downloadReq => handleDownload libs env server user hdr sock
  | .listReq => handleList libs env server user hdr sock
  | _ => ⟨server, sock, [], .closed⟩

/-- Receive the payload a one-shot handler asks for, on a non-blocking socket: what its
call of `msg_recv_payload` leaves, and the socket afterwards. -/
def recvOneshot (sock : Sock) (length : Nat) (limit : Option Nat) : Option (List Byte) × Sock :=
  match limit with
  | none => (none, sock)
  | some maxlen =>
      match msgRecvPayload sock.nonblocking length maxlen with
      | .ok data rest => (some data, { rest with fin := sock.fin })
      | .fail _ _ rest => (none, { rest with fin := sock.fin })
      | .blocked => (none, sock)

/-- Mirrors `on_client_message_received`, for a header that has been received, and what
the event loop does about its return value. A stream request takes the socket out of
the epoll set for good. -/
def onClientMessageReceived (server : Server) (hdr : MessageHdr) (sock : Sock) : Handled :=
  match dispatch hdr with
  | .abort => ⟨server, sock, [], .aborted⟩
  | .refuse => ⟨server, sock, [.sent .authFail []], .closed⟩
  | .accept type =>
      match umanGetUser server.uman hdr.token with
      | none => ⟨server, sock, [], .faulted⟩
      | some user =>
          match type.kind with
          | .ignored => ⟨server, sock, [], .kept⟩
          | .stream => onStreamReq libs env server user hdr type sock
          | .oneshot =>
              let (payload, rest) := recvOneshot sock hdr.length (payloadLimit type user)
              match onOneshotReq libs env server user hdr type payload with
              | none => ⟨server, rest, [], .faulted⟩
              | some (server, events) => ⟨server, rest, events, .kept⟩

/-- What the event loop does about a client socket that is readable: receive a header,
and hand it on. With a header only partly there the loop goes on to the next event. -/
def onReadable (server : Server) (sock : Sock) : Handled :=
  match msgRecvHeader sock.nonblocking with
  | .ok hdr rest => onClientMessageReceived libs env server hdr { rest with fin := sock.fin }
  | .fail ret rest =>
      ⟨server, { rest with fin := sock.fin }, [],
        if ret = -1 ∧ sock.fin = .opened then .kept else .closed⟩
  | .blocked => ⟨server, sock, [], .kept⟩

/-! ### Runs -/

/-- One message as the server meets it: the header received, the socket behind it, and
the environment in which it is handled. -/
structure Request where
  hdr : MessageHdr
  sock : Sock
  env : Env

def Request.serve (libs : Externals) (server : Server) (r : Request) : Handled :=
  onClientMessageReceived libs r.env server r.hdr r.sock

/-- An upload of a registered user is served by its handler. -/
theorem serve_upload {libs : Externals} {server : Server} {r : Request} {addr : Nat}
    (upload : dispatch r.hdr = .accept .uploadReq)
    (registered : umanGetUser server.uman r.hdr.token = some (some addr)) :
    r.serve libs server = handleUpload libs r.env server (some addr) r.hdr r.sock := by
  simp [Request.serve, onClientMessageReceived, upload, registered, MessageType.kind, onStreamReq]

/-- The server goes on after a message that neither ends nor stops the process. -/
def Status.goesOn : Status → Bool
  | .kept | .closed => true
  | .blocked | .aborted | .faulted => false

/-- The messages of a run, each with the state in which the server meets it; a message
after which the server does not go on is the last. -/
def run (libs : Externals) (server : Server) : List Request → List (Server × Request)
  | [] => []
  | r :: rs =>
      let handled := r.serve libs server
      (server, r) :: if handled.status.goesOn then run libs handled.server rs else []

theorem mem_of_mem_run {libs : Externals} {server : Server} {rs : List Request} {p : Server × Request}
    (met : p ∈ run libs server rs) : p.2 ∈ rs := by
  induction rs generalizing server with
  | nil => cases met
  | cons r rs ih =>
      rcases List.mem_cons.mp met with rfl | later
      · exact List.mem_cons_self
      · split at later
        · exact List.mem_cons_of_mem _ (ih later)
        · cases later

/-- The state after a run, as far as the server goes on. -/
def runState (libs : Externals) (server : Server) : List Request → Server
  | [] => server
  | r :: rs =>
      let handled := r.serve libs server
      if handled.status.goesOn then runState libs handled.server rs else handled.server

/-- Something holds in every state of a run, the last one included. -/
def Always (libs : Externals) (Q : Server → Prop) (server : Server) (rs : List Request) : Prop :=
  (∀ p ∈ run libs server rs, Q p.1) ∧ Q (runState libs server rs)

theorem Always.first {libs : Externals} {Q : Server → Prop} {server : Server} {rs : List Request}
    (always : Always libs Q server rs) : Q server := by
  cases rs with
  | nil => exact always.2
  | cons r rs => exact always.1 _ List.mem_cons_self

/-- After its first message, a run is one from the state the message leads to. -/
theorem always_cons {libs : Externals} {Q : Server → Prop} {server : Server} {r : Request}
    {rs : List Request} : Always libs Q server (r :: rs) ↔
      Q server ∧ Always libs Q (r.serve libs server).server
        (if (r.serve libs server).status.goesOn then rs else []) := by
  unfold Always
  rw [run, runState]
  split_ifs
  · simp only [List.forall_mem_cons, and_assoc]
  · simp [run, runState]

/-- The place of the storage directory. -/
def storagePlace : Place := [cstr "var", cstr "minibox"]

/-- The server on an empty storage directory, with whatever else the machine holds, in
some working directory. -/
def boot (outside : List (Place × Node)) (cwd : Place) : Server where
  fs := ⟨(storagePlace, .dir) :: ([cstr "var"], .dir) ::
    outside.filter fun entry => ¬ storagePlace <+: entry.1, cwd⟩
  uman := umanEmpty

/-- A message as it comes first on a connection, with what the peer sends behind it. -/
def request (type : MessageType) (token : Token) (payload behind : List Byte) : Request :=
  ⟨⟨payload.length, type.toNat, token, (0, 0)⟩, ⟨payload ++ behind, [], .opened⟩, default⟩

/-- Its payload is received as it is. -/
theorem request_received {type : MessageType} {token : Token} {payload behind : List Byte}
    {maxlen : Nat} (within : payload.length ≤ maxlen) :
    msgRecvPayload (request type token payload behind).sock (request type token payload behind).hdr.length
      maxlen = .ok payload ⟨behind, [], .opened⟩ :=
  msgRecvPayload_append within

/-- Some token. -/
def someToken : Token := ⟨List.replicate 16 1, rfl⟩

/-- A server with that token registered. -/
def tokenKnown : Server := runState libraries (boot [] []) [request .authReq someToken [] []]

theorem tokenKnown_lookup : umanGetUser tokenKnown.uman someToken = some (some 0) := by
  decide

theorem tokenKnown_record : tokenKnown.uman.users[0]? = some (userInit someToken) := by
  decide

/-- What follows the registration is served by that server. -/
theorem runState_known (rs : List Request) :
    runState libraries (boot [] []) (request .authReq someToken [] [] :: rs) =
      runState libraries tokenKnown rs := by
  have answered : ((request .authReq someToken [] []).serve libraries (boot [] [])).status.goesOn = true := by
    decide
  simp [tokenKnown, runState, answered]

/-- An upload whose peer sends `behind` after the request, and then keeps the connection
open or not. -/
def uploading (info : FileInfo) (behind : List Byte) (fin : SockEnd) : Request :=
  ⟨⟨info.encode.length, MessageType.uploadReq.toNat, someToken, (0, 0)⟩,
    ⟨info.encode ++ behind, [], fin⟩, default⟩

/-- It is served by `handle_upload`, which receives its `FileInfo` as it is. -/
theorem serve_uploading {server : Server} {addr : Nat} {user : User} {info : FileInfo}
    {behind : List Byte} {fin : SockEnd} (fits : info.Fits)
    (registered : umanGetUser server.uman someToken = some (some addr))
    (record : server.uman.users[addr]? = some user) :
    (uploading info behind fin).serve libraries server =
        handleUpload libraries default server (some addr) (uploading info behind fin).hdr
          (uploading info behind fin).sock ∧
      uploadPrepare libraries default server (some addr) (uploading info behind fin).hdr
          (uploading info behind fin).sock =
        uploadAccept libraries default server addr user someToken info [] ⟨behind, [], fin⟩ := by
  have upload : dispatch (uploading info behind fin).hdr = .accept .uploadReq := by
    simp [uploading, dispatch]
    decide
  refine ⟨serve_upload upload registered, uploadPrepare_of_received _ _ record fits ?_⟩
  exact msgRecvPayload_append (Nat.le_of_eq info.length_encode)

end MiniDropbox
