/-
Handlers in two servers that are the same to a user.

A handler that is called for a user reads and writes only his files and his record, so from
servers with the same of both (`Together`) it gives the same answers and leaves servers with
the same of both again. A download is one of these only where it names a regular file, and a
removal only where the paths of `rm_r` fit its buffers. The records of the other users stay as
they are (`Elsewhere`).
-/

import MiniDropbox.Isolation
import MiniDropbox.Registry
import MiniDropbox.Views

namespace MiniDropbox

/-! ### Servers that are the same to a user -/

/-- Two servers with the same files of a user, and with the same record of his. -/
structure Together (libs : Externals) (t : Token) (addr addr' : Nat) (server server' : Server) : Prop where
  fs : SameTo libs t server.fs server'.fs
  record : server.uman.users[addr]? = server'.uman.users[addr']?

/-- Two outcomes that are the same to a user. -/
structure Handled.Alike (libs : Externals) (t : Token) (addr addr' : Nat) (handled handled' : Handled) : Prop where
  server : Together libs t addr addr' handled.server handled'.server
  sock : handled.sock = handled'.sock
  events : handled.events = handled'.events
  status : handled.status = handled'.status

section Handlers

variable {libs : Externals} {env : Env} {t : Token} {addr addr' : Nat} {server server' : Server} {hdr : MessageHdr}
  {payload : Option (List Byte)} {sock : Sock}

namespace Together

variable (together : Together libs t addr addr' server server')

include together

theorem withFs {fs fs' : Fs} (same : SameTo libs t fs fs') :
    Together libs t addr addr' { server with fs := fs } { server' with fs := fs' } := ⟨same, together.record⟩

theorem modifyUser (f : User → User) :
    Together libs t addr addr' (server.modifyUser addr f) (server'.modifyUser addr' f) where
  fs := together.fs
  record := by
    rw [Server.modifyUser, Server.modifyUser, List.getElem?_modify_eq, List.getElem?_modify_eq, together.record]

theorem modifySession (place : Option Nat) (f : Session → Session) :
    Together libs t addr addr' (server.modifySession addr place f) (server'.modifySession addr' place f) := by
  cases place with
  | none => exact together
  | some i => exact together.modifyUser _

end Together

/-! ### One-shot requests -/

theorem below_root (libs : Externals) (t : Token) : Below (getUserRoot libs t) [libs.uuidUnparse t ++ []] := by
  rw [List.append_nil]
  exact (getUserRoot_route libs t).toBelow

theorem handleAuth_alike (same : SameTo libs t server.fs server'.fs) (mine : hdr.token = t) {next next' : Server}
    {events events' : List Event} (handled : handleAuth libs env server hdr = some (next, events))
    (handled' : handleAuth libs env server' hdr = some (next', events')) :
    SameTo libs t next.fs next'.fs ∧ events = events' := by
  rw [← mine] at same ⊢
  have call := (same.mkdir (below_root libs hdr.token)).perform env.faults .mkdir (getUserRoot libs hdr.token)
  unfold handleAuth at handled handled'
  rw [← getUserRoot] at handled handled'
  dsimp only at handled handled'
  generalize perform env.faults .mkdir (getUserRoot libs hdr.token) (server.fs.mkdir (getUserRoot libs hdr.token)) = made
    at call handled
  generalize perform env.faults .mkdir (getUserRoot libs hdr.token) (server'.fs.mkdir (getUserRoot libs hdr.token)) = made'
    at call handled'
  cases registered : umanRegisterUser env.fresh server.uman hdr.token with
  | none =>
      rw [registered] at handled
      cases call <;> cases handled
  | some uman =>
      cases registered' : umanRegisterUser env.fresh server'.uman hdr.token with
      | none =>
          rw [registered'] at handled'
          cases call <;> cases handled'
      | some uman' =>
          rw [registered] at handled
          rw [registered'] at handled'
          cases call with
          | failed errno =>
              cases handled
              cases handled'
              exact ⟨same, rfl⟩
          | done related =>
              cases handled
              cases handled'
              exact ⟨related, rfl⟩

theorem handleRemove_alike (together : Together libs t addr addr' server server') (mine : hdr.token = t)
    (fits : ∀ bytes path, payload = some bytes → getUserPath libs (cString (bytes ++ env.tail)) hdr.token = some path →
      Fits server.fs path (components path)) :
    Together libs t addr addr' (handleRemove libs env server (some addr) hdr payload).1
        (handleRemove libs env server' (some addr') hdr payload).1 ∧
      (handleRemove libs env server (some addr) hdr payload).2 =
        (handleRemove libs env server' (some addr') hdr payload).2 := by
  cases payload with
  | none => exact ⟨together, rfl⟩
  | some bytes =>
      have fits := fits bytes
      rw [handleRemove, handleRemove]
      cases found : getUserPath libs (cString (bytes ++ env.tail)) hdr.token with
      | none => exact ⟨together, rfl⟩
      | some path =>
          have fits := fits path rfl found
          rw [mine] at found
          obtain ⟨x, more, route⟩ := getUserPath_route found
          rw [route.names] at fits
          obtain ⟨trees, results⟩ := @SameTo.rmR_depth _ _ _ _ _ _ _ together.fs env.faults route fits
          dsimp only
          rw [together.fs.fileinfoFromFilename route.toBelow.homeward]
          split_ifs
          · exact ⟨together, rfl⟩
          all_goals
            generalize rmR env.faults server.fs.depth server.fs path = left at trees results ⊢
            generalize rmR env.faults server'.fs.depth server'.fs path = left' at trees results ⊢
            obtain ⟨tree, result⟩ := left
            obtain ⟨tree', result'⟩ := left'
            cases results
            cases result with
            | ok done => exact ⟨together.withFs trees, rfl⟩
            | error errno => exact ⟨together.withFs trees, rfl⟩

theorem handleMkdir_alike (together : Together libs t addr addr' server server') (mine : hdr.token = t) :
    Together libs t addr addr' (handleMkdir libs env server (some addr) hdr payload).1
        (handleMkdir libs env server' (some addr') hdr payload).1 ∧
      (handleMkdir libs env server (some addr) hdr payload).2 =
        (handleMkdir libs env server' (some addr') hdr payload).2 := by
  cases payload with
  | none => exact ⟨together, rfl⟩
  | some bytes =>
      obtain ⟨trees, results⟩ := @SameTo.createDirectoriesFromPath libs t _ _ together.fs env.faults
        (cString (bytes ++ env.tail)) (zero_not_mem_cString _)
      rw [handleMkdir, handleMkdir, mine]
      generalize createDirectoriesFromPath env.faults server.fs (getUserRoot libs t) _ = made at trees results ⊢
      generalize createDirectoriesFromPath env.faults server'.fs (getUserRoot libs t) _ = made' at trees results ⊢
      obtain ⟨tree, result⟩ := made
      obtain ⟨tree', result'⟩ := made'
      cases results
      exact ⟨together.withFs trees, rfl⟩

/-! ### Uploads -/

/-- An upload opens the same file, if any. -/
theorem SameTo.openCreate {fs fs' : Fs} {info : FileInfo} {behind : List Byte} (same : SameTo libs t fs fs')
    (clean : 0 ∉ info.filename) {tree : Fs} {place : Place} {old : List Byte}
    (opened : fs.openCreate (uploadName libs t info behind) = .ok (tree, place, old)) :
    ∃ tree', fs'.openCreate (uploadName libs t info behind) = .ok (tree', place, old) ∧ SameTo libs t tree tree' ∧
      ∀ bytes, Touches libs t place (some (.file bytes)) := by
  obtain ⟨inside, beside⟩ := uploadName_below same.housed.links clean opened
  obtain ⟨x, more, below⟩ : ∃ x more, Below (uploadName libs t info behind) ((libs.uuidUnparse t ++ x) :: more) := by
    by_cases has : slash ∈ info.filename
    · obtain ⟨last, -, below⟩ := inside has
      refine ⟨[], [last], ?_⟩
      rw [List.append_nil]
      exact below
    · exact ⟨cstr "(null)", [], beside has⟩
  obtain ⟨resolved, content⟩ := openCreate_place opened
  have here := below.place same.housed.links resolved
  have touches : ∀ bytes, Touches libs t place (some (.file bytes)) := by
    intro bytes
    refine ⟨⟨x, by rw [here]; exact ⟨more, by simp⟩⟩, ?_⟩
    rintro left file
    cases file
    refine ⟨nofun, fun _ name among => below.proper name ?_⟩
    rwa [here, List.drop_left] at among
  have found := same.get? (touches []).ours
  have resolved' := resolved
  rw [same.resolve below.homeward] at resolved'
  rcases content with ⟨missing, rfl, rfl⟩ | ⟨there, rfl⟩
  · rw [missing] at found
    refine ⟨fs'.set place (.file []), ?_, same.set (touches []), touches⟩
    simp only [Fs.openCreate, resolved', bind, Except.bind, ← found]
  · rw [there] at found
    refine ⟨fs', ?_, same, touches⟩
    simp only [Fs.openCreate, resolved', bind, Except.bind, ← found]

/-- Two outcomes of `file_recv` that are the same to a user. -/
inductive FileRecv.Alike (libs : Externals) (t : Token) : FileRecv → FileRecv → Prop
  | ret {fs fs' : Fs} (same : SameTo libs t fs fs') (sock : Sock) (stats : FileRecvStats) :
      FileRecv.Alike libs t (.ret fs sock stats) (.ret fs' sock stats)
  | blocked {fs fs' : Fs} (same : SameTo libs t fs fs') : FileRecv.Alike libs t (.blocked fs) (.blocked fs')
  | faulted {fs fs' : Fs} (same : SameTo libs t fs fs') : FileRecv.Alike libs t (.faulted fs) (.faulted fs')

theorem fileRecv_alike {fs fs' : Fs} {info received : FileInfo} {behind : List Byte} (same : SameTo libs t fs fs')
    (named : info.filename = uploadName libs t received behind) (clean : 0 ∉ received.filename) :
    FileRecv.Alike libs t (fileRecv libs env fs info sock) (fileRecv libs env fs' info sock) := by
  rw [fileRecv, fileRecv, named]
  cases imposed : env.faults .recvOpen (uploadName libs t received behind) with
  | some errno =>
      simp only [perform, imposed]
      exact .ret same _ _
  | none =>
      simp only [perform, imposed]
      cases opened : fs.openCreate (uploadName libs t received behind) with
      | error errno =>
          cases opened' : fs'.openCreate (uploadName libs t received behind) with
          | error errno' => exact .ret same _ _
          | ok target =>
              obtain ⟨tree, reopened, -⟩ := same.symm.openCreate clean opened'
              cases opened.symm.trans reopened
      | ok target =>
          obtain ⟨tree, place, old⟩ := target
          obtain ⟨tree', opened', trees, touches⟩ := same.openCreate clean opened
          rw [opened']
          dsimp only
          generalize (recvLoop libs info.chunkCount env.recv sock.fuel (recvStart old sock)).1 = final
          have written := trees.set (touches final.file)
          cases final.pc with
          | ret stats => exact .ret written _ _
          | fault => exact .faulted written
          | top | again | ok | write => exact .blocked written

/-- Two outcomes of the stretch before `file_recv`. The path of the file is made from what the
user has sent. -/
inductive UploadPrepared.Alike (libs : Externals) (t : Token) (addr addr' : Nat) : UploadPrepared → UploadPrepared → Prop
  | returned {next next' : Server} (together : Together libs t addr addr' next next') (sock : Sock) (events : List Event) :
      UploadPrepared.Alike libs t addr addr' (.returned next sock events) (.returned next' sock events)
  | blocked : UploadPrepared.Alike libs t addr addr' .blocked .blocked
  | ready {next next' : Server} (together : Together libs t addr addr' next next') (place : Option Nat) {info : FileInfo}
      (seq : Nat) (sock : Sock) {received : FileInfo} {behind : List Byte}
      (named : info.filename = uploadName libs t received behind) (clean : 0 ∉ received.filename) :
      UploadPrepared.Alike libs t addr addr' (.ready next place info seq sock) (.ready next' place info seq sock)

theorem uploadAccept_alike (together : Together libs t addr addr' server server') {user : User} {info : FileInfo}
    {behind : List Byte} (clean : 0 ∉ info.filename) :
    UploadPrepared.Alike libs t addr addr' (uploadAccept libs env server addr user t info behind sock)
      (uploadAccept libs env server' addr' user t info behind sock) := by
  rw [uploadAccept, uploadAccept]
  by_cases full : sizeT (user.usedSpace + info.size) > user.totalSpace
  · rw [if_pos full, if_pos full]
    exact .returned together _ _
  rw [if_neg full, if_neg full]
  dsimp only
  generalize made : uploadSession user { info with filename := uploadName libs t info behind } = obtained
  obtain ⟨kept, place, seq⟩ := obtained
  have marked := together.modifyUser fun _ => kept
  rw [← getUserRoot]
  have call := (marked.fs.mkdir (below_root libs t)).perform env.faults .mkdir (getUserRoot libs t)
  dsimp only
  generalize perform env.faults .mkdir (getUserRoot libs t) _ = root at call ⊢
  generalize perform env.faults .mkdir (getUserRoot libs t) _ = root' at call ⊢
  cases call with
  | done related => exact .ready (marked.withFs related) _ _ _ rfl clean
  | failed errno =>
      dsimp only
      by_cases exists_ : errno = .EEXIST
      · rw [if_pos exists_, if_pos exists_]
        exact .ready marked _ _ _ rfl clean
      · rw [if_neg exists_, if_neg exists_]
        exact .returned marked _ _

theorem uploadPrepare_alike (together : Together libs t addr addr' server server') (mine : hdr.token = t) :
    UploadPrepared.Alike libs t addr addr' (uploadPrepare libs env server (some addr) hdr sock)
      (uploadPrepare libs env server' (some addr') hdr sock) := by
  rw [uploadPrepare, uploadPrepare, Option.bind_some, Option.bind_some, ← together.record, mine]
  cases server.uman.users[addr]? with
  | none => exact .returned together _ _
  | some user =>
      rw [Option.map_some, Option.map_some]
      dsimp only
      cases msgRecvPayload sock hdr.length sizeofFileInfo with
      | blocked => exact .blocked
      | fail => exact .returned together _ _
      | ok => exact uploadAccept_alike together (zero_not_mem_cString _)

theorem uploadFinish_alike (together : Together libs t addr addr' server server') {place : Option Nat} {info : FileInfo}
    {stats : FileRecvStats} :
    Together libs t addr addr' (uploadFinish server addr place info stats).1 (uploadFinish server' addr' place info stats).1 ∧
      (uploadFinish server addr place info stats).2 = (uploadFinish server' addr' place info stats).2 := by
  have noted : ∀ interrupt : Session → Session, Together libs t addr addr'
      (if stats.errorCode < 0 then server.modifySession addr place interrupt else server)
      (if stats.errorCode < 0 then server'.modifySession addr' place interrupt else server') := by
    intro interrupt
    split_ifs
    · exact together.modifySession _ _
    · exact together
  rw [uploadFinish, uploadFinish]
  by_cases unreceived : stats.errorCode = -1
  · rw [if_pos unreceived, if_pos unreceived]
    exact ⟨noted _, rfl⟩
  rw [if_neg unreceived, if_neg unreceived]
  by_cases unsent : stats.errorCode = -2
  · rw [if_pos unsent, if_pos unsent]
    exact ⟨noted _, rfl⟩
  · rw [if_neg unsent, if_neg unsent]
    exact ⟨(noted _).modifyUser _, rfl⟩

theorem handleUpload_alike (together : Together libs t addr addr' server server') (mine : hdr.token = t) :
    Handled.Alike libs t addr addr' (handleUpload libs env server (some addr) hdr sock)
      (handleUpload libs env server' (some addr') hdr sock) := by
  have early := @uploadPrepare_alike libs env t addr addr' server server' hdr sock together mine
  rw [handleUpload, handleUpload]
  generalize uploadPrepare libs env server (some addr) hdr sock = prepared at early ⊢
  generalize uploadPrepare libs env server' (some addr') hdr sock = prepared' at early ⊢
  cases early with
  | returned related rest events => exact ⟨related, rfl, rfl, rfl⟩
  | blocked => exact ⟨together, rfl, rfl, rfl⟩
  | @ready next next' related place info seq rest received behind named clean =>
      have running := related.modifySession place fun session => { session with state := .running }
      have transfer := @fileRecv_alike libs env t rest _ _ info received behind running.fs named clean
      rw [Option.getD_some, Option.getD_some]
      dsimp only
      generalize fileRecv libs env (next.modifySession addr place _).fs info rest = left at transfer ⊢
      generalize fileRecv libs env (next'.modifySession addr' place _).fs info rest = left' at transfer ⊢
      cases transfer with
      | ret same rest stats =>
          have finished := @uploadFinish_alike libs t addr addr' _ _ (running.withFs same) place info stats
          exact ⟨finished.1, rfl, congrArg ([uploadRes seq, .fileRecv info.filename] ++ ·) finished.2, rfl⟩
      | blocked same => exact ⟨running.withFs same, rfl, rfl, rfl⟩
      | faulted same => exact ⟨running.withFs same, rfl, rfl, rfl⟩

/-! ### Downloads -/

/-- Two outcomes of the stretch before `file_send`. The path of the file is the user's. -/
inductive DownloadPrepared.Alike (libs : Externals) (t : Token) (addr addr' : Nat) :
    DownloadPrepared → DownloadPrepared → Prop
  | returned {next next' : Server} (together : Together libs t addr addr' next next') (sock : Sock) (events : List Event) :
      DownloadPrepared.Alike libs t addr addr' (.returned next sock events) (.returned next' sock events)
  | blocked : DownloadPrepared.Alike libs t addr addr' .blocked .blocked
  | ready {next next' : Server} (together : Together libs t addr addr' next next') (place : Option Nat) (path : CStr)
      {info : FileInfo} (startChunk : Nat) (sock : Sock) (homeward : Homeward libs t info.filename) :
      DownloadPrepared.Alike libs t addr addr' (.ready next place path info startChunk sock)
        (.ready next' place path info startChunk sock)

/-- A download that is let through to the transfer names a regular file. -/
def NamesFile (libs : Externals) (server : Server) (r : Request) : Prop :=
  ∀ info path, Requested libs server r info path → Regular r server.fs path

variable {r : Request}

theorem downloadAccept_alike (together : Together libs t addr addr' server server') {user : User} {info : FileInfo}
    (regular : ∀ path, getUserPath libs info.filename t = some path → fileExists r.env.faults server.fs path = 1 →
      Regular r server.fs path) :
    DownloadPrepared.Alike libs t addr addr' (downloadAccept libs r.env server addr user t info sock)
      (downloadAccept libs r.env server' addr' user t info sock) := by
  rw [downloadAccept, downloadAccept]
  cases found : getUserPath libs info.filename t with
  | none => exact .returned together _ _
  | some path =>
      obtain ⟨x, more, route⟩ := getUserPath_route found
      have homeward := route.toBelow.homeward
      dsimp only
      rw [← together.fs.fileExists homeward, ← together.fs.fileinfoFromFilename homeward]
      rcases @fileExists_cases r.env.faults server.fs path with one | zero | failed
      · have filled := (@filled_filename libs r server.fs info path).mpr (.inl (regular path found one))
        rw [one]
        exact .ready (together.modifyUser _) _ _ _ _ (filled.symm ▸ homeward)
      · rw [zero]
        exact .returned together _ _
      · rw [failed]
        exact .returned together _ _

theorem downloadPrepare_alike (together : Together libs t addr addr' server server') (mine : r.hdr.token = t)
    (named : NamesFile libs server r) :
    DownloadPrepared.Alike libs t addr addr' (downloadPrepare libs r.env server (some addr) r.hdr r.sock)
      (downloadPrepare libs r.env server' (some addr') r.hdr r.sock) := by
  rw [downloadPrepare, downloadPrepare, Option.bind_some, Option.bind_some, ← together.record, mine]
  cases server.uman.users[addr]? with
  | none => exact .returned together _ _
  | some user =>
      rw [Option.map_some, Option.map_some]
      dsimp only
      cases received : msgRecvPayload r.sock r.hdr.length sizeofFileInfo with
      | blocked => exact .blocked
      | fail => exact .returned together _ _
      | ok payload rest =>
          have asked : downloadInfo r = some (FileInfo.decode (payload ++ r.env.tail)) := by rw [downloadInfo, received]
          exact downloadAccept_alike together fun path found opens => named _ path ⟨asked, mine ▸ found, opens⟩

theorem SameTo.fileSend {fs fs' : Fs} {path : CStr} {startChunk : Nat} (same : SameTo libs t fs fs') (homeward : Homeward libs t path) :
    fileSend libs env fs path startChunk sock = MiniDropbox.fileSend libs env fs' path startChunk sock := by
  rw [MiniDropbox.fileSend, MiniDropbox.fileSend, same.fileinfoFromFilename homeward, same.openRead homeward]

theorem downloadFinish_alike (together : Together libs t addr addr' server server') {place : Option Nat} {path : CStr}
    {stats : FileSendStats} :
    Together libs t addr addr' (downloadFinish server addr place path stats).1 (downloadFinish server' addr' place path stats).1 ∧
      (downloadFinish server addr place path stats).2 = (downloadFinish server' addr' place path stats).2 := by
  rw [downloadFinish, downloadFinish]
  by_cases failed : stats.errorCode < 0
  · rw [if_pos failed, if_pos failed]
    exact ⟨together.modifySession _ _, rfl⟩
  · rw [if_neg failed, if_neg failed]
    exact ⟨together.modifyUser _, rfl⟩

theorem handleDownload_alike (together : Together libs t addr addr' server server') (mine : r.hdr.token = t)
    (named : NamesFile libs server r) :
    Handled.Alike libs t addr addr' (handleDownload libs r.env server (some addr) r.hdr r.sock)
      (handleDownload libs r.env server' (some addr') r.hdr r.sock) := by
  have early := downloadPrepare_alike together mine named
  rw [handleDownload, handleDownload]
  generalize downloadPrepare libs r.env server (some addr) r.hdr r.sock = prepared at early ⊢
  generalize downloadPrepare libs r.env server' (some addr') r.hdr r.sock = prepared' at early ⊢
  cases early with
  | returned related rest events => exact ⟨related, rfl, rfl, rfl⟩
  | blocked => exact ⟨together, rfl, rfl, rfl⟩
  | @ready next next' related place path info startChunk rest homeward =>
      rw [Option.getD_some, Option.getD_some]
      dsimp only
      rw [related.fs.fileSend homeward]
      cases fileSend libs r.env next'.fs info.filename startChunk rest with
      | none => exact ⟨related, rfl, rfl, rfl⟩
      | some sent =>
          obtain ⟨stats, left⟩ := sent
          have finished := @downloadFinish_alike libs t addr addr' _ _ related place path stats
          exact ⟨finished.1, rfl, congrArg ([.sent .downloadRes info.encode, .fileSend info.filename startChunk] ++ ·) finished.2, rfl⟩

/-! ### Listings -/

theorem handleList_alike (together : Together libs t addr addr' server server') (mine : hdr.token = t) :
    Handled.Alike libs t addr addr' (handleList libs env server (some addr) hdr sock)
      (handleList libs env server' (some addr') hdr sock) := by
  rw [handleList, handleList, mine]
  dsimp only
  cases msgRecvPayload sock hdr.length PATH_MAX with
  | blocked => exact ⟨together, rfl, rfl, rfl⟩
  | fail => exact ⟨together, rfl, rfl, rfl⟩
  | ok payload rest =>
      dsimp only
      cases found : getUserPath libs (cString (payload ++ env.tail)) t with
      | none => exact ⟨together, rfl, rfl, rfl⟩
      | some path =>
          obtain ⟨x, more, route⟩ := getUserPath_route found
          dsimp only
          rw [← together.fs.opendir route.toBelow]
          cases opens : perform env.faults .listOpendir path (server.fs.opendir path) with
          | error errno => exact ⟨together, rfl, rfl, rfl⟩
          | ok names =>
              obtain ⟨place, resolved, -, rfl⟩ := opendir_directory (perform_ok opens)
              have here := route.place together.fs.housed.links resolved
              have entries : ∀ name ∈ server.fs.names place, listEntry libs env server.fs path place name =
                  listEntry libs env server'.fs path place name := by
                intro name among
                have proper := together.fs.housed.names place (by rw [here]; exact List.prefix_append _ _) name among
                have ours : Ours libs t (place ++ [name]) := by
                  rw [here]
                  exact ours_stack.append _
                have homeward : Homeward libs t (snprintf PATH_MAX (path ++ slash :: name)) := by
                  rcases route.entry (resolve_fits resolved).2 proper with ⟨behind, on⟩ | cut
                  · exact on.toBelow.homeward
                  · exact cut.homeward
                rw [listEntry, listEntry, together.fs.get? ours, together.fs.fileinfoFromFilename homeward]
              rw [← together.fs.resolve route.toBelow.homeward, resolved]
              refine ⟨together, rfl, ?_, rfl⟩
              exact congrArg (· ++ [Event.sent .none []]) (List.map_congr_left entries)

/-! ### The records of the others -/

/-- Only the record at one address may be another one. -/
def Elsewhere (addr : Nat) (server next : Server) : Prop := ∀ j ≠ addr, next.uman.users[j]? = server.uman.users[j]?

theorem Elsewhere.trans {next last : Server} (first : Elsewhere addr server next) (second : Elsewhere addr next last) :
    Elsewhere addr server last := fun j other => (second j other).trans (first j other)

theorem elsewhere_of_eq {next : Server} (same : next.uman = server.uman) : Elsewhere addr server next :=
  fun _ _ => by rw [same]

theorem elsewhere_modifyUser (f : User → User) : Elsewhere addr server (server.modifyUser addr f) := by
  intro j other
  exact List.getElem?_modify_ne f _ (Ne.symm other)

theorem elsewhere_modifySession {place : Option Nat} (f : Session → Session) :
    Elsewhere addr server (server.modifySession addr place f) := by
  cases place with
  | none => exact elsewhere_of_eq rfl
  | some i => exact elsewhere_modifyUser _

theorem uploadPrepare_elsewhere :
    match uploadPrepare libs env server (some addr) hdr sock with
    | .ready next _ _ _ _ => Elsewhere addr server next
    | .returned next _ _ => Elsewhere addr server next
    | .blocked => True := by
  rw [uploadPrepare, Option.bind_some]
  cases server.uman.users[addr]? with
  | none => exact elsewhere_of_eq rfl
  | some user =>
      rw [Option.map_some]
      dsimp only
      cases msgRecvPayload sock hdr.length sizeofFileInfo with
      | blocked => trivial
      | fail => exact elsewhere_of_eq rfl
      | ok payload rest =>
          dsimp only
          generalize FileInfo.decode (payload ++ env.tail) = info
          rw [uploadAccept]
          by_cases full : sizeT (user.usedSpace + info.size) > user.totalSpace
          · rw [if_pos full]
            exact elsewhere_of_eq rfl
          rw [if_neg full]
          dsimp only
          generalize perform env.faults .mkdir _ _ = root
          cases root with
          | ok fs => exact elsewhere_modifyUser _
          | error errno =>
              dsimp only
              by_cases exists_ : errno = .EEXIST
              · rw [if_pos exists_]
                exact elsewhere_modifyUser _
              · rw [if_neg exists_]
                exact elsewhere_modifyUser _

theorem uploadFinish_elsewhere {place : Option Nat} {info : FileInfo} {stats : FileRecvStats} :
    Elsewhere addr server (uploadFinish server addr place info stats).1 := by
  have noted : ∀ interrupt : Session → Session, Elsewhere addr server
      (if stats.errorCode < 0 then server.modifySession addr place interrupt else server) := by
    intro interrupt
    split_ifs
    · exact elsewhere_modifySession _
    · exact elsewhere_of_eq rfl
  rw [uploadFinish]
  by_cases unreceived : stats.errorCode = -1
  · rw [if_pos unreceived]
    exact noted _
  rw [if_neg unreceived]
  by_cases unsent : stats.errorCode = -2
  · rw [if_pos unsent]
    exact noted _
  · rw [if_neg unsent]
    exact (noted _).trans (elsewhere_modifyUser _)

theorem handleUpload_elsewhere : Elsewhere addr server (handleUpload libs env server (some addr) hdr sock).server := by
  have prepared := @uploadPrepare_elsewhere libs env addr server hdr sock
  rw [handleUpload]
  cases early : uploadPrepare libs env server (some addr) hdr sock with
  | returned next rest events =>
      rw [early] at prepared
      exact prepared
  | blocked => exact elsewhere_of_eq rfl
  | ready next place info seq rest =>
      rw [early] at prepared
      have running := prepared.trans (@elsewhere_modifySession addr next place fun session => { session with state := .running })
      dsimp only
      rw [Option.getD_some]
      cases fileRecv libs env _ info rest with
      | blocked fs => exact running
      | faulted fs => exact running
      | ret fs rest stats => exact running.trans uploadFinish_elsewhere

theorem downloadPrepare_elsewhere :
    match downloadPrepare libs env server (some addr) hdr sock with
    | .ready next _ _ _ _ _ => Elsewhere addr server next
    | .returned next _ _ => Elsewhere addr server next
    | .blocked => True := by
  rw [downloadPrepare, Option.bind_some]
  cases server.uman.users[addr]? with
  | none => exact elsewhere_of_eq rfl
  | some user =>
      rw [Option.map_some]
      dsimp only
      cases msgRecvPayload sock hdr.length sizeofFileInfo with
      | blocked => trivial
      | fail => exact elsewhere_of_eq rfl
      | ok payload rest =>
          dsimp only
          generalize FileInfo.decode (payload ++ env.tail) = info
          rw [downloadAccept]
          cases getUserPath libs info.filename hdr.token with
          | none => exact elsewhere_of_eq rfl
          | some path =>
              dsimp only
              rcases @fileExists_cases env.faults server.fs path with one | zero | failed
              · rw [one]
                exact elsewhere_modifyUser _
              · rw [zero]
                exact elsewhere_of_eq rfl
              · rw [failed]
                exact elsewhere_of_eq rfl

theorem handleDownload_elsewhere : Elsewhere addr server (handleDownload libs env server (some addr) hdr sock).server := by
  have prepared := @downloadPrepare_elsewhere libs env addr server hdr sock
  rw [handleDownload]
  cases early : downloadPrepare libs env server (some addr) hdr sock with
  | returned next rest events =>
      rw [early] at prepared
      exact prepared
  | blocked => exact elsewhere_of_eq rfl
  | ready next place path info startChunk rest =>
      rw [early] at prepared
      dsimp only
      rw [Option.getD_some]
      cases fileSend libs env next.fs info.filename startChunk rest with
      | none => exact prepared
      | some sent =>
          obtain ⟨stats, left⟩ := sent
          dsimp only
          rw [downloadFinish]
          by_cases failed : stats.errorCode < 0
          · rw [if_pos failed]
            exact prepared.trans (elsewhere_modifySession _)
          · rw [if_neg failed]
            exact prepared.trans (elsewhere_modifyUser _)

end Handlers

end MiniDropbox
