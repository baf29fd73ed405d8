/-
Which files a download can read.

`handle_download` checks the path that `get_user_path` has resolved, and then hands
the name in the `FileInfo` to `file_send`. `fileinfo_from_filename` writes the
resolved path there only if it finds a regular file; otherwise the client's own
string is still in place (`fileSend_iff`). A run in which the server works on the
tree it has built itself has no symbolic links below the storage directory, so that
a resolved path leads to the place its names say (`resolve_userPath`).
`downloadConfinement_iff` is the exact condition, for every run from the start.
-/

import MiniDropbox.Edits
import MiniDropbox.Normalize
import MiniDropbox.Walks

namespace MiniDropbox

open Lexical

/-! ### Paths without links -/

/-- Where no link is met, a walk goes where the names say. -/
theorem walk_of_linkless {fs : Fs} {follow : Bool} {fuel links : Nat} {place q : Place}
    {names : List CStr}
    (linkless : ∀ p, p <+: place ++ names.filter (· ≠ [dot]) → ∀ t, fs.get? p ≠ some (.link t))
    (below : [dot, dot] ∉ names) (found : fs.walk follow fuel links place names = .ok q) :
    q = place ++ names.filter (· ≠ [dot]) := by
  have walks := walks_of_walk found
  clear found
  induction walks with
  | arrived => simp
  | here dir later ih =>
      rw [List.filter_cons_of_neg (by simp)] at linkless ⊢
      exact ih linkless fun mem => below (List.mem_cons_of_mem _ mem)
  | up => exact absurd List.mem_cons_self below
  | missing dir notDot => simp [notDot]
  | last dir notDot => simp [notDot]
  | down dir notDot notDots limit there plain later ih =>
      rw [List.filter_cons_of_pos (by simpa using notDot), ← List.singleton_append, ← List.append_assoc] at linkless ⊢
      exact ih linkless fun mem => below (List.mem_cons_of_mem _ mem)
  | link dir notDot notDots limit there =>
      rw [List.filter_cons_of_pos (by simpa using notDot), ← List.singleton_append, ← List.append_assoc] at linkless
      exact absurd there (linkless _ (List.prefix_append _ _) _)

/-- The storage directory and the way to it are free of links. -/
def LinkFree (fs : Fs) : Prop :=
  ∀ place target, fs.get? place = some (.link target) →
    place ≠ [cstr "var"] ∧ ¬ storagePlace <+: place

theorem linkFree_boot (outside : List (Place × Node)) (cwd : Place) : LinkFree (boot outside cwd).fs := by
  intro place target link
  have named : place ≠ [] := by
    rintro rfl
    cases link
  rw [Fs.get?, if_neg named, boot] at link
  dsimp only at link
  rw [lookup_cons_if, lookup_cons_if] at link
  split_ifs at link with storage var
  · cases link
  · cases link
  · refine ⟨var, ?_⟩
    simpa using (List.mem_filter.mp (mem_of_lookup link)).2

/-- In every state of a run from the start the storage is free of links. -/
theorem linkFree_of_run {libs : Externals} {outside : List (Place × Node)} {cwd : Place}
    {rs : List Request} {p : Server × Request} (met : p ∈ run libs (boot outside cwd) rs) :
    LinkFree p.1.fs :=
  fun place target link => linkFree_boot outside cwd place target (links_of_edits (run_edits met) link)

variable {libs : Externals} {token : Token} {raw path : CStr}

/-- The test of `get_user_path` is about the characters of the root. -/
theorem getUserPath_starts (found : getUserPath libs raw token = some path) :
    ∃ rest, path = joined slash (userPlace libs token) ++ rest := by
  simp only [getUserPath] at found
  split_ifs at found with starts
  cases found
  rw [getUserRoot_joined] at starts ⊢
  exact ⟨_, by conv_lhs => rw [← List.take_append_drop (joined slash (userPlace libs token)).length
    (normalizePath _), starts]⟩

/-- A resolved path starts with the way to the storage directory. -/
theorem storagePlace_prefix (found : getUserPath libs raw token = some path) :
    storagePlace <+: components path := by
  obtain ⟨rest, shape⟩ := getUserPath_starts found
  have names : joined slash (userPlace libs token) ++ rest =
      joined slash storagePlace ++ slash :: (libs.uuidUnparse token ++ rest) := by
    simp [userPlace, joined, storagePlace]
  have storage : ∀ n ∈ storagePlace, IsName slash n := fun n hn =>
    @isName_of_mem_userPlace libs token n (by simp [storagePlace, userPlace] at hn ⊢; tauto)
  rw [shape, names, components, pieces_append, pieces_joined storage]
  exact List.prefix_append _ _

/-- On the way down into the storage no link is met. -/
theorem LinkFree.way {fs : Fs} (free : LinkFree fs) {p more : List CStr}
    (within : p <+: storagePlace ++ more) (target : CStr) : fs.get? p ≠ some (.link target) := by
  intro link
  obtain ⟨notVar, outside⟩ := free p target link
  match p with
  | [] => cases link
  | [name] =>
      obtain ⟨rest, shape⟩ := within
      obtain ⟨rfl, -⟩ := List.cons.inj shape
      exact notVar rfl
  | name :: name' :: p =>
      exact outside (List.prefix_of_prefix_length_le (List.prefix_append _ more) within (by simp [storagePlace]))

/-- In a tree whose storage is free of links a resolved path leads where its names say. -/
theorem resolve_userPath {fs : Fs} {follow : Bool} {place : Place} (free : LinkFree fs)
    (found : getUserPath libs raw token = some path) (ok : fs.resolve follow path = .ok place) :
    place = components path := by
  obtain ⟨-, proper⟩ := getUserPath_writes found
  obtain ⟨more, storage⟩ := storagePlace_prefix found
  have absolute : path.head? = some slash := by
    obtain ⟨rest, shape⟩ := getUserPath_starts found
    rw [shape]
    rfl
  have walked := walk_of_resolve ok
  rw [origin, if_pos absolute, trail] at walked
  obtain ⟨behind, plain⟩ : ∃ behind : List CStr, (if path.getLast? = some slash then [[dot]] else []) =
      behind ∧ ∀ n ∈ behind, n = [dot] := ⟨_, rfl, by split_ifs <;> simp⟩
  rw [plain.1] at walked
  have names : (components path ++ behind).filter (· ≠ [dot]) = components path := by
    rw [List.filter_append, List.filter_eq_self.mpr fun n hn => by simpa using (proper n hn).notDot,
      List.filter_eq_nil_iff.mpr fun n hn => by simpa using plain.2 n hn, List.append_nil]
  have below : [dot, dot] ∉ components path ++ behind := by
    intro mem
    rcases List.mem_append.mp mem with name | last
    · exact (proper _ name).notDots rfl
    · exact absurd (plain.2 _ last) (by decide)
  have arrived := walk_of_linkless (by
    rw [names, ← storage]
    exact fun p within => free.way within) below walked
  rw [arrived, names]
  rfl

/-! ### What `handle_download` hands to `file_send` -/

section Handler

variable {server : Server} {addr : Nat} {r : Request}

/-- The `FileInfo` of a download request, as far as it is received. -/
def downloadInfo (r : Request) : Option FileInfo :=
  match msgRecvPayload r.sock r.hdr.length sizeofFileInfo with
  | .ok payload _ => some (FileInfo.decode (payload ++ r.env.tail))
  | _ => none

/-- The requested path is there and can be opened: the request gets to the transfer. -/
def Requested (libs : Externals) (server : Server) (r : Request) (info : FileInfo) (path : CStr) :
    Prop :=
  downloadInfo r = some info ∧ getUserPath libs info.filename r.hdr.token = some path ∧
    fileExists r.env.faults server.fs path = 1

theorem fileExists_cases {faults : Faults} {fs : Fs} {filename : CStr} :
    fileExists faults fs filename = 1 ∨ fileExists faults fs filename = 0 ∨
      fileExists faults fs filename = -1 := by
  unfold fileExists
  split <;> simp

/-- An early return hands no path over. -/
theorem downloadPrepare_returned {user : Option Nat} {next : Server} {sock rest : Sock}
    {events : List Event}
    (returned : downloadPrepare libs r.env server user r.hdr sock = .returned next rest events) :
    ∀ path k, Event.fileSend path k ∉ events := by
  unfold downloadPrepare downloadAccept at returned
  intro path k
  split at returned
  · cases returned
    simp [sendError]
  · split at returned
    · cases returned
    · cases returned
      simp
    · split at returned
      · cases returned
        simp [sendError]
      · dsimp only at returned
        split_ifs at returned
        · cases returned
          simp [sendError]
        · cases returned
          simp [sendError]

theorem downloadFinish_events {place : Option Nat} {filename path : CStr} {stats : FileSendStats}
    {k : Nat} : Event.fileSend path k ∉ (downloadFinish server addr place filename stats).2 := by
  unfold downloadFinish
  split_ifs <;> simp [sendError]

/-- A download gets to the transfer exactly for a requested path, and then with the name
that `fileinfo_from_filename` leaves. -/
theorem downloadPrepare_ready_iff {user : User} (record : server.uman.users[addr]? = some user)
    {sent : CStr} :
    (∃ next place path info k rest, downloadPrepare libs r.env server (some addr) r.hdr r.sock =
      .ready next place path info k rest ∧ sent = info.filename) ↔
    ∃ info path, Requested libs server r info path ∧
      sent = (fileinfoFromFilename r.env.faults libs .infoLstat .infoOpen server.fs path info).2.filename := by
  simp only [downloadPrepare, Option.bind_some, record, Option.map_some, Requested, downloadInfo]
  cases msgRecvPayload r.sock r.hdr.length sizeofFileInfo with
  | blocked => simp
  | fail ret got rest => simp
  | ok payload rest =>
      simp only [Option.some.injEq, downloadAccept]
      generalize FileInfo.decode (payload ++ r.env.tail) = info
      cases resolution : getUserPath libs info.filename r.hdr.token with
      | none => simp [resolution]
      | some path =>
          have there := @fileExists_cases r.env.faults server.fs path
          dsimp only
          constructor
          · rintro ⟨next, place, path', filled, k, rest', ready, rfl⟩
            rcases there with one | zero | minus
            · rw [one, if_neg (by decide), if_neg (by decide)] at ready
              cases ready
              exact ⟨info, path, ⟨rfl, resolution, one⟩, rfl⟩
            · rw [zero, if_neg (by decide), if_pos rfl] at ready
              cases ready
            · rw [minus, if_pos rfl] at ready
              cases ready
          · rintro ⟨_, path', ⟨rfl, found, opens⟩, rfl⟩
            cases resolution.symm.trans found
            rw [opens, if_neg (by decide), if_neg (by decide)]
            exact ⟨_, _, _, _, _, _, rfl, rfl⟩

/-- The path handed over is the name that `fileinfo_from_filename` leaves. -/
theorem fileSend_iff {user : User} (record : server.uman.users[addr]? = some user) {sent : CStr} :
    (∃ k, Event.fileSend sent k ∈
      (handleDownload libs r.env server (some addr) r.hdr r.sock).events) ↔
    ∃ info path, Requested libs server r info path ∧
      sent = (fileinfoFromFilename r.env.faults libs .infoLstat .infoOpen server.fs path info).2.filename := by
  rw [← downloadPrepare_ready_iff record]
  unfold handleDownload
  cases early : downloadPrepare libs r.env server (some addr) r.hdr r.sock with
  | returned next sock events =>
      have others := downloadPrepare_returned early
      simp [others]
  | blocked => simp
  | ready next place path info k rest =>
      have here : ∀ events : List Event, (∀ j, Event.fileSend sent j ∉ events) →
          ((∃ j, Event.fileSend sent j ∈ [Event.sent .downloadRes info.encode,
            Event.fileSend info.filename k] ++ events) ↔ sent = info.filename) := by
        intro events others
        simp [others]
      simp only [DownloadPrepared.ready.injEq, Option.getD_some]
      have alone : sent = info.filename ↔ ∃ next' place' path' info' k' rest', (next = next' ∧
          place = place' ∧ path = path' ∧ info = info' ∧ k = k' ∧ rest = rest') ∧
          sent = info'.filename := by
        simp
      rw [← alone]
      split
      · have := here [] (by simp)
        rwa [List.append_nil] at this
      · exact here _ fun _ => downloadFinish_events

/-- `lstat` finds a regular file. -/
def Regular (r : Request) (fs : Fs) (path : CStr) : Prop :=
  ∃ bytes, perform r.env.faults .infoLstat path (fs.lstat path) = .ok (.file bytes)

/-- Only for a regular file the resolved path is written over the client's string. -/
theorem filled_filename {fs : Fs} {info : FileInfo} {path : CStr} :
    (fileinfoFromFilename r.env.faults libs .infoLstat .infoOpen fs path info).2.filename = path ↔
      Regular r fs path ∨ info.filename = path := by
  unfold fileinfoFromFilename Regular
  cases perform r.env.faults .infoLstat path (fs.lstat path) with
  | error errno => simp
  | ok node =>
      cases node with
      | file bytes =>
          dsimp only
          split <;> simp
      | dir => simp
      | link target => simp

end Handler

/-! ### Confinement -/

/-- The token belongs to a user the server knows. -/
def Registered (server : Server) (token : Token) (addr : Nat) : Prop :=
  umanGetUser server.uman token = some (some addr) ∧ ∃ user, server.uman.users[addr]? = some user

/-- The only path a download hands to `file_send` is the one `get_user_path` returned
for it, and the place it leads to is in the user's directory. -/
def DownloadConfined (libs : Externals) (server : Server) (r : Request) : Prop :=
  ∀ sent k, Event.fileSend sent k ∈ (r.serve libs server).events →
    (∃ info, downloadInfo r = some info ∧ getUserPath libs info.filename r.hdr.token = some sent) ∧
      ∀ place, server.fs.resolve true sent = .ok place → userPlace libs r.hdr.token <+: place

/-- A requested path that can be opened is a regular file, and lies in the user's root and
not beside it. -/
def DownloadCondition (libs : Externals) (server : Server) (r : Request) : Prop :=
  ∀ info path, Requested libs server r info path →
    Regular r server.fs path ∧ LiesIn (getUserRoot libs r.hdr.token) path

theorem resolve_of_exists {fs : Fs} {faults : Faults} (opens : fileExists faults fs path = 1) :
    ∃ place, fs.resolve true path = .ok place := by
  unfold fileExists at opens
  split at opens
  · rename_i node found
    obtain ⟨place, ok, -⟩ := ok_of_bind (perform_ok found)
    exact ⟨place, ok⟩
  · cases opens
  · cases opens

/-- A client's string is never the path it is resolved to, if that can be opened: the
resolution puts the user's directory before it. -/
theorem raw_ne_path {fs : Fs} {faults : Faults} (found : getUserPath libs raw token = some path)
    (opens : fileExists faults fs path = 1) : raw ≠ path := by
  rintro rfl
  obtain ⟨-, proper⟩ := getUserPath_writes found
  obtain ⟨place, ok⟩ := resolve_of_exists opens
  have short := (resolve_fits ok).2
  have kept : keptPath (PATH_MAX * 2) raw = raw :=
    keptPath_of_length_le (Nat.le_trans (Nat.le_of_lt short) (by decide))
  rw [getUserPath, snprintf_root libs token (by decide), kept, getUserRoot_joined] at found
  split_ifs at found
  have resolution := @components_normalizePath (joined slash (userPlace libs token) ++ slash :: raw) rfl
  have names : components (joined slash (userPlace libs token) ++ slash :: raw) =
      userPlace libs token ++ components raw := by
    rw [components, pieces_append, pieces_joined fun n hn => isName_of_mem_userPlace hn]
    rfl
  rw [Option.some.inj found, names] at resolution
  have plain : ∀ n ∈ userPlace libs token ++ components raw, n ≠ [dot] ∧ n ≠ [dot, dot] := by
    intro n hn
    rcases List.mem_append.mp hn with root | name
    · exact plain_of_mem_userPlace root
    · exact ⟨(proper n name).notDot, (proper n name).notDots⟩
  rw [resolved, resolve, foldl_push_of_plain plain, List.nil_append] at resolution
  cases List.self_eq_append_left.mp resolution

/-- One download is confined exactly under the condition. -/
theorem downloadConfined_iff {server : Server} {addr : Nat} {r : Request} (free : LinkFree server.fs)
    (download : dispatch r.hdr = .accept .downloadReq) (known : Registered server r.hdr.token addr) :
    DownloadConfined libs server r ↔ DownloadCondition libs server r := by
  obtain ⟨lookup, user, record⟩ := known
  have served : r.serve libs server = handleDownload libs r.env server (some addr) r.hdr r.sock := by
    simp [Request.serve, onClientMessageReceived, download, lookup, MessageType.kind, onStreamReq]
  have handed := fun sent => @fileSend_iff libs server addr r user record sent
  constructor
  · intro confined info path requested
    obtain ⟨k, sends⟩ := (handed _).mpr ⟨info, path, requested, rfl⟩
    rw [← served] at sends
    obtain ⟨⟨info', received, resolution⟩, place⟩ := confined _ k sends
    cases requested.1.symm.trans received
    have same := Option.some.inj (requested.2.1.symm.trans resolution)
    rw [← same] at place
    refine ⟨(filled_filename.mp same.symm).resolve_right (raw_ne_path requested.2.1 requested.2.2), ?_⟩
    obtain ⟨q, ok⟩ := resolve_of_exists requested.2.2
    have names := resolve_userPath free requested.2.1 ok
    rw [liesIn_iff (getUserPath_writes requested.2.1).1, ← names]
    exact place q ok
  · intro condition sent k sends
    rw [served] at sends
    obtain ⟨info, path, requested, rfl⟩ := (handed sent).mp ⟨k, sends⟩
    obtain ⟨regular, inside⟩ := condition info path requested
    rw [filled_filename.mpr (.inl regular)]
    refine ⟨⟨info, requested.1, requested.2.1⟩, ?_⟩
    intro place ok
    rw [resolve_userPath free requested.2.1 ok]
    exact (liesIn_iff (getUserPath_writes requested.2.1).1).mp inside

/-- When downloads are confined: for every run from the start, whatever the machine holds
beside the storage, the downloads of registered users are confined throughout the run
if and only if each meets the condition in the state that receives it. -/
theorem downloadConfinement_iff (libs : Externals) (outside : List (Place × Node)) (cwd : Place)
    (rs : List Request) :
    (∀ p ∈ run libs (boot outside cwd) rs, ∀ addr, dispatch p.2.hdr = .accept .downloadReq →
      Registered p.1 p.2.hdr.token addr → DownloadConfined libs p.1 p.2) ↔
    (∀ p ∈ run libs (boot outside cwd) rs, ∀ addr, dispatch p.2.hdr = .accept .downloadReq →
      Registered p.1 p.2.hdr.token addr → DownloadCondition libs p.1 p.2) := by
  constructor
  · intro confined p met addr download known
    exact (downloadConfined_iff (linkFree_of_run met) download known).mp
      (confined p met addr download known)
  · intro condition p met addr download known
    exact (downloadConfined_iff (linkFree_of_run met) download known).mpr
      (condition p met addr download known)

/-- A `FileInfo` that asks for a name. -/
def wanted (name : CStr) : FileInfo := { FileInfo.zero with filename := name }

/-- A machine with a file outside the storage. -/
def passwdFile : List (Place × Node) :=
  [([cstr "etc", cstr "passwd"], .file (cstr "root")), ([cstr "etc"], .dir)]

/-- The server after a user has registered and made the directory `etc/passwd`. -/
def directoryMade : Server := runState libraries (boot passwdFile []) [request .authReq someToken [] [],
  request .mkdirReq someToken (cstr "etc/passwd" ++ [0]) []]

/-- A user who makes a directory named like a file of the machine gets that file: the
resolved path is a directory, and the client's string goes to `file_send`. -/
theorem downloadConfinement_passwd :
    let rs := [request .authReq someToken [] [],
      request .mkdirReq someToken (cstr "etc/passwd" ++ [0]) [],
      request .downloadReq someToken (wanted (cstr "/etc/passwd")).encode []]
    ¬ ∀ p ∈ run libraries (boot passwdFile []) rs, ∀ addr, dispatch p.2.hdr = .accept .downloadReq →
      Registered p.1 p.2.hdr.token addr → DownloadConfined libraries p.1 p.2 := by
  intro rs confined
  have registers : ((request .authReq someToken [] []).serve libraries
      (boot passwdFile [])).status.goesOn = true := by
    decide
  have makes : ((request .mkdirReq someToken (cstr "etc/passwd" ++ [0]) []).serve libraries
      ((request .authReq someToken [] []).serve libraries (boot passwdFile [])).server).status.goesOn =
        true := by
    decide
  have third : (directoryMade, request .downloadReq someToken (wanted (cstr "/etc/passwd")).encode []) ∈
      run libraries (boot passwdFile []) rs := by
    simp [rs, run, directoryMade, runState, registers, makes]
  have known : Registered directoryMade someToken 0 :=
    ⟨by decide, userInit someToken, by decide⟩
  have type : dispatch (request .downloadReq someToken (wanted (cstr "/etc/passwd")).encode []).hdr =
      .accept .downloadReq := by
    simp [request, dispatch]
    decide
  have fits : (wanted (cstr "/etc/passwd")).Fits := ⟨by decide, by decide, by decide, by decide⟩
  have received := @request_received .downloadReq someToken (wanted (cstr "/etc/passwd")).encode []
    sizeofFileInfo (by simp)
  have info : downloadInfo (request .downloadReq someToken (wanted (cstr "/etc/passwd")).encode []) =
      some (wanted (cstr "/etc/passwd")) := by
    rw [downloadInfo, received]
    exact congrArg some (FileInfo.decode_encode fits _)
  have requested : Requested libraries directoryMade
      (request .downloadReq someToken (wanted (cstr "/etc/passwd")).encode []) (wanted (cstr "/etc/passwd"))
      (getUserRoot libraries someToken ++ cstr "/etc/passwd") :=
    ⟨info, by decide, by simp only [request]; decide⟩
  have condition := (downloadConfined_iff (linkFree_of_run third) type known).mp
    (confined _ third 0 type known)
  obtain ⟨bytes, regular⟩ := (condition _ _ requested).1
  have directory : (directoryMade.fs.lstat (getUserRoot libraries someToken ++ cstr "/etc/passwd")).toOption =
      some .dir := by
    decide
  rw [perform_ok regular] at directory
  cases directory

end MiniDropbox
