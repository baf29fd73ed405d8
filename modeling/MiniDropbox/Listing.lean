/-
Listings: `handle_list` and the loop of `cmd_list` that reads its replies.

The client prints `FILEINFO` messages until another one comes, an error or the end of the
listing. For a path that `get_user_path` resolves, the server sends one or the other:
the error of `opendir`, or one entry after another and `MSGTYPE_NONE`. The size of a regular
file is its own (`lstat_entry`), unless its path is cut off at the end of its buffer. For
a path that is rejected the server sends nothing. `listing_iff` says that these are the only
ways in which a request is not answered as it should.
-/

import MiniDropbox.Footprint

namespace MiniDropbox

open Lexical

/-! ### The client -/

/-- How `cmd_list` ends: a receive call fails, an error is reported, the listing is done, or
it waits. -/
inductive ListEnd where
  | failed (ret : Int)
  | error (text : CStr)
  | done
  | blocked
  deriving DecidableEq

/-- The loop of `cmd_list` and what follows it: the sizes and names printed, and how it
ends. -/
def cmdListLoop : Nat → Sock → List (Nat × CStr) × ListEnd
  | 0, _ => ([], .blocked)
  | fuel + 1, sock =>
      match msgRecv sock sizeofFileInfo with
      | .blocked => ([], .blocked)
      | .fail ret _ => ([], .failed ret)
      | .ok (hdr, payload) sock =>
          if hdr.type = MessageType.fileinfo.toNat then
            let info := FileInfo.decode payload
            let (lines, last) := cmdListLoop fuel sock
            ((info.size, info.filename) :: lines, last)
          else if hdr.type = MessageType.error.toNat then ([], .error (cString payload))
          else ([], .done)

/-- Mirrors `cmd_list` after it has sent its request. Every message takes bytes. -/
def cmdList (sock : Sock) : List (Nat × CStr) × ListEnd := cmdListLoop (sock.rx.length + 1) sock

/-- What a handler sends, on the wire. -/
def Event.wire (stamp : Stamp) : Event → List Byte
  | .sent type body => msgWire stamp type [] body
  | .fileSend _ _ => []
  | .fileRecv _ => []

def replyWire (stamps : Nat → Stamp) : List Event → List Byte
  | [] => []
  | event :: events => event.wire (stamps events.length) ++ replyWire stamps events

section Client

variable {stamp : Stamp} {type : MessageType} {body rest : List Byte} {sock : Sock} {maxlen : Nat}

/-- A message without payload header is received with its type and payload. -/
theorem msgRecv_msgWire (arrived : sock.rx = msgWire stamp type [] body ++ rest) (within : body.length ≤ maxlen)
    (fits : body.length < 2 ^ 64) :
    ∃ hdr sched, msgRecv sock maxlen = .ok (hdr, body) ⟨rest, sched, sock.fin⟩ ∧ hdr.type = type.toNat := by
  obtain ⟨hdr, sched, header, length, named⟩ := msgRecvHeader_msgWire (by simpa using fits) arrived
  rw [List.length_nil, Nat.zero_add] at length
  rw [List.nil_append] at header
  obtain ⟨sched', payload⟩ := @msgRecvPayload_of_le ⟨body ++ rest, sched, sock.fin⟩ hdr.length maxlen
    (length ▸ within) (by rw [length, List.length_append]; exact Nat.le_add_right _ _)
  simp only [length, List.take_left, List.drop_left] at payload
  refine ⟨hdr, sched', ?_, named⟩
  simp only [msgRecv, header, length, payload]

/-- An error is reported with its text. -/
theorem cmdList_error {stamps : Nat → Stamp} {text : CStr} {sched : List (Option Nat)} {fin : SockEnd}
    (clean : 0 ∉ text) (short : text.length < sizeofFileInfo) :
    cmdList ⟨replyWire stamps [sendError text], sched, fin⟩ = ([], .error text) := by
  have length : (text ++ [0]).length ≤ sizeofFileInfo := by
    rw [List.length_append, List.length_singleton]
    exact short
  have fits : (text ++ [0]).length < 2 ^ 64 := Nat.lt_of_le_of_lt length (by decide)
  obtain ⟨hdr, sched', received, named⟩ := @msgRecv_msgWire (stamps 0) .error (text ++ [0]) []
    ⟨replyWire stamps [sendError text], sched, fin⟩ sizeofFileInfo rfl length fits
  have other : MessageType.error.toNat ≠ MessageType.fileinfo.toNat := by decide
  rw [cmdList, cmdListLoop, received]
  simp only [named, if_neg other, if_true]
  rw [cString_append clean]

/-- The entry of a listing, as it is sent. -/
def entryEvent (info : FileInfo) : Event := .sent .fileinfo info.encode

theorem length_replyWire_entries (stamps : Nat → Stamp) (infos : List FileInfo) (events : List Event) :
    infos.length ≤ (replyWire stamps (infos.map entryEvent ++ events)).length := by
  induction infos with
  | nil => exact Nat.zero_le _
  | cons info infos ih =>
      rw [List.map_cons, List.cons_append, replyWire, List.length_append, entryEvent, Event.wire, length_msgWire,
        List.length_cons]
      simp only [sizeofMessageHdr]
      omega

/-- The entries are printed one by one, up to the end of the listing. -/
theorem cmdListLoop_entries {stamps : Nat → Stamp} {infos : List FileInfo} {fuel : Nat} {fin : SockEnd}
    {sched : List (Option Nat)} (fits : ∀ info ∈ infos, info.Fits) (enough : infos.length < fuel) :
    cmdListLoop fuel ⟨replyWire stamps (infos.map entryEvent ++ [.sent .none []]), sched, fin⟩ =
      (infos.map fun info => (info.size, info.filename), .done) := by
  induction infos generalizing fuel sched with
  | nil =>
      obtain ⟨fuel, rfl⟩ := Nat.exists_eq_succ_of_ne_zero (Nat.ne_of_gt enough)
      obtain ⟨hdr, sched', received, named⟩ := @msgRecv_msgWire (stamps 0) .none [] []
        ⟨replyWire stamps [.sent .none []], sched, fin⟩ sizeofFileInfo rfl (Nat.zero_le _) (by decide)
      have entry : MessageType.none.toNat ≠ MessageType.fileinfo.toNat := by decide
      have error : MessageType.none.toNat ≠ MessageType.error.toNat := by decide
      simp only [List.map_nil, List.nil_append, cmdListLoop, received, named, if_neg entry, if_neg error]
  | cons info infos ih =>
      obtain ⟨fuel, rfl⟩ := Nat.exists_eq_succ_of_ne_zero (Nat.ne_of_gt (Nat.zero_lt_of_lt enough))
      obtain ⟨hdr, sched', received, named⟩ := @msgRecv_msgWire
        (stamps (infos.map entryEvent ++ [Event.sent .none []]).length) .fileinfo info.encode
        (replyWire stamps (infos.map entryEvent ++ [.sent .none []]))
        ⟨replyWire stamps ((info :: infos).map entryEvent ++ [.sent .none []]), sched, fin⟩ sizeofFileInfo rfl
        (Nat.le_of_eq info.length_encode) (by rw [info.length_encode]; decide)
      have whole := FileInfo.decode_encode (fits info List.mem_cons_self) []
      rw [List.append_nil] at whole
      rw [cmdListLoop, received]
      simp only [named, if_true, whole]
      rw [ih (fun i mem => fits i (List.mem_cons_of_mem _ mem)) (Nat.lt_of_succ_lt_succ enough), List.map_cons]

theorem cmdList_entries {stamps : Nat → Stamp} {infos : List FileInfo} {sched : List (Option Nat)}
    {fin : SockEnd} (fits : ∀ info ∈ infos, info.Fits) :
    cmdList ⟨replyWire stamps (infos.map entryEvent ++ [.sent .none []]), sched, fin⟩ =
      (infos.map fun info => (info.size, info.filename), .done) :=
  cmdListLoop_entries fits (Nat.lt_succ_of_le (length_replyWire_entries stamps infos _))

end Client

/-! ### Entries of a directory -/

section Entries

variable {fs : Fs} {q : Place} {path name : CStr} {bytes : List Byte}

/-- Under the path of an entry, if that is not too long, `lstat` finds the entry. -/
theorem lstat_entry (short : ∀ place target, fs.get? place = some (.link target) → target.length < PATH_MAX)
    (leads : fs.resolve true path = .ok q) (directory : fs.get? q = some .dir) (proper : Proper name)
    (limit : name.length ≤ NAME_MAX) (entry : fs.get? (q ++ [name]) = some (.file bytes))
    (fits : (path ++ slash :: name).length < PATH_MAX) :
    fs.lstat (path ++ slash :: name) = .ok (.file bytes) := by
  obtain ⟨k, few, way⟩ := leads_of_resolve leads (by rw [directory]; exact Option.some_ne_none _)
  exact lstat_of_resolve ((resolve_entry_iff short proper (resolve_fits leads).1 fits).mpr
    ⟨k, few, q, way, directory, limit, rfl⟩) entry

theorem opendir_of_directory (resolved : fs.resolve true path = .ok q) (directory : fs.get? q = some .dir) :
    fs.opendir path = .ok (fs.names q) := by
  simp [Fs.opendir, resolved, bind, Except.bind, directory]

/-- The size of the regular file that `lstat` finds at a path, 0 if it finds none. -/
def sizeAt (fs : Fs) (path : CStr) : Nat :=
  match fs.lstat path with
  | .ok (.file bytes) => bytes.length
  | _ => 0

end Entries

/-! ### File systems -/

/-- Files are no longer than an `off_t` says, and links lead to paths. -/
def Node.Genuine : Node → Prop
  | .dir => True
  | .file bytes => bytes.length < 2 ^ 63
  | .link target => target.length < PATH_MAX

/-- What every file system keeps to. -/
structure Genuine (fs : Fs) : Prop where
  once : (fs.nodes.map Prod.fst).Nodup
  names : ∀ entry ∈ fs.nodes, ∀ name ∈ entry.1, Proper name ∧ 0 ∉ name ∧ name.length ≤ NAME_MAX
  nodes : ∀ entry ∈ fs.nodes, entry.2.Genuine

namespace Genuine

variable {fs : Fs} {place : Place} {name : CStr}

theorem node {here : Node} (genuine : Genuine fs) (there : fs.get? place = some here) : here.Genuine := by
  by_cases root : place = []
  · rw [Fs.get?, if_pos root] at there
    cases there
    trivial
  · exact genuine.nodes _ (mem_of_get? root there)

theorem mem_names_iff : name ∈ fs.names place ↔ (fs.get? (place ++ [name])).isSome := by
  rw [mem_names, Fs.get?, if_neg (List.append_ne_nil_of_right_ne_nil _ (List.cons_ne_nil _ _)),
    List.lookup_isSome_iff]
  constructor
  · rintro ⟨node, mem⟩
    exact ⟨_, mem, beq_self_eq_true _⟩
  · rintro ⟨⟨q, node⟩, mem, same⟩
    cases beq_iff_eq.mp same
    exact ⟨node, mem⟩

theorem entry (genuine : Genuine fs) (mem : name ∈ fs.names place) :
    Proper name ∧ 0 ∉ name ∧ name.length ≤ NAME_MAX := by
  obtain ⟨node, mem⟩ := mem_names.mp mem
  exact genuine.names _ mem name (List.mem_append_right _ List.mem_cons_self)

/-- `readdir` returns a name once. -/
theorem nodup_names (genuine : Genuine fs) : (fs.names place).Nodup := by
  have split : fs.names place = (fs.nodes.map Prod.fst).filterMap
      fun q => if q.dropLast = place then q.getLast? else none := by
    rw [List.filterMap_map]
    rfl
  rw [split]
  refine genuine.once.filterMap fun a b name first second => ?_
  rw [Option.mem_def] at first second
  split_ifs at first second with parent same
  obtain ⟨init, rfl⟩ := List.getLast?_eq_some_iff.mp first
  obtain ⟨init', rfl⟩ := List.getLast?_eq_some_iff.mp second
  rw [List.dropLast_concat] at parent same
  rw [parent, same]

end Genuine

/-! ### The server -/

section Server

variable {libs : Externals} {env : Env} {fs : Fs} {place : Place} {path name : CStr} {bytes : List Byte}

theorem chunkCount_lt {size : Nat} (small : size < 2 ^ 63) : chunkCount size < 2 ^ 64 := by
  have rounded := @Rounding.nearest_le 24 size (by decide)
  rw [chunkCount]
  simp only [CHUNK_SIZE]
  omega

/-- What `listEntry` sends. -/
def entryInfo (libs : Externals) (env : Env) (fs : Fs) (path : CStr) (place : Place) (name : CStr) : FileInfo :=
  { (match fs.get? (place ++ [name]) with
    | some (.file _) => (fileinfoFromFilename env.faults libs .infoLstat .infoOpen fs
        (snprintf PATH_MAX (path ++ slash :: name)) FileInfo.zero).2
    | _ => FileInfo.zero) with filename := name }

/-- The numbers that `fileinfo_from_filename` fills in fit their fields. -/
theorem fileinfoFromFilename_fits (genuine : Genuine fs) :
    (fileinfoFromFilename env.faults libs .infoLstat .infoOpen fs path FileInfo.zero).2.size < 2 ^ 64 ∧
      (fileinfoFromFilename env.faults libs .infoLstat .infoOpen fs path FileInfo.zero).2.chunkCount < 2 ^ 64 := by
  rw [fileinfoFromFilename]
  cases found : perform env.faults .infoLstat path (fs.lstat path) with
  | error errno => exact ⟨Nat.two_pow_pos 64, Nat.two_pow_pos 64⟩
  | ok node =>
      cases node with
      | dir => exact ⟨Nat.two_pow_pos 64, Nat.two_pow_pos 64⟩
      | link target => exact ⟨Nat.two_pow_pos 64, Nat.two_pow_pos 64⟩
      | file bytes =>
          have small : bytes.length < 2 ^ 63 := by
            obtain ⟨q, -, there⟩ := ok_of_bind (perform_ok found)
            split at there
            · cases there
            · rename_i content
              cases there
              exact genuine.node content
          have count := chunkCount_lt small
          dsimp only
          split
          · exact ⟨Nat.lt_trans small (by decide), count⟩
          · exact ⟨Nat.lt_trans small (by decide), count⟩

theorem entryInfo_fits (genuine : Genuine fs) (mem : name ∈ fs.names place) :
    (entryInfo libs env fs path place name).Fits := by
  obtain ⟨-, clean, limit⟩ := genuine.entry mem
  have short : name.length < PATH_MAX := Nat.lt_of_le_of_lt limit (by decide)
  rw [entryInfo]
  split
  · obtain ⟨size, count⟩ := @fileinfoFromFilename_fits libs env fs (snprintf PATH_MAX (path ++ slash :: name)) genuine
    exact ⟨size, count, clean, short⟩
  · exact ⟨Nat.two_pow_pos 64, Nat.two_pow_pos 64, clean, short⟩

/-- The size of a regular file is the one found under the path of the entry. -/
theorem entryInfo_size (regular : fs.get? (place ++ [name]) = some (.file bytes))
    (unfailed : env.faults .infoLstat (snprintf PATH_MAX (path ++ slash :: name)) = none) :
    (entryInfo libs env fs path place name).size = sizeAt fs (snprintf PATH_MAX (path ++ slash :: name)) := by
  rw [entryInfo, regular]
  dsimp only
  rw [fileinfoFromFilename, perform, unfailed, sizeAt]
  dsimp only
  cases fs.lstat (snprintf PATH_MAX (path ++ slash :: name)) with
  | error errno => rfl
  | ok node =>
      cases node with
      | dir => rfl
      | link target => rfl
      | file content =>
          dsimp only
          split
          · rfl
          · rfl

/-- If the path is not cut off, that is its own. -/
theorem sizeAt_entry (genuine : Genuine fs) (leads : fs.resolve true path = .ok place)
    (directory : fs.get? place = some .dir) (regular : fs.get? (place ++ [name]) = some (.file bytes))
    (fits : (path ++ slash :: name).length < PATH_MAX) :
    sizeAt fs (snprintf PATH_MAX (path ++ slash :: name)) = bytes.length := by
  have mem : name ∈ fs.names place := Genuine.mem_names_iff.mpr (by rw [regular]; rfl)
  obtain ⟨proper, -, limit⟩ := genuine.entry mem
  have links : ∀ place target, fs.get? place = some (.link target) → target.length < PATH_MAX :=
    fun _ _ there => genuine.node there
  have whole : snprintf PATH_MAX (path ++ slash :: name) = path ++ slash :: name :=
    List.take_of_length_le (Nat.le_pred_of_lt fits)
  rw [whole, sizeAt, lstat_entry links leads directory proper limit regular fits]

end Server

/-! ### Requests and answers -/

/-- A registered user asks for the listing of a path. -/
structure ListAsked (server : Server) (r : Request) (path : CStr) : Prop where
  request : dispatch r.hdr = .accept .listReq
  registered : ∃ addr, Registered server r.hdr.token addr
  arrived : ∃ behind rest, r.sock.rx = path ++ 0 :: behind ++ rest ∧ r.hdr.length = (path ++ 0 :: behind).length
  clean : 0 ∉ path
  limit : r.hdr.length ≤ PATH_MAX

/-- What the client prints for an entry. -/
def FileInfo.line (info : FileInfo) : Nat × CStr := (info.size, info.filename)

/-- The lines of a directory: every entry once, and the size of a regular file that is
readable, which means that the environment does not fail its `lstat`. -/
structure Lists (env : Env) (fs : Fs) (path : CStr) (place : Place) (lines : List (Nat × CStr)) : Prop where
  once : (lines.map Prod.snd).Nodup
  entries : ∀ name, name ∈ lines.map Prod.snd ↔ (fs.get? (place ++ [name])).isSome
  sizes : ∀ line ∈ lines, ∀ bytes, fs.get? (place ++ [line.2]) = some (.file bytes) →
    env.faults .infoLstat (snprintf PATH_MAX (path ++ slash :: line.2)) = none → line.1 = bytes.length

/-- However the messages arrive, and whatever becomes of the connection, `cmd_list` ends so. -/
def Shows (events : List Event) (result : List (Nat × CStr) × ListEnd) : Prop :=
  ∀ stamps sched fin, cmdList ⟨replyWire stamps events, sched, fin⟩ = result

/-- An error is sent and reported, or the entries of the directory are sent and printed. -/
def ListAnswered (libs : Externals) (server : Server) (r : Request) (path : CStr) : Prop :=
  (∃ text, (r.serve libs server).events = [sendError text] ∧
    Shows (r.serve libs server).events ([], .error text)) ∨
  ∃ full place, ∃ infos : List FileInfo, getUserPath libs path r.hdr.token = some full ∧
    server.fs.resolve true full = .ok place ∧ server.fs.get? place = some .dir ∧
    (r.serve libs server).events = infos.map entryEvent ++ [.sent .none []] ∧
    Lists r.env server.fs full place (infos.map FileInfo.line) ∧
    Shows (r.serve libs server).events (infos.map FileInfo.line, .done)

/-- The path is not rejected. And where the path of a regular file in the directory is cut off
at the end of its buffer, what is found there has the size of the file. -/
def ListCondition (libs : Externals) (server : Server) (r : Request) (path : CStr) : Prop :=
  ∃ full, getUserPath libs path r.hdr.token = some full ∧
    ∀ place, r.env.faults .listOpendir full = none → server.fs.resolve true full = .ok place →
      server.fs.get? place = some .dir → ∀ name bytes, server.fs.get? (place ++ [name]) = some (.file bytes) →
        PATH_MAX ≤ (full ++ slash :: name).length →
          r.env.faults .infoLstat (snprintf PATH_MAX (full ++ slash :: name)) = none →
            sizeAt server.fs (snprintf PATH_MAX (full ++ slash :: name)) = bytes.length

section Answers

variable {libs : Externals} {server : Server} {r : Request} {path full : CStr}

theorem strerror_shown (errno : Errno) :
    0 ∉ strerror errno ∧ (strerror errno).length < sizeofFileInfo := by
  cases errno <;> exact ⟨by decide, by decide⟩

/-- A listing is served by `handle_list`, which receives its path as it is. -/
theorem serve_listing (asked : ListAsked server r path) :
    (r.serve libs server).events =
      match getUserPath libs path r.hdr.token with
      | none => []
      | some full =>
          match perform r.env.faults .listOpendir full (server.fs.opendir full) with
          | .error errno => [sendError (strerror errno)]
          | .ok names => (names.map (entryInfo libs r.env server.fs full
              ((server.fs.resolve true full).toOption.getD []))).map entryEvent ++ [.sent .none []] := by
  obtain ⟨addr, known, -⟩ := asked.registered
  obtain ⟨behind, rest, arrived, length⟩ := asked.arrived
  have served : r.serve libs server = handleList libs r.env server (some addr) r.hdr r.sock := by
    simp [Request.serve, onClientMessageReceived, asked.request, known, MessageType.kind, onStreamReq]
  have enough : r.hdr.length ≤ r.sock.rx.length := by
    rw [arrived, length]
    exact (List.prefix_append _ rest).length_le
  obtain ⟨sched, received⟩ := msgRecvPayload_of_le asked.limit enough
  have payload : r.sock.rx.take r.hdr.length = path ++ 0 :: behind := by
    rw [arrived, List.take_left' length.symm]
  have string : cString (path ++ 0 :: behind ++ r.env.tail) = path := by
    rw [List.append_assoc, List.cons_append]
    exact cString_append asked.clean
  rw [served, handleList]
  simp only [received, payload, string]
  cases getUserPath libs path r.hdr.token with
  | none => rfl
  | some full =>
      dsimp only
      cases perform r.env.faults .listOpendir full (server.fs.opendir full) with
      | error errno => rfl
      | ok names =>
          dsimp only
          rw [List.map_map]
          rfl

/-- The entries of a directory that `opendir` opens. -/
theorem lists_entries {infos : List FileInfo} {place : Place} (genuine : Genuine server.fs)
    (named : infos = (server.fs.names place).map (entryInfo libs r.env server.fs full place)) :
    Lists r.env server.fs full place (infos.map FileInfo.line) ↔
      ∀ name bytes, server.fs.get? (place ++ [name]) = some (.file bytes) →
        r.env.faults .infoLstat (snprintf PATH_MAX (full ++ slash :: name)) = none →
          sizeAt server.fs (snprintf PATH_MAX (full ++ slash :: name)) = bytes.length := by
  have lines : infos.map FileInfo.line = (server.fs.names place).map fun name =>
      ((entryInfo libs r.env server.fs full place name).size, name) := by
    rw [named, List.map_map]
    rfl
  have printed : (infos.map FileInfo.line).map Prod.snd = server.fs.names place := by
    rw [lines, List.map_map]
    exact List.map_id _
  constructor
  · intro lists name bytes regular unfailed
    have mem : name ∈ server.fs.names place := Genuine.mem_names_iff.mpr (by rw [regular]; rfl)
    have line : ((entryInfo libs r.env server.fs full place name).size, name) ∈ infos.map FileInfo.line := by
      rw [lines]
      exact List.mem_map.mpr ⟨name, mem, rfl⟩
    rw [← @entryInfo_size libs _ _ _ _ _ _ regular unfailed]
    exact lists.sizes _ line bytes regular unfailed
  · intro found
    refine ⟨?_, ?_, ?_⟩
    · rw [printed]
      exact genuine.nodup_names
    · intro name
      rw [printed]
      exact Genuine.mem_names_iff
    · intro line mem bytes regular unfailed
      rw [lines] at mem
      obtain ⟨name, -, rfl⟩ := List.mem_map.mp mem
      exact (entryInfo_size regular unfailed).trans (found name bytes regular unfailed)

/-- When a listing is answered: exactly under the condition. -/
theorem listing_iff (genuine : Genuine server.fs) (asked : ListAsked server r path) :
    ListAnswered libs server r path ↔ ListCondition libs server r path := by
  have served := @serve_listing libs server r path asked
  cases resolution : getUserPath libs path r.hdr.token with
  | none =>
      rw [resolution] at served
      constructor
      · rintro (⟨text, sent, -⟩ | ⟨full, place, infos, found, -⟩)
        · rw [served] at sent
          cases sent
        · cases resolution.symm.trans found
      · rintro ⟨full, found, -⟩
        cases resolution.symm.trans found
  | some full =>
      rw [resolution] at served
      dsimp only at served
      cases opens : perform r.env.faults .listOpendir full (server.fs.opendir full) with
      | error errno =>
          rw [opens] at served
          obtain ⟨clean, short⟩ := strerror_shown errno
          constructor
          · intro _
            refine ⟨full, resolution, fun place unfailed leads directory => ?_⟩
            rw [perform, unfailed, opendir_of_directory leads directory] at opens
            cases opens
          · intro _
            refine .inl ⟨strerror errno, served, fun stamps sched fin => ?_⟩
            rw [served]
            exact cmdList_error clean short
      | ok names =>
          rw [opens] at served
          have unfailed := unfailed_of_perform opens
          obtain ⟨place, leads, directory, rfl⟩ := opendir_directory (perform_ok opens)
          rw [leads] at served
          obtain ⟨infos, named⟩ : ∃ infos,
              infos = (server.fs.names place).map (entryInfo libs r.env server.fs full place) := ⟨_, rfl⟩
          have sent : (r.serve libs server).events = infos.map entryEvent ++ [.sent .none []] := by
            rw [named]
            exact served
          have shows : Shows (r.serve libs server).events (infos.map FileInfo.line, .done) := by
            intro stamps sched fin
            rw [sent]
            refine cmdList_entries fun info mem => ?_
            rw [named] at mem
            obtain ⟨name, entry, rfl⟩ := List.mem_map.mp mem
            exact entryInfo_fits genuine entry
          have lists := lists_entries genuine named
          constructor
          · rintro (⟨text, error, -⟩ | ⟨full', place', infos', found, leads', -, -, lists', shows'⟩)
            · rw [sent] at error
              have last := congrArg List.getLast? error
              rw [List.getLast?_concat] at last
              cases last
            · cases resolution.symm.trans found
              cases leads.symm.trans leads'
              have same : infos'.map FileInfo.line = infos.map FileInfo.line :=
                congrArg Prod.fst ((shows' default [] .closed).symm.trans (shows default [] .closed))
              rw [same] at lists'
              refine ⟨full, resolution, fun place' _ leads' _ name bytes regular _ visible => ?_⟩
              cases leads.symm.trans leads'
              exact lists.mp lists' name bytes regular visible
          · rintro ⟨full', found, condition⟩
            cases resolution.symm.trans found
            refine .inr ⟨full, place, infos, resolution, leads, directory, sent, lists.mpr ?_, shows⟩
            intro name bytes regular visible
            by_cases fits : (full ++ slash :: name).length < PATH_MAX
            · exact sizeAt_entry genuine leads directory regular fits
            · exact condition place unfailed leads directory name bytes regular (Nat.le_of_not_lt fits) visible

end Answers

/-! ### Two requests -/

/-- The server with a file in the user's directory. -/
def fileHeld : Server :=
  { tokenKnown with fs := tokenKnown.fs.set (userPlace libraries someToken ++ [cstr "f"]) (.file (cstr "hi")) }

/-- A listing of a path, as `cmd_list` asks for it. -/
def listed (path : CStr) : Request := request .listReq someToken (path ++ [0]) []

theorem fileHeld_genuine : Genuine fileHeld.fs := by
  have plain : ∀ entry ∈ fileHeld.fs.nodes, ∀ name ∈ entry.1, (name ≠ [] ∧ slash ∉ name) ∧
      (name ≠ [dot] ∧ name ≠ [dot, dot]) ∧ 0 ∉ name ∧ name.length ≤ NAME_MAX := by
    decide
  have nodes : ∀ entry ∈ fileHeld.fs.nodes, entry.2 = .dir ∨ entry.2 = .file (cstr "hi") := by
    decide
  refine ⟨by decide, fun entry mem name part => ?_, fun entry mem => ?_⟩
  · obtain ⟨⟨nonempty, free⟩, ⟨notDot, notDots⟩, more⟩ := plain entry mem name part
    exact ⟨⟨⟨nonempty, free⟩, notDot, notDots⟩, more⟩
  · rcases nodes entry mem with directory | file
    · rw [directory]
      trivial
    · rw [file]
      exact (by decide : (cstr "hi").length < 2 ^ 63)

theorem listed_asked {path : CStr} (clean : 0 ∉ path) (short : path.length < PATH_MAX) :
    ListAsked fileHeld (listed path) path where
  request := by
    simp [listed, request, dispatch]
    decide
  registered := ⟨0, tokenKnown_lookup, _, tokenKnown_record⟩
  arrived := ⟨[], [], by simp [listed, request], rfl⟩
  clean := clean
  limit := by
    rw [listed, request, List.length_append]
    exact short

theorem listing_answered : ListAnswered libraries fileHeld (listed []) [] ∧
    cmdList ⟨replyWire default ((listed []).serve libraries fileHeld).events, [], .closed⟩ =
      ([(2, cstr "f")], .done) := by
  have asked : ListAsked fileHeld (listed []) [] := listed_asked List.not_mem_nil (by decide)
  refine ⟨(listing_iff fileHeld_genuine asked).mpr ?_, by decide +kernel⟩
  have resolution : (getUserPath libraries [] someToken).map List.length = some 49 := by decide
  obtain ⟨full, found, length⟩ := Option.map_eq_some_iff.mp resolution
  refine ⟨full, found, fun place _ _ _ name bytes regular long _ => ?_⟩
  have mem : name ∈ fileHeld.fs.names place := Genuine.mem_names_iff.mpr (by rw [regular]; rfl)
  obtain ⟨-, -, limit⟩ := fileHeld_genuine.entry mem
  rw [List.length_append, List.length_cons, length] at long
  simp only [NAME_MAX] at limit
  simp only [PATH_MAX] at long
  omega

/-- A path that leads out of the user's directory is not answered at all. -/
theorem listing_dropped : Genuine fileHeld.fs ∧ ListAsked fileHeld (listed (cstr "../x")) (cstr "../x") ∧
    ¬ ListAnswered libraries fileHeld (listed (cstr "../x")) (cstr "../x") := by
  have asked : ListAsked fileHeld (listed (cstr "../x")) (cstr "../x") := listed_asked (by decide) (by decide)
  have rejected : getUserPath libraries (cstr "../x") someToken = none := by decide
  refine ⟨fileHeld_genuine, asked, ?_⟩
  have served := @serve_listing libraries fileHeld (listed (cstr "../x")) (cstr "../x") asked
  rw [show (listed (cstr "../x")).hdr.token = someToken from rfl, rejected] at served
  rintro (⟨text, sent, -⟩ | ⟨full, place, infos, found, -⟩)
  · rw [served] at sent
    cases sent
  · cases rejected.symm.trans found

end MiniDropbox
