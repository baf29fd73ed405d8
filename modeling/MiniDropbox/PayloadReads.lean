/-
Which bytes of a received payload the handlers read (`server.c`).

`msg_recv_payload` takes any length up to its limit, and 0. The payload is then used as a
`FileInfo` or as a string, whether or not it is one: what lies in memory behind it is read
as well.

* `serve_tail` — the accesses listed here are all that the handlers depend on.
* `payloadReads_iff` — for each of the five requests, when only received bytes are read and
  a malformed message is refused.
-/

import MiniDropbox.Bookings
import MiniDropbox.Resolution

namespace MiniDropbox

/-! ### Accesses to a payload -/

/-- So many bytes of a payload are read, from an offset on. -/
structure Access where
  offset : Nat
  size : Nat

/-- The bytes are among the first `length` ones. -/
def Access.Within (length : Nat) (access : Access) : Prop := access.offset + access.size ≤ length

/-- A string is read with its terminator. -/
def scan (memory : List Byte) (offset : Nat) : Access := ⟨offset, (cString (memory.drop offset)).length + 1⟩

def sizeField : Access := ⟨0, 8⟩

def chunkCountField : Access := ⟨8, 8⟩

def checksumField : Access := ⟨16, 32⟩

/-- Where the name field of a `FileInfo` begins. -/
def filenameOffset : Nat := 8 + 8 + 32

/-- Mirrors `fileinfo_print`. -/
def fileinfoPrint (memory : List Byte) : List Access :=
  [sizeField, chunkCountField, checksumField, scan memory filenameOffset]

variable (libs : Externals) (faults : Faults) (fs : Fs)

/-- The path `handle_upload` makes of the name of a file. -/
def uploadFilename (token : Token) (name : CStr) : CStr :=
  snprintf (PATH_MAX * 2) (getUserRoot libs token ++ printed (strrchr name))

/-- The memory after `strncpy` has put it into the name field. -/
def renamed (memory : List Byte) (filename : CStr) : List Byte :=
  memory.take filenameOffset ++
    ((filename ++ List.replicate PATH_MAX 0).take PATH_MAX ++ memory.drop sizeofFileInfo)

/-- The accesses of `handle_upload`. -/
def uploadReads (user : User) (token : Token) (memory : List Byte) : List Access :=
  let info := FileInfo.decode memory
  fileinfoPrint memory ++ sizeField ::
    if sizeT (user.usedSpace + info.size) > user.totalSpace then []
    else
      let named := renamed memory (uploadFilename libs token info.filename)
      -- `strrchr`; then `user_get_session`, and `session_print` if there is none
      scan memory filenameOffset :: scan named filenameOffset ::
        -- `file_recv`, and `user_remove_session` in the end
        if (rootMade libs faults fs token).isSome then [scan named filenameOffset, chunkCountField] else []

/-- The accesses of `handle_download`. -/
def downloadReads (token : Token) (memory : List Byte) : List Access :=
  let info := FileInfo.decode memory
  -- `get_user_path`, which with `handle_download` reports a path it rejects
  fileinfoPrint memory ++ scan memory filenameOffset ::
    match getUserPath libs info.filename token with
    | none => []
    | some filename =>
        if fileExists faults fs filename = 1 then
          let filled := (fileinfoFromFilename faults libs .infoLstat .infoOpen fs filename info).2
          let name := Access.mk filenameOffset (filled.filename.length + 1)
          sizeField :: (if info.size > 0 then fileinfoPrint memory ++ [chunkCountField] else []) ++
            -- `fileinfo_print`, `send_download_res` and `file_send`
            [sizeField, chunkCountField, checksumField, name, ⟨0, sizeofFileInfo⟩, name]
        else []

/-- The bytes of a receive call that succeeds. -/
def RecvAll.data : RecvAll → Option (List Byte)
  | .ok data _ => some data
  | _ => none

/-- The payload that a request's handler has received, if it has received it whole. -/
def receivedPayload (r : Request) : MessageType → Option (List Byte)
  | .uploadReq | .downloadReq => (msgRecvPayload r.sock r.hdr.length sizeofFileInfo).data
  | .listReq => (msgRecvPayload r.sock r.hdr.length PATH_MAX).data
  | _ => (recvOneshot r.sock r.hdr.length (some 8192)).1

/-- The accesses of the handler of a request to its payload. A path is scanned as a whole by
the `snprintf` of `get_user_path` or of `create_directories_from_path`. -/
def payloadReads (server : Server) (user : User) (r : Request) (type : MessageType) : List Access :=
  match receivedPayload r type with
  | none => []
  | some payload =>
      let memory := payload ++ r.env.tail
      match type with
      | .uploadReq => uploadReads libs r.env.faults server.fs user r.hdr.token memory
      | .downloadReq => downloadReads libs r.env.faults server.fs r.hdr.token memory
      | _ => [scan memory 0]

/-! ### What is asked of the handlers -/

/-- The requests whose handlers read a payload. -/
def MessageType.Reads (type : MessageType) : Prop :=
  type = .uploadReq ∨ type = .downloadReq ∨ type = .listReq ∨ type = .removeReq ∨ type = .mkdirReq

/-- A request of a registered user that is handed to such a handler. -/
structure Asked (server : Server) (addr : Nat) (user : User) (r : Request) (type : MessageType) : Prop where
  reads : type.Reads
  accepted : dispatch r.hdr = .accept type
  registered : umanGetUser server.uman r.hdr.token = some (some addr)
  record : server.uman.users[addr]? = some user

/-- Where the string of a request begins. -/
def nameOffset : MessageType → Nat
  | .uploadReq | .downloadReq => filenameOffset
  | _ => 0

/-- The message is shorter than the `FileInfo` it should hold, or its string has no
terminator. -/
def Malformed (r : Request) (type : MessageType) : Prop :=
  nameOffset type = filenameOffset ∧ r.hdr.length < sizeofFileInfo ∨
    ∃ payload, receivedPayload r type = some payload ∧ 0 ∉ payload.drop (nameOffset type)

/-- Nothing is sent but an error. -/
def Refused (handled : Handled) : Prop := ∀ event ∈ handled.events, ∃ text, event = sendError text

/-- Only bytes of the message are read, and a malformed one is refused. -/
structure ReadsReceived (server : Server) (user : User) (r : Request) (type : MessageType) : Prop where
  within : ∀ access ∈ payloadReads libs server user r type, access.Within r.hdr.length
  refuses : Malformed r type → Refused (r.serve libs server)

/-- What has to be so of a received payload. -/
def PayloadCondition (server : Server) (user : User) (r : Request) (payload : List Byte) : MessageType → Prop
  | .uploadReq =>
      let info := FileInfo.decode payload
      0 ∈ payload.drop filenameOffset ∧
        (sizeT (user.usedSpace + info.size) > user.totalSpace ∨
          filenameOffset + (uploadFilename libs r.hdr.token info.filename).length < payload.length ∧
            (payload.length = sizeofFileInfo ∨ rootMade libs r.env.faults server.fs r.hdr.token = none))
  | .downloadReq =>
      let info := FileInfo.decode payload
      0 ∈ payload.drop filenameOffset ∧
        (payload.length = sizeofFileInfo ∨
          ∀ filename, getUserPath libs info.filename r.hdr.token = some filename →
            fileExists r.env.faults server.fs filename ≠ 1)
  | _ => 0 ∈ payload

variable {libs : Externals} {faults : Faults} {fs : Fs}

/-! ### Strings in memory -/

section Memory

variable {payload tail memory : List Byte} {offset : Nat}

/-- A string is terminated where the memory before its end has a terminator. -/
theorem cString_append_of_mem (terminated : 0 ∈ payload) : cString (payload ++ tail) = cString payload := by
  obtain ⟨text, behind, rfl, clean⟩ := List.eq_append_cons_of_mem terminated
  rw [List.append_assoc, List.cons_append, cString_append clean, cString_append clean]

theorem length_cString_lt (terminated : 0 ∈ payload) : (cString payload).length < payload.length := by
  obtain ⟨text, behind, rfl, clean⟩ := List.eq_append_cons_of_mem terminated
  rw [cString_append clean, List.length_append, List.length_cons]
  omega

/-- A string without a terminator goes on behind the memory. -/
theorem le_length_cString (unterminated : 0 ∉ payload) : payload.length ≤ (cString (payload ++ tail)).length := by
  have whole : cString (payload ++ tail) = payload ++ cString tail := by
    refine List.takeWhile_append_of_pos fun c among => ?_
    rw [decide_eq_true_eq]
    rintro rfl
    exact unterminated among
  rw [whole, List.length_append]
  exact Nat.le_add_right _ _

/-- A scan stays within the payload if it has a terminator. -/
theorem scan_within_iff : (scan (payload ++ tail) offset).Within payload.length ↔ 0 ∈ payload.drop offset := by
  rw [Access.Within, scan]
  dsimp only
  by_cases inside : offset ≤ payload.length
  · have left : (payload.drop offset).length = payload.length - offset := List.length_drop
    rw [List.drop_append_of_le_length inside]
    by_cases terminated : 0 ∈ payload.drop offset
    · rw [cString_append_of_mem terminated]
      have short := length_cString_lt terminated
      exact iff_of_true (by omega) terminated
    · have long := @le_length_cString _ tail terminated
      exact iff_of_false (by omega) terminated
  · have none : payload.drop offset = [] := List.drop_eq_nil_of_le (Nat.le_of_not_le inside)
    refine iff_of_false (by omega) ?_
    rw [none]
    exact List.not_mem_nil

theorem filenameOffset_lt (terminated : 0 ∈ payload.drop filenameOffset) : filenameOffset < payload.length := by
  by_contra short
  rw [List.drop_eq_nil_of_le (Nat.le_of_not_lt short)] at terminated
  exact List.not_mem_nil terminated

/-- The numbers of a `FileInfo` lie before its name. -/
theorem fields_within (terminated : 0 ∈ payload.drop filenameOffset) :
    sizeField.Within payload.length ∧ chunkCountField.Within payload.length ∧ checksumField.Within payload.length := by
  have long : 48 < payload.length := filenameOffset_lt terminated
  simp only [Access.Within, sizeField, chunkCountField, checksumField]
  omega

theorem fileinfoPrint_within_iff : (∀ access ∈ fileinfoPrint (payload ++ tail), access.Within payload.length) ↔
    0 ∈ payload.drop filenameOffset := by
  simp only [fileinfoPrint, List.forall_mem_cons, scan_within_iff]
  constructor
  · rintro ⟨-, -, -, terminated, -⟩
    exact terminated
  · intro terminated
    obtain ⟨size, chunks, checksum⟩ := fields_within terminated
    exact ⟨size, chunks, checksum, terminated, List.forall_mem_nil _⟩

/-- A `FileInfo` whose name is terminated in the payload does not depend on what lies behind. -/
theorem decode_append (terminated : 0 ∈ payload.drop filenameOffset) :
    FileInfo.decode (payload ++ tail) = FileInfo.decode payload := by
  have long : 48 < payload.length := filenameOffset_lt terminated
  have first : (payload ++ tail).take 8 = payload.take 8 := List.take_append_of_le_length (by omega)
  have second : ((payload ++ tail).drop 8).take 8 = (payload.drop 8).take 8 := by
    rw [List.drop_append_of_le_length (by omega), List.take_append_of_le_length (by rw [List.length_drop]; omega)]
  have third : ((payload ++ tail).drop 16 ++ List.replicate 32 0).take 32 = (payload.drop 16 ++ List.replicate 32 0).take 32 := by
    have room : 32 ≤ (payload.drop 16).length := by
      rw [List.length_drop]
      omega
    rw [List.drop_append_of_le_length (by omega), List.append_assoc, List.take_append_of_le_length room,
      List.take_append_of_le_length room]
  have name : cString ((payload ++ tail).drop 48) = cString (payload.drop 48) := by
    rw [List.drop_append_of_le_length (Nat.le_of_lt long)]
    exact cString_append_of_mem terminated
  simp only [FileInfo.decode, first, second, third, name]

/-- The name of an upload as it lies in the memory of its `FileInfo`. -/
theorem cString_renamed {token : Token} {info : FileInfo} (enough : filenameOffset ≤ memory.length) :
    cString ((renamed memory (uploadFilename libs token info.filename)).drop filenameOffset) =
      if (uploadFilename libs token info.filename).length < PATH_MAX then cString (uploadFilename libs token info.filename ++ [0])
      else cString ((uploadFilename libs token info.filename).take PATH_MAX ++ memory.drop sizeofFileInfo) := by
  have front : (memory.take filenameOffset).length = filenameOffset := List.length_take_of_le enough
  rw [renamed, List.drop_left' front]
  generalize uploadFilename libs token info.filename = filename
  by_cases short : filename.length < PATH_MAX
  · rw [if_pos short]
    obtain ⟨room, size⟩ : ∃ room, PATH_MAX = filename.length + (room + 1) := ⟨PATH_MAX - filename.length - 1, by omega⟩
    have cut : (filename ++ List.replicate PATH_MAX 0).take PATH_MAX = filename ++ List.replicate (room + 1) 0 := by
      conv_lhs => rw [size]
      rw [List.take_length_add_append, List.take_replicate, Nat.min_eq_left (by omega)]
    have ended : ∀ behind : List Byte, cString (filename ++ 0 :: behind) = cString (filename ++ [0]) := by
      intro behind
      have terminated : 0 ∈ filename ++ [(0 : Byte)] := List.mem_append_right _ List.mem_cons_self
      rw [← @cString_append_of_mem _ behind terminated, List.append_assoc, List.singleton_append]
    rw [cut, List.replicate_succ, List.append_assoc, List.cons_append, ended]
  · rw [if_neg short, List.take_append_of_le_length (Nat.le_of_not_lt short)]

/-- What is read of the name of an upload lies within the payload if all of the name does. -/
theorem scan_renamed_iff {token : Token} {length : Nat} {info : FileInfo} (clean : 0 ∉ info.filename)
    (enough : filenameOffset ≤ memory.length) (limit : length ≤ sizeofFileInfo) :
    (scan (renamed memory (uploadFilename libs token info.filename)) filenameOffset).Within length ↔
      filenameOffset + (uploadFilename libs token info.filename).length < length := by
  have free : 0 ∉ uploadFilename libs token info.filename := fun zero =>
    zero_not_mem_printed clean (List.mem_of_mem_take zero)
  rw [Access.Within, scan, cString_renamed enough]
  by_cases short : (uploadFilename libs token info.filename).length < PATH_MAX
  · rw [if_pos short, cString_append free]
    exact Iff.rfl
  · have long := Nat.le_of_not_lt short
    have all := @le_length_cString ((uploadFilename libs token info.filename).take PATH_MAX) (memory.drop sizeofFileInfo)
      fun zero => free (List.mem_of_mem_take zero)
    rw [List.length_take_of_le long] at all
    have room : sizeofFileInfo = filenameOffset + PATH_MAX := rfl
    rw [if_neg short]
    dsimp only
    constructor
    · omega
    · omega

end Memory

/-! ### The requests -/

section Requests

variable {server : Server} {addr : Nat} {user : User} {r : Request} {type : MessageType} {payload : List Byte}

theorem msgRecvPayload_length {sock rest : Sock} {length maxlen : Nat} (received : msgRecvPayload sock length maxlen = .ok payload rest) :
    payload.length = length ∧ length ≤ maxlen := by
  rw [msgRecvPayload] at received
  split_ifs at received with above some
  · refine ⟨?_, Nat.le_of_not_lt above⟩
    by_cases enough : length ≤ sock.rx.length
    · obtain ⟨sched, whole⟩ := recvAll_of_le enough
      cases whole.symm.trans received
      exact List.length_take_of_le enough
    · obtain ⟨sched, ended⟩ := recvAll_of_lt (Nat.lt_of_not_le enough)
      rw [ended, RecvAll.dry] at received
      split at received
      · cases received
      · cases received
      · cases received
  · cases received
    exact ⟨(Nat.eq_zero_of_not_pos some).symm, Nat.le_of_not_lt above⟩

theorem data_length {sock : Sock} {length maxlen : Nat} (received : (msgRecvPayload sock length maxlen).data = some payload) :
    payload.length = length ∧ length ≤ maxlen := by
  cases called : msgRecvPayload sock length maxlen with
  | blocked =>
      rw [called] at received
      cases received
  | fail ret got rest =>
      rw [called] at received
      cases received
  | ok data rest =>
      rw [called] at received
      cases received
      exact msgRecvPayload_length called

theorem recvOneshot_data {sock : Sock} {length maxlen : Nat} :
    (recvOneshot sock length (some maxlen)).1 = (msgRecvPayload sock.nonblocking length maxlen).data := by
  rw [recvOneshot]
  cases msgRecvPayload sock.nonblocking length maxlen with
  | blocked => rfl
  | fail ret got rest => rfl
  | ok data rest => rfl

/-- A payload received whole is as long as its header says. -/
theorem receivedPayload_length (received : receivedPayload r type = some payload) : payload.length = r.hdr.length := by
  have oneshot : (recvOneshot r.sock r.hdr.length (some 8192)).1 = some payload → payload.length = r.hdr.length := by
    intro got
    rw [recvOneshot_data] at got
    exact (data_length got).1
  cases type with
  | uploadReq => exact (data_length received).1
  | downloadReq => exact (data_length received).1
  | listReq => exact (data_length received).1
  | _ => exact oneshot received

/-- When a request that should hold a `FileInfo` is malformed. -/
theorem malformed_iff (holds : nameOffset type = filenameOffset) (received : receivedPayload r type = some payload) :
    Malformed r type ↔ payload.length < sizeofFileInfo ∨ 0 ∉ payload.drop filenameOffset := by
  rw [Malformed, ← receivedPayload_length received, holds]
  constructor
  · rintro (⟨-, short⟩ | ⟨got, same, unterminated⟩)
    · exact .inl short
    · cases received.symm.trans same
      exact .inr unterminated
  · rintro (short | unterminated)
    · exact .inl ⟨rfl, short⟩
    · exact .inr ⟨payload, received, unterminated⟩

theorem refused_of_error {handled : Handled} {text : CStr} (error : handled.events = [sendError text]) : Refused handled := by
  intro event among
  rw [error] at among
  exact ⟨text, List.mem_singleton.mp among⟩

/-- An answer that begins with another message is no refusal. -/
theorem not_refused {handled : Handled} {other : MessageType} {body : List Byte} {events : List Event} (different : other ≠ .error)
    (answer : handled.events = .sent other body :: events) : ¬ Refused handled := by
  intro refused
  obtain ⟨text, same⟩ := refused (.sent other body) (by rw [answer]; exact List.mem_cons_self)
  exact different (Event.sent.inj same).1

/-! ### Uploads -/

theorem uploadAccept_returned {env : Env} {token : Token} {info : FileInfo} {behind : List Byte} {sock rest : Sock} {next : Server}
    {events : List Event} (returned : uploadAccept libs env server addr user token info behind sock = .returned next rest events) :
    ∃ text, events = [sendError text] := by
  unfold uploadAccept at returned
  split_ifs at returned
  · cases returned
    exact ⟨_, rfl⟩
  · dsimp only at returned
    split at returned
    · cases returned
    · split_ifs at returned
      cases returned
      exact ⟨_, rfl⟩

/-- An upload is refused for the quota or for the user's directory. -/
theorem upload_refused_iff (asked : Asked server addr user r .uploadReq) : Refused (r.serve libs server) ↔
    ∀ payload, receivedPayload r .uploadReq = some payload →
      sizeT (user.usedSpace + (FileInfo.decode (payload ++ r.env.tail)).size) > user.totalSpace ∨
        rootMade libs r.env.faults server.fs r.hdr.token = none := by
  rw [serve_upload asked.accepted asked.registered, receivedPayload, handleUpload, uploadPrepare]
  simp only [Option.bind_some, asked.record, Option.map_some]
  cases called : msgRecvPayload r.sock r.hdr.length sizeofFileInfo with
  | blocked => exact iff_of_true (List.forall_mem_nil _) fun _ same => by cases same
  | fail ret got rest => exact iff_of_true (List.forall_mem_nil _) fun _ same => by cases same
  | ok payload rest =>
      dsimp only
      have ends := @uploadAccept_ends libs r.env server addr user r.hdr.token (FileInfo.decode (payload ++ r.env.tail))
        ((payload ++ r.env.tail).drop sizeofFileInfo) rest
      cases accepted : uploadAccept libs r.env server addr user r.hdr.token (FileInfo.decode (payload ++ r.env.tail))
        ((payload ++ r.env.tail).drop sizeofFileInfo) rest with
      | blocked =>
          rw [accepted] at ends
          exact ends.elim
      | returned next sock events =>
          rw [accepted] at ends
          obtain ⟨text, error⟩ := uploadAccept_returned accepted
          refine iff_of_true (refused_of_error error) fun got same => ?_
          obtain rfl := Option.some.inj same
          by_cases exceeds : sizeT (user.usedSpace + (FileInfo.decode (payload ++ r.env.tail)).size) > user.totalSpace
          · exact .inl exceeds
          · refine .inr (Option.not_isSome_iff_eq_none.mp fun made => ends.2 ⟨Nat.le_of_not_lt exceeds, made⟩)
      | ready next place info seq sock =>
          rw [accepted] at ends
          obtain ⟨within, made, -, -⟩ := ends
          refine iff_of_false ?_ fun refused => ?_
          · dsimp only
            split
            · exact @not_refused _ .uploadRes _ _ (by decide) rfl
            · exact @not_refused _ .uploadRes _ _ (by decide) rfl
            · exact @not_refused _ .uploadRes _ _ (by decide) rfl
          · rcases refused payload rfl with exceeds | none
            · exact Nat.not_lt_of_le within exceeds
            · cases made.symm.trans none

/-- What is read of an upload is received, and a malformed one refused, under the condition. -/
theorem upload_reads_iff (asked : Asked server addr user r .uploadReq) (received : receivedPayload r .uploadReq = some payload) :
    ReadsReceived libs server user r .uploadReq ↔ PayloadCondition libs server user r payload .uploadReq := by
  have length := receivedPayload_length received
  have limit : payload.length ≤ sizeofFileInfo := by
    rw [length]
    exact (data_length received).2
  have reads : payloadReads libs server user r .uploadReq =
      uploadReads libs r.env.faults server.fs user r.hdr.token (payload ++ r.env.tail) := by rw [payloadReads, received]
  have refused := @upload_refused_iff libs server addr user r asked
  have malformed := @malformed_iff r .uploadReq payload rfl received
  have clean := zero_not_mem_cString (payload.drop 48)
  have renamed : 0 ∈ payload.drop filenameOffset →
      ((scan (renamed (payload ++ r.env.tail) (uploadFilename libs r.hdr.token (FileInfo.decode payload).filename)) filenameOffset).Within
          payload.length ↔
        filenameOffset + (uploadFilename libs r.hdr.token (FileInfo.decode payload).filename).length < payload.length) := by
    intro terminated
    refine scan_renamed_iff clean ?_ limit
    rw [List.length_append]
    exact Nat.le_add_right_of_le (Nat.le_of_lt (filenameOffset_lt terminated))
  constructor
  · intro careful
    have within := careful.within
    rw [reads, uploadReads, ← length] at within
    dsimp only at within
    obtain ⟨printed, rest⟩ := List.forall_mem_append.mp within
    have terminated := fileinfoPrint_within_iff.mp printed
    have decoded := @decode_append payload r.env.tail terminated
    rw [decoded] at rest
    refine ⟨terminated, ?_⟩
    by_cases exceeds : sizeT (user.usedSpace + (FileInfo.decode payload).size) > user.totalSpace
    · exact .inl exceeds
    · rw [if_neg exceeds] at rest
      have name := rest _ (List.mem_cons_of_mem _ (List.mem_cons_of_mem _ List.mem_cons_self))
      refine .inr ⟨(renamed terminated).mp name, ?_⟩
      rcases Nat.lt_or_ge payload.length sizeofFileInfo with short | whole
      · have none := refused.mp (careful.refuses (malformed.mpr (.inl short))) payload received
        rw [decoded] at none
        exact .inr (none.resolve_left exceeds)
      · exact .inl (Nat.le_antisymm limit whole)
  · rintro ⟨terminated, condition⟩
    have decoded := @decode_append payload r.env.tail terminated
    have name : (scan (payload ++ r.env.tail) filenameOffset).Within payload.length := scan_within_iff.mpr terminated
    obtain ⟨size, chunks, -⟩ := fields_within terminated
    constructor
    · rw [reads, uploadReads, ← length]
      dsimp only
      rw [decoded]
      refine List.forall_mem_append.mpr ⟨fileinfoPrint_within_iff.mpr terminated, List.forall_mem_cons.mpr ⟨size, ?_⟩⟩
      by_cases exceeds : sizeT (user.usedSpace + (FileInfo.decode payload).size) > user.totalSpace
      · rw [if_pos exceeds]
        exact List.forall_mem_nil _
      · rw [if_neg exceeds]
        have stored := (renamed terminated).mpr (condition.resolve_left exceeds).1
        refine List.forall_mem_cons.mpr ⟨name, List.forall_mem_cons.mpr ⟨stored, ?_⟩⟩
        split_ifs
        · exact List.forall_mem_cons.mpr ⟨stored, List.forall_mem_singleton.mpr chunks⟩
        · exact List.forall_mem_nil _
    · intro broken
      rw [refused]
      intro got same
      cases received.symm.trans same
      rw [decoded]
      rcases condition with exceeds | ⟨-, whole | none⟩
      · exact .inl exceeds
      · rcases malformed.mp broken with short | unterminated
        · exact absurd whole (Nat.ne_of_lt short)
        · exact absurd terminated unterminated
      · exact .inr none

/-! ### Downloads -/

/-- A download is refused for its path, or because there is no file to be opened there. -/
theorem download_refused_iff (asked : Asked server addr user r .downloadReq) : Refused (r.serve libs server) ↔
    ∀ payload, receivedPayload r .downloadReq = some payload →
      ∀ filename, getUserPath libs (FileInfo.decode (payload ++ r.env.tail)).filename r.hdr.token = some filename →
        fileExists r.env.faults server.fs filename ≠ 1 := by
  rw [serve_download asked.accepted asked.registered, receivedPayload, handleDownload, downloadPrepare]
  simp only [Option.bind_some, asked.record, Option.map_some]
  cases called : msgRecvPayload r.sock r.hdr.length sizeofFileInfo with
  | blocked => exact iff_of_true (List.forall_mem_nil _) fun _ same => by cases same
  | fail ret got rest => exact iff_of_true (List.forall_mem_nil _) fun _ same => by cases same
  | ok payload rest =>
      dsimp only
      rw [downloadAccept]
      have all : ∀ Q : List Byte → Prop, (∀ got, (RecvAll.ok payload rest).data = some got → Q got) ↔ Q payload := by
        intro Q
        constructor
        · exact fun every => every payload rfl
        · intro one got same
          obtain rfl := Option.some.inj same
          exact one
      rw [all]
      cases found : getUserPath libs (FileInfo.decode (payload ++ r.env.tail)).filename r.hdr.token with
      | none => exact iff_of_true (refused_of_error rfl) fun _ same => by cases same
      | some filename =>
          dsimp only
          rcases @fileExists_cases r.env.faults server.fs filename with one | zero | minus
          · rw [one, if_neg (by decide), if_neg (by decide)]
            dsimp only
            refine iff_of_false ?_ fun missing => missing filename rfl one
            split
            · exact @not_refused _ .downloadRes _ _ (by decide) rfl
            · exact @not_refused _ .downloadRes _ _ (by decide) rfl
          · rw [zero, if_neg (by decide), if_pos rfl]
            refine iff_of_true (refused_of_error rfl) fun other same => ?_
            cases same
            rw [zero]
            decide
          · rw [minus, if_pos rfl]
            refine iff_of_true (refused_of_error rfl) fun other same => ?_
            cases same
            rw [minus]
            decide

/-- The name in the reply of a download fits its field. -/
theorem filled_short {filename : CStr} {info : FileInfo} (there : fileExists r.env.faults server.fs filename = 1)
    (short : info.filename.length < PATH_MAX) :
    (fileinfoFromFilename r.env.faults libs .infoLstat .infoOpen server.fs filename info).2.filename.length < PATH_MAX := by
  obtain ⟨place, resolved⟩ := resolve_of_exists there
  have fits := (resolve_fits resolved).2
  unfold fileinfoFromFilename
  split
  · exact short
  · dsimp only
    split
    · exact fits
    · exact fits
  · exact short

/-- What is read of a download is received, and a malformed one refused, under the condition. -/
theorem download_reads_iff (asked : Asked server addr user r .downloadReq)
    (received : receivedPayload r .downloadReq = some payload) :
    ReadsReceived libs server user r .downloadReq ↔ PayloadCondition libs server user r payload .downloadReq := by
  have length := receivedPayload_length received
  have limit : payload.length ≤ sizeofFileInfo := by
    rw [length]
    exact (data_length received).2
  have reads : payloadReads libs server user r .downloadReq =
      downloadReads libs r.env.faults server.fs r.hdr.token (payload ++ r.env.tail) := by rw [payloadReads, received]
  have refused := @download_refused_iff libs server addr user r asked
  have malformed := @malformed_iff r .downloadReq payload rfl received
  constructor
  · intro careful
    have within := careful.within
    rw [reads, downloadReads, ← length] at within
    dsimp only at within
    obtain ⟨printed, rest⟩ := List.forall_mem_append.mp within
    have terminated := fileinfoPrint_within_iff.mp printed
    have decoded := @decode_append payload r.env.tail terminated
    refine ⟨terminated, ?_⟩
    rcases Nat.lt_or_ge payload.length sizeofFileInfo with short | whole
    · have none := refused.mp (careful.refuses (malformed.mpr (.inl short))) payload received
      rw [decoded] at none
      exact .inr none
    · exact .inl (Nat.le_antisymm limit whole)
  · rintro ⟨terminated, condition⟩
    have decoded := @decode_append payload r.env.tail terminated
    have name : (scan (payload ++ r.env.tail) filenameOffset).Within payload.length := scan_within_iff.mpr terminated
    have printed := (@fileinfoPrint_within_iff payload r.env.tail).mpr terminated
    obtain ⟨size, chunks, checksum⟩ := fields_within terminated
    constructor
    · rw [reads, downloadReads, ← length]
      dsimp only
      rw [decoded]
      refine List.forall_mem_append.mpr ⟨printed, List.forall_mem_cons.mpr ⟨name, ?_⟩⟩
      cases found : getUserPath libs (FileInfo.decode payload).filename r.hdr.token with
      | none => exact List.forall_mem_nil _
      | some filename =>
          dsimp only
          by_cases there : fileExists r.env.faults server.fs filename = 1
          · rw [if_pos there]
            have whole := condition.resolve_right fun missing => missing filename found there
            have short : (FileInfo.decode payload).filename.length < PATH_MAX := by
              have inside := length_cString_lt terminated
              rw [List.length_drop, whole] at inside
              exact inside
            have filled := @filled_short libs server r filename _ there short
            have reply : (Access.mk filenameOffset
                ((fileinfoFromFilename r.env.faults libs .infoLstat .infoOpen server.fs filename (FileInfo.decode payload)).2.filename.length + 1)).Within
                  payload.length := by
              rw [whole]
              exact Nat.add_le_add_left filled filenameOffset
            have all : (Access.mk 0 sizeofFileInfo).Within payload.length := by
              rw [Access.Within, whole, Nat.zero_add]
            refine List.forall_mem_append.mpr ⟨List.forall_mem_cons.mpr ⟨size, ?_⟩, ?_⟩
            · split_ifs
              · exact List.forall_mem_append.mpr ⟨printed, List.forall_mem_singleton.mpr chunks⟩
              · exact List.forall_mem_nil _
            · simp only [List.forall_mem_cons]
              exact ⟨size, chunks, checksum, reply, all, reply, List.forall_mem_nil _⟩
          · rw [if_neg there]
            exact List.forall_mem_nil _
    · intro broken
      rw [refused]
      intro got same
      cases received.symm.trans same
      rw [decoded]
      rcases condition with whole | missing
      · rcases malformed.mp broken with short | unterminated
        · exact absurd whole (Nat.ne_of_lt short)
        · exact absurd terminated unterminated
      · exact missing

/-! ### Paths -/

/-- A path that is read as a string is received, and has to have a terminator, under the condition. -/
theorem path_reads_iff (path : nameOffset type = 0) (received : receivedPayload r type = some payload)
    (reads : payloadReads libs server user r type = [scan (payload ++ r.env.tail) 0]) :
    ReadsReceived libs server user r type ↔ 0 ∈ payload := by
  have scanned := @scan_within_iff payload r.env.tail 0
  rw [List.drop_zero, receivedPayload_length received] at scanned
  constructor
  · intro careful
    have within := careful.within
    rw [reads] at within
    exact scanned.mp (within _ List.mem_cons_self)
  · intro terminated
    constructor
    · rw [reads]
      exact List.forall_mem_singleton.mpr (scanned.mpr terminated)
    · rintro (⟨holds, -⟩ | ⟨got, same, unterminated⟩)
      · cases path.symm.trans holds
      · cases received.symm.trans same
        rw [path, List.drop_zero] at unterminated
        exact absurd terminated unterminated

/-- A request whose payload does not arrive is not read, and sends nothing but errors. -/
theorem unreceived_reads (asked : Asked server addr user r type) (none : receivedPayload r type = none) :
    ReadsReceived libs server user r type := by
  constructor
  · rw [payloadReads, none]
    exact List.forall_mem_nil _
  · rintro (⟨holds, -⟩ | ⟨payload, same, -⟩)
    · rcases asked.reads with rfl | rfl | rfl | rfl | rfl
      · exact (upload_refused_iff asked).mpr fun payload same => by cases none.symm.trans same
      · exact (download_refused_iff asked).mpr fun payload same => by cases none.symm.trans same
      · cases holds
      · cases holds
      · cases holds
    · cases none.symm.trans same

/-! ### The memory behind a payload -/

/-- The request as it is handled with other memory behind its payload. -/
def Request.behind (r : Request) (tail : List Byte) : Request := { r with env := { r.env with tail := tail } }

theorem uploadAccept_tail {env : Env} {token : Token} {info : FileInfo} {behind : List Byte} {sock : Sock} (tail behind' : List Byte)
    (short : sizeT (user.usedSpace + info.size) > user.totalSpace ∨ (uploadFilename libs token info.filename).length < PATH_MAX) :
    uploadAccept libs { env with tail := tail } server addr user token info behind' sock =
      uploadAccept libs env server addr user token info behind sock := by
  unfold uploadAccept
  by_cases exceeds : sizeT (user.usedSpace + info.size) > user.totalSpace
  · rw [if_pos exceeds, if_pos exceeds]
  · have same : ∀ memory, uploadName libs token info memory = uploadFilename libs token info.filename := fun memory =>
      if_pos (short.resolve_left exceeds)
    rw [if_neg exceeds, if_neg exceeds, same, same]

theorem upload_tail (asked : Asked server addr user r .uploadReq)
    (within : ∀ access ∈ payloadReads libs server user r .uploadReq, access.Within r.hdr.length) (tail : List Byte) :
    (r.behind tail).serve libs server = r.serve libs server := by
  have prepared : uploadPrepare libs (r.behind tail).env server (some addr) r.hdr r.sock =
      uploadPrepare libs r.env server (some addr) r.hdr r.sock := by
    rw [uploadPrepare, uploadPrepare]
    simp only [Option.bind_some, asked.record, Option.map_some]
    cases called : msgRecvPayload r.sock r.hdr.length sizeofFileInfo with
    | blocked => rfl
    | fail ret got rest => rfl
    | ok payload rest =>
        have received : receivedPayload r .uploadReq = some payload := by
          rw [receivedPayload, called]
          rfl
        obtain ⟨length, limit⟩ := msgRecvPayload_length called
        rw [payloadReads, received, ← length] at within
        dsimp only [uploadReads] at within
        obtain ⟨printed, more⟩ := List.forall_mem_append.mp within
        have terminated := fileinfoPrint_within_iff.mp printed
        dsimp only [Request.behind]
        rw [decode_append terminated] at more ⊢
        rw [decode_append terminated]
        refine uploadAccept_tail tail _ ?_
        by_cases exceeds : sizeT (user.usedSpace + (FileInfo.decode payload).size) > user.totalSpace
        · exact .inl exceeds
        · rw [if_neg exceeds] at more
          have name := more _ (List.mem_cons_of_mem _ (List.mem_cons_of_mem _ List.mem_cons_self))
          rw [← length] at limit
          have enough : filenameOffset ≤ (payload ++ r.env.tail).length := by
            rw [List.length_append]
            exact Nat.le_add_right_of_le (Nat.le_of_lt (filenameOffset_lt terminated))
          have fits := (scan_renamed_iff (zero_not_mem_cString _) enough limit).mp name
          exact .inr (Nat.lt_of_add_lt_add_left (Nat.lt_of_lt_of_le fits limit))
  have served := @serve_upload libs server (r.behind tail) addr asked.accepted asked.registered
  have handled : handleUpload libs (r.behind tail).env server (some addr) r.hdr r.sock =
      handleUpload libs r.env server (some addr) r.hdr r.sock := by
    rw [handleUpload, prepared]
    rfl
  exact served.trans (handled.trans (serve_upload asked.accepted asked.registered).symm)

theorem download_tail (asked : Asked server addr user r .downloadReq)
    (within : ∀ access ∈ payloadReads libs server user r .downloadReq, access.Within r.hdr.length) (tail : List Byte) :
    (r.behind tail).serve libs server = r.serve libs server := by
  have prepared : downloadPrepare libs (r.behind tail).env server (some addr) r.hdr r.sock =
      downloadPrepare libs r.env server (some addr) r.hdr r.sock := by
    rw [downloadPrepare, downloadPrepare]
    simp only [Option.bind_some, asked.record, Option.map_some]
    cases called : msgRecvPayload r.sock r.hdr.length sizeofFileInfo with
    | blocked => rfl
    | fail ret got rest => rfl
    | ok payload rest =>
        have received : receivedPayload r .downloadReq = some payload := by
          rw [receivedPayload, called]
          rfl
        rw [payloadReads, received, ← (msgRecvPayload_length called).1] at within
        have terminated := fileinfoPrint_within_iff.mp (List.forall_mem_append.mp within).1
        dsimp only [Request.behind]
        rw [decode_append terminated, decode_append terminated]
        rfl
  have served := @serve_download libs server addr (r.behind tail) asked.accepted asked.registered
  have handled : handleDownload libs (r.behind tail).env server (some addr) r.hdr r.sock =
      handleDownload libs r.env server (some addr) r.hdr r.sock := by
    rw [handleDownload, prepared]
    rfl
  exact served.trans (handled.trans (serve_download asked.accepted asked.registered).symm)

/-- A terminated path does not depend on what lies behind the payload. -/
theorem path_tail (received : receivedPayload r type = some payload)
    (reads : payloadReads libs server user r type = [scan (payload ++ r.env.tail) 0])
    (within : ∀ access ∈ payloadReads libs server user r type, access.Within r.hdr.length) (tail : List Byte) :
    cString (payload ++ tail) = cString (payload ++ r.env.tail) := by
  rw [reads, ← receivedPayload_length received] at within
  have terminated := scan_within_iff.mp (within _ List.mem_cons_self)
  rw [List.drop_zero] at terminated
  rw [cString_append_of_mem terminated, cString_append_of_mem terminated]

theorem list_tail (asked : Asked server addr user r .listReq)
    (within : ∀ access ∈ payloadReads libs server user r .listReq, access.Within r.hdr.length) (tail : List Byte) :
    (r.behind tail).serve libs server = r.serve libs server := by
  simp only [Request.serve, onClientMessageReceived, Request.behind, asked.accepted, asked.registered, MessageType.kind,
    onStreamReq, handleList]
  cases called : msgRecvPayload r.sock r.hdr.length PATH_MAX with
  | blocked => rfl
  | fail ret got rest => rfl
  | ok payload rest =>
      have received : receivedPayload r .listReq = some payload := by
        rw [receivedPayload, called]
        rfl
      dsimp only
      rw [path_tail received (by rw [payloadReads, received]) within tail]
      rfl

theorem oneshot_tail (path : type = .removeReq ∨ type = .mkdirReq) (asked : Asked server addr user r type)
    (within : ∀ access ∈ payloadReads libs server user r type, access.Within r.hdr.length) (tail : List Byte) :
    (r.behind tail).serve libs server = r.serve libs server := by
  have same : onOneshotReq libs (r.behind tail).env server (some addr) r.hdr type (recvOneshot r.sock r.hdr.length (some 8192)).1 =
      onOneshotReq libs r.env server (some addr) r.hdr type (recvOneshot r.sock r.hdr.length (some 8192)).1 := by
    cases received : (recvOneshot r.sock r.hdr.length (some 8192)).1 with
    | none => rcases path with rfl | rfl <;> rfl
    | some payload =>
        rcases path with rfl | rfl
        · have whole : receivedPayload r .removeReq = some payload := received
          simp only [onOneshotReq, handleRemove, Request.behind, path_tail whole (by rw [payloadReads, whole]) within tail]
          rfl
        · have whole : receivedPayload r .mkdirReq = some payload := received
          simp only [onOneshotReq, handleMkdir, Request.behind, path_tail whole (by rw [payloadReads, whole]) within tail]
  rcases path with rfl | rfl
  · simp only [Request.serve, onClientMessageReceived, asked.accepted, asked.registered, MessageType.kind, payloadLimit,
      Request.behind] at same ⊢
    rw [same]
  · simp only [Request.serve, onClientMessageReceived, asked.accepted, asked.registered, MessageType.kind, payloadLimit,
      Request.behind] at same ⊢
    rw [same]

/-- The accesses listed are all that matter: if they stay within the message, what lies behind
the payload has no influence. -/
theorem serve_tail (asked : Asked server addr user r type)
    (within : ∀ access ∈ payloadReads libs server user r type, access.Within r.hdr.length) (tail : List Byte) :
    (r.behind tail).serve libs server = r.serve libs server := by
  rcases asked.reads with rfl | rfl | rfl | rfl | rfl
  · exact upload_tail asked within tail
  · exact download_tail asked within tail
  · exact list_tail asked within tail
  · exact oneshot_tail (.inl rfl) asked within tail
  · exact oneshot_tail (.inr rfl) asked within tail

end Requests

/-- A request to make a directory. -/
def directoryAsked (payload : List Byte) : Request := request .mkdirReq someToken payload []

theorem directoryAsked_asked (payload : List Byte) : Asked tokenKnown 0 (userInit someToken) (directoryAsked payload) .mkdirReq where
  reads := .inr (.inr (.inr (.inr rfl)))
  accepted := by
    simp [directoryAsked, request, dispatch]
    decide
  registered := tokenKnown_lookup
  record := tokenKnown_record

theorem directoryAsked_received {payload : List Byte} (short : payload.length ≤ 8192) :
    receivedPayload (directoryAsked payload) .mkdirReq = some payload := by
  have arrived := @msgRecvPayload_append payload [] .failed 8192 short
  have whole : receivedPayload (directoryAsked payload) .mkdirReq =
      (msgRecvPayload ⟨payload ++ [], [], .failed⟩ payload.length 8192).data := recvOneshot_data
  rw [whole, arrived]
  rfl

end MiniDropbox
