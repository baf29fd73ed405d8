/-
The assertions a message leads to.

`msg_type_to_str` fails on a type that is not in its table, and the dispatcher calls it
with what the client has sent. The other assertions ask that `send_all` and `recv_all`
get a buffer that is there and not empty. `Request.checks` collects those that handling
a message may come to, each with the value it looks at: the lengths of what handlers
send, the lengths they ask for after comparing them with their limits, and those of the
chunks of a transfer. `serve_checks` says that a type the table knows lets all of them
pass, `assertions_iff` what follows for every run of the main loop.
-/

import MiniDropbox.Bookings

namespace MiniDropbox

/-- An assertion with the value it looks at: the default arm of `msg_type_to_str`; the
buffers of `send_all` and `recv_all`; and the block `handle_list` allocates. -/
inductive Check where
  | typeName (type : Nat)
  | sendAll (len : Nat)
  | recvAll (len : Nat)
  | allocated (len : Nat)
  deriving DecidableEq

/-- `malloc` succeeds up to the largest limit of the receive calls. -/
def MALLOC_MAX : Nat := 8192

/-- The assertion does not fail. The block behind a receive call is allocated for it. -/
def Check.Passes : Check → Prop
  | .typeName type => (MessageType.ofNat? type).isSome
  | .sendAll len => 0 < len
  | .recvAll len => 0 < len ∧ len ≤ MALLOC_MAX
  | .allocated len => len ≤ MALLOC_MAX

instance (c : Check) : Decidable c.Passes := by
  cases c <;> unfold Check.Passes <;> infer_instance

/-! ### Sending and receiving -/

/-- The checks of `msg_send`, for the lengths of the payload header and the payload. -/
def msgSendChecks (payloadHdr payload : Option Nat) : List Check :=
  .sendAll sizeofMessageHdr :: ((payloadHdr.map .sendAll).toList ++ (payload.map .sendAll).toList)

/-- The checks of `msg_recv_payload`. -/
def payloadChecks (length maxlen : Nat) : List Check :=
  if length > maxlen then [] else if length > 0 then [.recvAll length] else []

/-- The length of the payload a reply points to, `none` for those sent without one: the end
of a listing, the answer to `MKDIR_REQ`, and the refusal of a null token. -/
def payloadLength (type : MessageType) (body : List Byte) : Option Nat :=
  if type = .none ∨ type = .mkdirRes ∨ (type = .authFail ∧ body = []) then none else some body.length

/-- The checks of what a handler sends. The entries of a listing are allocated first. -/
def Event.checks : Event → List Check
  | .sent type body =>
      (if type = .fileinfo then [.allocated sizeofFileInfo] else []) ++
        msgSendChecks none (payloadLength type body)
  | .fileSend _ _ => []
  | .fileRecv _ => []

/-- The checks of `chunk_recv`. -/
def chunkRecvChecks (sock : Sock) : List Check :=
  .recvAll sizeofMessageHdr ::
    match msgRecvHeader sock with
    | .ok hdr _ =>
        if hdr.length < sizeofChunkHdr then [] else payloadChecks hdr.length (sizeofChunkHdr + CHUNK_SIZE)
    | _ => []

/-- The checks of a step of `file_recv`. -/
def recvChecks (count : Nat) (x : RecvSys × RecvState) : List Check :=
  match x.2.pc with
  | .top seq => if seq < count then chunkRecvChecks x.2.sock else []
  | .again _ => msgSendChecks none none
  | .ok _ _ => msgSendChecks none none
  | _ => []

/-- The checks of a step of `file_send`. -/
def sendChecks (x : SendSys × SendState) : List Check :=
  match x.2.pc with
  | .send _ _ chunk => msgSendChecks (some sizeofChunkHdr) (some chunk.hdr.length)
  | .await _ _ _ =>
      .recvAll sizeofMessageHdr ::
        match msgRecvHeader x.2.sock with
        | .ok hdr _ => payloadChecks hdr.length 0
        | _ => []
  | _ => []

/-! ### Handlers -/

section Handlers

variable (libs : Externals) (env : Env)

/-- The checks of `handle_upload`, beside those of what it sends. -/
def uploadChecks (server : Server) (user : Option Nat) (hdr : MessageHdr) (sock : Sock) : List Check :=
  (if user.isSome then payloadChecks hdr.length sizeofFileInfo else []) ++
    match uploadPrepare libs env server user hdr sock with
    | .ready next _ info _ sock =>
        (((UploadCall.mk next.fs info sock).steps libs env).getD []).flatMap (recvChecks info.chunkCount)
    | _ => []

/-- The checks of `handle_download`, beside those of what it sends. -/
def downloadChecks (server : Server) (user : Option Nat) (hdr : MessageHdr) (sock : Sock) : List Check :=
  (if user.isSome then payloadChecks hdr.length sizeofFileInfo else []) ++
    match downloadPrepare libs env server user hdr sock with
    | .ready next _ _ info startChunk sock =>
        match (DownloadCall.mk next.fs info.filename startChunk sock).source libs env with
        | some (content, count, sys) =>
            (Counted.trace (sendStep libs content count) sys sock.fuel (sendStart startChunk sock)).flatMap
              sendChecks
        | none => []
    | _ => []

/-- The checks of the handler of an accepted message. A type that no handler takes is named
once more. -/
def handlerChecks (server : Server) (user : Option Nat) (hdr : MessageHdr) (type : MessageType)
    (sock : Sock) : List Check :=
  match type.kind, type with
  | .stream, .uploadReq => uploadChecks libs env server user hdr sock
  | .stream, .downloadReq => downloadChecks libs env server user hdr sock
  | .stream, _ => if user.isSome then payloadChecks hdr.length PATH_MAX else []
  | .oneshot, _ =>
      match payloadLimit type user with
      | some maxlen => payloadChecks hdr.length maxlen
      | none => []
  | .ignored, _ => if type = .none then [] else [.typeName hdr.type]

end Handlers

/-- The checks that handling a message comes to. -/
def Request.checks (libs : Externals) (server : Server) (r : Request) : List Check :=
  .typeName r.hdr.type ::
    match dispatch r.hdr with
    | .abort => []
    | .refuse => .typeName r.hdr.type :: (r.serve libs server).events.flatMap Event.checks
    | .accept type =>
        match umanGetUser server.uman r.hdr.token with
        | none => []
        | some user => handlerChecks libs r.env server user r.hdr type r.sock ++
            (r.serve libs server).events.flatMap Event.checks

section Checks

variable {libs : Externals} {env : Env} {server : Server} {r : Request}

theorem payloadChecks_pass {length maxlen : Nat} (limit : maxlen ≤ MALLOC_MAX) :
    ∀ c ∈ payloadChecks length maxlen, c.Passes := by
  intro c made
  unfold payloadChecks at made
  split_ifs at made with excess positive
  · cases made
  · cases List.mem_singleton.mp made
    exact ⟨positive, Nat.le_trans (Nat.le_of_not_lt excess) limit⟩
  · cases made

theorem msgSendChecks_pass {payloadHdr payload : Option Nat} (header : ∀ n ∈ payloadHdr, 0 < n)
    (body : ∀ n ∈ payload, 0 < n) : ∀ c ∈ msgSendChecks payloadHdr payload, c.Passes := by
  intro c made
  simp only [msgSendChecks, List.mem_cons, List.mem_append, Option.mem_toList, Option.map_eq_some_iff] at made
  rcases made with rfl | ⟨n, mem, rfl⟩ | ⟨n, mem, rfl⟩
  · exact (by decide : 0 < sizeofMessageHdr)
  · exact header n mem
  · exact body n mem

theorem recvHeader_passes : (Check.recvAll sizeofMessageHdr).Passes := by decide

/-- Every step of `file_recv` passes its checks. -/
theorem recvChecks_pass {count : Nat} {x : RecvSys × RecvState} : ∀ c ∈ recvChecks count x, c.Passes := by
  intro c made
  unfold recvChecks at made
  split at made
  · split_ifs at made
    · rcases List.mem_cons.mp made with rfl | payload
      · exact recvHeader_passes
      · split at payload
        · split_ifs at payload
          · cases payload
          · exact payloadChecks_pass (by decide) c payload
        · cases payload
    · cases made
  · exact msgSendChecks_pass (by simp) (by simp) c made
  · exact msgSendChecks_pass (by simp) (by simp) c made
  · cases made

/-- A chunk about to be sent, or waited for, is not empty. -/
def ChunkThere (s : SendState) : Prop :=
  ∀ seq start chunk, s.pc = .send seq start chunk ∨ s.pc = .await seq start chunk → 0 < chunk.hdr.length

/-- `file_send` makes chunks of what it has read only. -/
theorem sendStep_chunkThere {content : List Byte} {count : Nat} {sys : SendSys} {s next : SendState}
    {out : List Byte} (there : ChunkThere s) (step : sendStep libs content count sys s = some (next, out)) :
    ChunkThere next := by
  have gone : ∀ {stats : FileSendStats} {off : Nat} {sock : Sock}, ChunkThere ⟨.ret stats, off, sock⟩ := by
    rintro stats off sock seq start chunk (pc | pc) <;> cases pc
  cases pc : s.pc with
  | top seq start =>
      simp only [sendStep, pc] at step
      split at step
      · split at step
        · cases step
          exact gone
        · split_ifs at step with nothing
          · cases step
            exact gone
          · cases step
            rintro seq' start' chunk (made | made) <;> cases made
            exact List.length_pos_iff.mpr nothing
      · cases step
        exact gone
  | send seq start chunk =>
      simp only [sendStep, pc] at step
      split_ifs at step
      · cases step
        exact gone
      · cases step
        rintro seq' start' chunk' (made | made) <;> cases made
        exact there seq start chunk (.inl pc)
  | await seq start chunk =>
      simp only [sendStep, pc] at step
      split at step
      · cases step
      · cases step
        exact gone
      · split_ifs at step
        · cases step
          rintro seq' start' chunk' (made | made) <;> cases made
        · cases step
          rintro seq' start' chunk' (made | made) <;> cases made
          exact there seq start chunk (.inr pc)
  | ret stats =>
      simp only [sendStep, pc] at step
      cases step

/-- Every step of `file_send` passes its checks. -/
theorem sendChecks_pass {x : SendSys × SendState} (there : ChunkThere x.2) :
    ∀ c ∈ sendChecks x, c.Passes := by
  intro c made
  unfold sendChecks at made
  split at made
  · rename_i seq start chunk pc
    refine msgSendChecks_pass ?_ ?_ c made
    · rintro _ ⟨⟩
      decide
    · rintro _ ⟨⟩
      exact there seq start chunk (.inl pc)
  · rcases List.mem_cons.mp made with rfl | payload
    · exact recvHeader_passes
    · split at payload
      · exact payloadChecks_pass (by decide) c payload
      · cases payload
  · cases made

/-! ### Replies -/

/-- A reply with a payload has one that is not empty. -/
def Event.Sendable : Event → Prop
  | .sent type body => body = [] → type = .none ∨ type = .mkdirRes ∨ type = .authFail
  | .fileSend _ _ => True
  | .fileRecv _ => True

theorem Event.Sendable.checks {event : Event} (sendable : event.Sendable) :
    ∀ c ∈ event.checks, c.Passes := by
  cases event with
  | sent type body =>
      intro c made
      rcases List.mem_append.mp made with alloc | sends
      · split_ifs at alloc
        · cases List.mem_singleton.mp alloc
          exact (by decide : sizeofFileInfo ≤ MALLOC_MAX)
        · cases alloc
      · refine msgSendChecks_pass (by simp) ?_ c sends
        intro n pointed
        unfold payloadLength at pointed
        split_ifs at pointed with bare
        · cases pointed
        · cases pointed
          refine List.length_pos_iff.mpr fun empty => bare ?_
          rcases sendable empty with none | made | refused
          · exact .inl none
          · exact .inr (.inl made)
          · exact .inr (.inr ⟨refused, empty⟩)
  | fileSend path startChunk => exact fun c => nofun
  | fileRecv path => exact fun c => nofun

/-- Something other than an empty body is sendable under any type. -/
theorem sendable_of_ne {type : MessageType} {body : List Byte} (some : body ≠ []) :
    (Event.sent type body).Sendable := fun empty => absurd empty some

theorem sendError_sendable (text : CStr) : (sendError text).Sendable := sendable_of_ne (by simp)

theorem encode_sendable {type : MessageType} {info : FileInfo} : (Event.sent type info.encode).Sendable := by
  refine sendable_of_ne (List.ne_nil_of_length_pos ?_)
  rw [FileInfo.length_encode]
  decide

/-- All of the events can be sent. -/
def AllSendable (events : List Event) : Prop := ∀ event ∈ events, event.Sendable

theorem AllSendable.nil : AllSendable [] := fun _ => nofun

theorem AllSendable.one {event : Event} (sendable : event.Sendable) : AllSendable [event] := by
  intro other mem
  cases List.mem_singleton.mp mem
  exact sendable

theorem AllSendable.append {xs ys : List Event} (first : AllSendable xs) (second : AllSendable ys) :
    AllSendable (xs ++ ys) := by
  intro event mem
  rcases List.mem_append.mp mem with early | late
  · exact first event early
  · exact second event late

theorem handleAuth_sendable {hdr : MessageHdr} {next : Server} {events : List Event}
    (handled : handleAuth libs env server hdr = some (next, events)) : AllSendable events := by
  unfold handleAuth at handled
  dsimp only at handled
  obtain ⟨uman, -, same⟩ := Option.bind_eq_some_iff.mp handled
  cases same
  cases perform env.faults .mkdir _ _ with
  | error errno => exact .one (sendable_of_ne (by simp))
  | ok fs => exact .one (sendable_of_ne (by simp))

theorem handleRemove_sendable {user : Option Nat} {hdr : MessageHdr} {payload : Option (List Byte)} :
    AllSendable (handleRemove libs env server user hdr payload).2 := by
  unfold handleRemove
  split
  · exact .one (sendError_sendable _)
  · exact .nil
  · split
    · exact .one (sendError_sendable _)
    · dsimp only
      split_ifs
      · exact .one (sendError_sendable _)
      all_goals
        split
        · exact .one (sendError_sendable _)
        · exact .one encode_sendable

theorem handleMkdir_sendable {user : Option Nat} {hdr : MessageHdr} {payload : Option (List Byte)} :
    AllSendable (handleMkdir libs env server user hdr payload).2 := by
  unfold handleMkdir
  split
  · exact .one (sendError_sendable _)
  · exact .nil
  · dsimp only
    split_ifs
    · exact .one fun _ => .inr (.inl rfl)
    · exact .one (sendError_sendable _)
    · exact .one (sendError_sendable _)

theorem uploadPrepare_sendable {user : Option Nat} {hdr : MessageHdr} {sock rest : Sock} {next : Server}
    {events : List Event} (early : uploadPrepare libs env server user hdr sock = .returned next rest events) :
    AllSendable events := by
  unfold uploadPrepare at early
  split at early
  · cases early
    exact .one (sendError_sendable _)
  · split at early
    · cases early
    · cases early
      exact .nil
    · dsimp only at early
      unfold uploadAccept at early
      split_ifs at early
      · cases early
        exact .one (sendError_sendable _)
      · dsimp only at early
        split at early
        · cases early
        · split_ifs at early
          cases early
          exact .one (sendError_sendable _)

theorem uploadFinish_sendable {addr : Nat} {place : Option Nat} {info : FileInfo} {stats : FileRecvStats} :
    AllSendable (uploadFinish server addr place info stats).2 := by
  unfold uploadFinish
  dsimp only
  split_ifs
  all_goals first
    | exact .nil
    | exact .one (sendError_sendable _)
    | exact .one (sendable_of_ne (by simp))

theorem handleUpload_sendable {user : Option Nat} {hdr : MessageHdr} {sock : Sock} :
    AllSendable (handleUpload libs env server user hdr sock).events := by
  unfold handleUpload
  cases early : uploadPrepare libs env server user hdr sock with
  | returned next rest events => exact uploadPrepare_sendable early
  | blocked => exact .nil
  | ready next place info seq rest =>
      have opening : AllSendable [uploadRes seq, .fileRecv info.filename] :=
        .append (.one (sendable_of_ne (by simp [LittleEndian.encode]))) (.one trivial)
      dsimp only
      cases fileRecv libs env _ info rest with
      | blocked fs => exact opening
      | faulted fs => exact opening
      | ret fs sock stats => exact opening.append uploadFinish_sendable

theorem downloadPrepare_sendable {user : Option Nat} {hdr : MessageHdr} {sock rest : Sock} {next : Server}
    {events : List Event} (early : downloadPrepare libs env server user hdr sock = .returned next rest events) :
    AllSendable events := by
  unfold downloadPrepare at early
  split at early
  · cases early
    exact .one (sendError_sendable _)
  · split at early
    · cases early
    · cases early
      exact .nil
    · unfold downloadAccept at early
      split at early
      · cases early
        exact .one (sendError_sendable _)
      · dsimp only at early
        split_ifs at early
        · cases early
          exact .one (sendError_sendable _)
        · cases early
          exact .one (sendError_sendable _)

theorem handleDownload_sendable {user : Option Nat} {hdr : MessageHdr} {sock : Sock} :
    AllSendable (handleDownload libs env server user hdr sock).events := by
  unfold handleDownload
  cases early : downloadPrepare libs env server user hdr sock with
  | returned next rest events => exact downloadPrepare_sendable early
  | blocked => exact .nil
  | ready next place path info startChunk rest =>
      have opening : AllSendable [Event.sent .downloadRes info.encode, .fileSend info.filename startChunk] :=
        .append (.one encode_sendable) (.one trivial)
      dsimp only
      cases fileSend libs env next.fs info.filename startChunk rest with
      | none => exact opening
      | some returned =>
          refine opening.append ?_
          unfold downloadFinish
          split_ifs
          · exact .one (sendError_sendable _)
          · exact .nil

theorem handleList_sendable {user : Option Nat} {hdr : MessageHdr} {sock : Sock} :
    AllSendable (handleList libs env server user hdr sock).events := by
  unfold handleList
  split
  · exact .one (sendError_sendable _)
  · split
    · exact .nil
    · exact .nil
    · split
      · exact .nil
      · split
        · exact .one (sendError_sendable _)
        · refine .append ?_ (.one fun _ => .inl rfl)
          intro event mem
          obtain ⟨name, -, rfl⟩ := List.mem_map.mp mem
          exact encode_sendable

/-- Whatever a message leads the server to send can be sent. -/
theorem serve_sendable : AllSendable (r.serve libs server).events := by
  unfold Request.serve onClientMessageReceived
  cases dispatch r.hdr with
  | abort => exact .nil
  | refuse => exact .one fun _ => .inr (.inr rfl)
  | accept type =>
      dsimp only
      cases umanGetUser server.uman r.hdr.token with
      | none => exact .nil
      | some user =>
          cases type
          case uploadReq => exact handleUpload_sendable
          case downloadReq => exact handleDownload_sendable
          case listReq => exact handleList_sendable
          case removeReq => exact handleRemove_sendable
          case mkdirReq => exact handleMkdir_sendable
          case authReq =>
            simp only [MessageType.kind, onOneshotReq]
            cases handled : handleAuth libs r.env server r.hdr with
            | none => exact .nil
            | some answered => exact handleAuth_sendable handled
          all_goals exact .nil

/-! ### Messages -/

theorem received_checks_pass {user : Option Nat} {length maxlen : Nat} (limit : maxlen ≤ MALLOC_MAX) :
    ∀ c ∈ (if user.isSome then payloadChecks length maxlen else []), c.Passes := by
  split_ifs
  · exact payloadChecks_pass limit
  · exact fun c => nofun

theorem uploadChecks_pass {user : Option Nat} {hdr : MessageHdr} {sock : Sock} :
    ∀ c ∈ uploadChecks libs env server user hdr sock, c.Passes := by
  intro c made
  rcases List.mem_append.mp made with payload | steps
  · exact received_checks_pass (by decide) c payload
  · split at steps
    · obtain ⟨x, -, here⟩ := List.mem_flatMap.mp steps
      exact recvChecks_pass c here
    · cases steps

theorem sendStart_chunkThere (startChunk : Nat) (sock : Sock) : ChunkThere (sendStart startChunk sock) := by
  intro seq start chunk pc
  unfold sendStart at pc
  split_ifs at pc <;> rcases pc with pc | pc <;> cases pc

theorem downloadChecks_pass {user : Option Nat} {hdr : MessageHdr} {sock : Sock} :
    ∀ c ∈ downloadChecks libs env server user hdr sock, c.Passes := by
  intro c made
  rcases List.mem_append.mp made with payload | steps
  · exact received_checks_pass (by decide) c payload
  · split at steps
    · split at steps
      · obtain ⟨x, met, here⟩ := List.mem_flatMap.mp steps
        have there := Counted.trace_invariant (fun _ _ _ _ => sendStep_chunkThere)
          (sendStart_chunkThere _ _) x met
        exact sendChecks_pass there c here
      · cases steps
    · cases steps

theorem handlerChecks_pass {user : Option Nat} {hdr : MessageHdr} {type : MessageType} {sock : Sock}
    (known : (MessageType.ofNat? hdr.type).isSome) :
    ∀ c ∈ handlerChecks libs env server user hdr type sock, c.Passes := by
  intro c made
  unfold handlerChecks at made
  split at made
  · exact uploadChecks_pass c made
  · exact downloadChecks_pass c made
  · exact received_checks_pass (by decide) c made
  · split at made
    · rename_i maxlen limit
      refine payloadChecks_pass ?_ c made
      unfold payloadLimit at limit
      split at limit <;> cases limit <;> decide
    · cases made
  · split_ifs at made
    · cases made
    · cases List.mem_singleton.mp made
      exact known

/-- A message passes all its checks exactly when the table of types knows its type. -/
theorem serve_checks : (∀ c ∈ r.checks libs server, c.Passes) ↔ (MessageType.ofNat? r.hdr.type).isSome := by
  refine ⟨fun pass => pass _ List.mem_cons_self, fun known => ?_⟩
  have replies : ∀ c ∈ (r.serve libs server).events.flatMap Event.checks, c.Passes := by
    intro c made
    obtain ⟨event, mem, here⟩ := List.mem_flatMap.mp made
    exact (serve_sendable event mem).checks c here
  intro c made
  rcases List.mem_cons.mp made with rfl | later
  · exact known
  · split at later
    · cases later
    · rcases List.mem_cons.mp later with rfl | reply
      · exact known
      · exact replies c reply
    · split at later
      · cases later
      · rcases List.mem_append.mp later with handler | reply
        · exact handlerChecks_pass known c handler
        · exact replies c reply

/-- The server aborts exactly in a message whose type the table does not know. -/
theorem serve_aborted_iff : (r.serve libs server).status = .aborted ↔ MessageType.ofNat? r.hdr.type = none := by
  constructor
  · intro aborted
    by_contra known
    obtain ⟨type, known⟩ := Option.ne_none_iff_exists'.mp known
    unfold Request.serve onClientMessageReceived dispatch at aborted
    rw [known] at aborted
    dsimp only at aborted
    split at aborted
    · rename_i abort
      split_ifs at abort
    · cases aborted
    · rename_i type' accepted
      split at aborted
      · cases aborted
      · rename_i user lookup
        cases type'
        case uploadReq =>
          rcases @handleUpload_status libs server r.env user r.hdr r.sock with closed | blocked | faulted
          · cases closed.symm.trans aborted
          · cases blocked.symm.trans aborted
          · cases faulted.symm.trans aborted
        case downloadReq =>
          rcases @handleDownload_status libs server r.env user r.hdr r.sock with closed | blocked
          · cases closed.symm.trans aborted
          · cases blocked.symm.trans aborted
        case listReq =>
          simp only [MessageType.kind, onStreamReq, handleList] at aborted
          split at aborted
          · cases aborted
          · split at aborted
            · cases aborted
            · cases aborted
            · split at aborted
              · cases aborted
              · split at aborted <;> cases aborted
        case authReq =>
          simp only [MessageType.kind, onOneshotReq] at aborted
          split at aborted <;> cases aborted
        all_goals cases aborted
  · intro unknown
    simp only [Request.serve, onClientMessageReceived, dispatch, unknown]

end Checks

/-! ### The main loop -/

/-- A client's socket that is reported readable, and what surrounds the handling. -/
structure Ready where
  sock : Sock
  env : Env

/-- The message the main loop hands on, if it receives a header. -/
def Ready.message (ready : Ready) : Option Request :=
  match msgRecvHeader ready.sock.nonblocking with
  | .ok hdr rest => some ⟨hdr, { rest with fin := ready.sock.fin }, ready.env⟩
  | _ => none

/-- The checks that the main loop and the handlers come to. -/
def Ready.checks (libs : Externals) (server : Server) (ready : Ready) : List Check :=
  .recvAll sizeofMessageHdr ::
    match ready.message with
    | some r => r.checks libs server
    | none => []

/-- The sockets reported in a run, each with the state in which the main loop takes it up,
up to one after which the server does not go on. -/
def readyRun (libs : Externals) (server : Server) : List Ready → List (Server × Ready)
  | [] => []
  | ready :: later =>
      let handled := onReadable libs ready.env server ready.sock
      (server, ready) :: if handled.status.goesOn then readyRun libs handled.server later else []

/-- No assertion fails: all the checks pass, and the process is not aborted. -/
structure AssertionsHold (libs : Externals) (server : Server) (ready : Ready) : Prop where
  pass : ∀ c ∈ ready.checks libs server, c.Passes
  alive : (onReadable libs ready.env server ready.sock).status ≠ .aborted

/-- A header that has arrived has a type from the table. -/
def KnownType (ready : Ready) : Prop :=
  sizeofMessageHdr ≤ ready.sock.rx.length →
    (MessageHdr.decode (ready.sock.rx.take sizeofMessageHdr)).type < MessageType.all.length

theorem ofNat_isSome_iff {type : Nat} :
    (MessageType.ofNat? type).isSome ↔ type < MessageType.all.length := by
  rw [MessageType.ofNat?, Option.isSome_iff_exists]
  constructor
  · rintro ⟨t, found⟩
    exact (List.getElem?_eq_some_iff.mp found).1
  · exact fun below => ⟨_, List.getElem?_eq_getElem below⟩

section Loop

variable {libs : Externals} {server : Server} {ready : Ready} {r : Request}

/-- The header is in the first bytes that have arrived. -/
theorem message_of_arrived (arrived : sizeofMessageHdr ≤ ready.sock.rx.length) :
    ∃ r, ready.message = some r ∧ r.hdr = MessageHdr.decode (ready.sock.rx.take sizeofMessageHdr) := by
  obtain ⟨sched, received⟩ := @recvAll_of_le ready.sock.nonblocking sizeofMessageHdr arrived
  refine ⟨⟨MessageHdr.decode (ready.sock.rx.take sizeofMessageHdr),
    ⟨ready.sock.rx.drop sizeofMessageHdr, sched, ready.sock.fin⟩, ready.env⟩, ?_, rfl⟩
  rw [Ready.message, msgRecvHeader, received]
  rfl

/-- Where a header comes, the main loop serves the message. -/
theorem onReadable_message (made : ready.message = some r) :
    onReadable libs ready.env server ready.sock = r.serve libs server := by
  unfold Ready.message at made
  unfold onReadable
  cases received : msgRecvHeader ready.sock.nonblocking with
  | ok hdr rest =>
      rw [received] at made
      cases made
      rfl
  | fail ret rest =>
      rw [received] at made
      cases made
  | blocked =>
      rw [received] at made
      cases made

/-- Where none comes, the process goes on. -/
theorem onReadable_quiet (quiet : ready.message = none) :
    (onReadable libs ready.env server ready.sock).status ≠ .aborted := by
  unfold Ready.message at quiet
  unfold onReadable
  cases received : msgRecvHeader ready.sock.nonblocking with
  | ok hdr rest =>
      rw [received] at quiet
      cases quiet
  | fail ret rest =>
      dsimp only
      split_ifs <;> nofun
  | blocked => nofun

theorem assertionsHold_iff : AssertionsHold libs server ready ↔ KnownType ready := by
  by_cases arrived : sizeofMessageHdr ≤ ready.sock.rx.length
  · obtain ⟨r, made, header⟩ := message_of_arrived arrived
    have known : KnownType ready ↔ (MessageType.ofNat? r.hdr.type).isSome := by
      rw [ofNat_isSome_iff, header]
      exact ⟨fun known => known arrived, fun known _ => known⟩
    rw [known]
    constructor
    · intro holds
      have pass := holds.pass
      rw [Ready.checks, made] at pass
      exact serve_checks.mp fun c mem => pass c (List.mem_cons_of_mem _ mem)
    · intro named
      refine ⟨fun c mem => ?_, ?_⟩
      · rw [Ready.checks, made] at mem
        rcases List.mem_cons.mp mem with rfl | later
        · exact recvHeader_passes
        · exact serve_checks.mpr named c later
      · rw [onReadable_message made]
        intro aborted
        rw [serve_aborted_iff.mp aborted] at named
        cases named
  · have quiet : ready.message = none := by
      have short : ready.sock.nonblocking.rx.length < sizeofMessageHdr := Nat.lt_of_not_le arrived
      obtain ⟨sched, received⟩ := msgRecvHeader_of_lt short
      rw [Ready.message, received]
      cases ready.sock.nonblocking.fin <;> rfl
    refine ⟨fun _ here => absurd here arrived, fun _ => ⟨fun c mem => ?_, onReadable_quiet quiet⟩⟩
    rw [Ready.checks, quiet] at mem
    cases List.mem_singleton.mp mem
    exact recvHeader_passes

end Loop

/-- When no assertion fails: in every run of the main loop, from any state of the server and
whatever bytes clients send, no assertion fails if and only if every header that has
arrived when a socket is reported has a type from the table. -/
theorem assertions_iff (libs : Externals) (start : Server) (reports : List Ready) :
    (∀ p ∈ readyRun libs start reports, AssertionsHold libs p.1 p.2) ↔
      ∀ p ∈ readyRun libs start reports, KnownType p.2 :=
  forall₂_congr fun _ _ => assertionsHold_iff

/-- A client that sends a header with the first type that is not in the table. -/
def unnamed : Ready :=
  ⟨⟨(MessageHdr.mk 0 MessageType.all.length Token.null (0, 0)).encode, [], .opened⟩, default⟩

/-- It ends the process, whatever its token. -/
theorem assertions_unnamed :
    ¬ ∀ p ∈ readyRun libraries (boot [] []) [unnamed], AssertionsHold libraries p.1 p.2 := by
  intro hold
  have met : (boot [] [], unnamed) ∈ readyRun libraries (boot [] []) [unnamed] := List.mem_cons_self
  exact (hold _ met).alive (by decide)

end MiniDropbox
