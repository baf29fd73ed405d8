/-
The commands that ask the server once: `auth`, `mkdir` and `rm` of the client.

Each opens a connection, sends its request and reports the answer. The server goes on reading the connection
behind the message it has handled, so a path that its handler has left there is read as headers (`drain`).
Composed with the server, a command says what the box answers (`commands_tell`): `mkdir` and `rm` end with 0
exactly if it has been done, `auth` ends with 0 whatever the answer is. A path of a stranger that is as long as
a header ends the server instead (`stranger_aborts`).
-/

import MiniDropbox.Boundary
import MiniDropbox.Box
import MiniDropbox.Listing

namespace MiniDropbox

open Lexical TreeStore

/-! ### The client -/

/-- What a command prints. -/
inductive Said where
  | notReceived (type : MessageType) (ret : Int)
  | unexpected (type : Nat)
  | reply (type : Nat) (text : CStr)
  | failed (text : CStr)
  | deleted (name : CStr)
  | created
  deriving DecidableEq

/-- How a command ends: with what it returns and prints last, or it waits, fails the assertion of
`msg_type_to_str`, or frees what it has not allocated. -/
inductive CmdEnd where
  | ret (code : Nat) (said : Said)
  | blocked
  | aborted
  | faulted
  deriving DecidableEq

/-- Mirrors `cmd_auth` after it has sent its request. `tail` is the memory behind a payload. -/
def cmdAuth (tail : List Byte) (sock : Sock) : CmdEnd :=
  match msgRecv sock 1024 with
  | .blocked => .blocked
  | .fail ret _ => .ret 1 (.notReceived .authOk ret)
  | .ok (hdr, payload) _ =>
      if (MessageType.ofNat? hdr.type).isNone then .aborted
      else .ret 0 (.reply hdr.type (if payload = [] then cstr "(null)" else cString (payload ++ tail)))

/-- What `cmd_rm` and `cmd_mkdir` have in common: the answer, of the expected type or an error. -/
def recvAnswer (expected : MessageType) (sock : Sock) : Except CmdEnd (MessageHdr × List Byte) :=
  match msgRecvHeader sock with
  | .blocked => .error .blocked
  | .fail ret _ => .error (.ret 1 (.notReceived expected ret))
  | .ok hdr sock =>
      if hdr.type ≠ MessageType.error.toNat ∧ hdr.type ≠ expected.toNat then
        .error (if (MessageType.ofNat? hdr.type).isNone then .aborted else .ret 1 (.unexpected hdr.type))
      else match msgRecvPayload sock hdr.length 8192 with
        | .blocked => .error .blocked
        | .fail ret _ _ => .error (.ret 1 (.notReceived expected ret))
        | .ok payload _ => .ok (hdr, payload)

/-- Mirrors `cmd_rm` after it has sent its request. -/
def cmdRm (tail : List Byte) (sock : Sock) : CmdEnd :=
  match recvAnswer .removeRes sock with
  | .error ended => ended
  | .ok (hdr, payload) =>
      -- without a payload, what is printed and freed is still the argument
      if payload = [] then .faulted
      else if hdr.type = MessageType.error.toNat then .ret 1 (.failed (cString (payload ++ tail)))
      else if hdr.type ≠ MessageType.removeRes.toNat then .ret 1 (.unexpected hdr.type)
      else .ret 0 (.deleted (FileInfo.decode (payload ++ tail)).filename)

/-- Mirrors `cmd_mkdir` after it has sent its request for `path`. -/
def cmdMkdir (path : CStr) (tail : List Byte) (sock : Sock) : CmdEnd :=
  match recvAnswer .mkdirRes sock with
  | .error ended => ended
  | .ok (hdr, payload) =>
      if hdr.type = MessageType.error.toNat then
        .ret 1 (.failed (if payload = [] then path else cString (payload ++ tail)))
      else .ret 0 .created

inductive Command where
  | auth
  | mkdir (path : CStr)
  | rm (path : CStr)

namespace Command

def type : Command → MessageType
  | .auth => .authReq
  | .mkdir _ => .mkdirReq
  | .rm _ => .removeReq

/-- The payload of the request, with the terminator. -/
def payload : Command → List Byte
  | .auth => []
  | .mkdir path | .rm path => path ++ [0]

/-- The command when its request has been sent. -/
def await : Command → List Byte → Sock → CmdEnd
  | .auth => cmdAuth
  | .mkdir path => cmdMkdir path
  | .rm _ => cmdRm

/-- What is asked. -/
def ask : Command → Ask
  | .auth => .register
  | .mkdir path => .mkdir (some path)
  | .rm path => .remove (some path)

end Command

/-! ### The connection -/

/-- What the event loop does with a connection on which nothing more arrives: it goes on as long as it keeps the
connection and finds something to read. `k` counts the messages. -/
def drain (libs : Externals) (envs : Nat → Env) (k : Nat) (server : Server) (sock : Sock) : Nat → Handled
  | 0 => ⟨server, sock, [], .kept⟩
  | fuel + 1 =>
      if sock.rx = [] then ⟨server, sock, [], .kept⟩
      else
        let handled := onReadable libs (envs k) server sock
        if handled.status = .kept then
          let rest := drain libs envs (k + 1) handled.server handled.sock fuel
          { rest with events := handled.events ++ rest.events }
        else handled

/-- A command of a user: the environment of the server with each message it reads on the connection, how the
request is read and how the reply arrives, what comes behind it if the server gives the connection up, and the
memory behind the payload. -/
structure Visit where
  token : Token
  command : Command
  clock : Nat × Nat
  envs : Nat → Env
  arrival : List (Option Nat)
  stamps : Nat → Stamp
  delivery : List (Option Nat)
  fin : SockEnd
  tail : List Byte

namespace Visit

/-- What `msg_send` puts on the connection. -/
def wire (v : Visit) : List Byte := msgWire ⟨v.token, v.clock⟩ v.command.type [] v.command.payload

/-- The connection as the server works it off. -/
def handled (libs : Externals) (server : Server) (v : Visit) : Handled :=
  drain libs v.envs 0 server ⟨v.wire, v.arrival, .opened⟩ v.wire.length

/-- The connection as the client reads it. -/
def replies (v : Visit) (handled : Handled) : Sock :=
  ⟨replyWire v.stamps handled.events, v.delivery,
    if handled.status = .kept ∨ handled.status = .blocked then .opened else v.fin⟩

end Visit

/-- Commands one after the other, as long as there is a server. -/
def visits (libs : Externals) (server : Server) : List Visit → List CmdEnd
  | [] => []
  | v :: vs =>
      let handled := v.handled libs server
      v.command.await v.tail (v.replies handled) ::
        if handled.status.goesOn then visits libs handled.server vs else []

/-- A command with which nothing goes wrong: no system call of the server fails and there is memory for a user,
only `auth` comes with the null token, and the path is an argument of a program and fits behind the user's root. -/
structure Visit.Plain (libs : Externals) (v : Visit) : Prop where
  named : v.command.type ≠ .authReq → v.token ≠ Token.null
  works : ∀ site path, (v.envs 0).faults site path = none
  fresh : (v.envs 0).fresh = none
  fits : ∀ path, v.command.payload = path ++ [0] → 0 ∉ path ∧ (getUserRoot libs v.token ++ slash :: path).length + 1 < PATH_MAX

/-- What a stranger's command leaves on the connection is shorter than a header. -/
def Heard (libs : Externals) : Box → List Visit → Prop
  | _, [] => True
  | box, v :: vs =>
      (box.known v.token ∨ v.command.payload.length < sizeofMessageHdr) ∧
        Heard libs (box.serve libs v.token v.command.ask).1 vs

/-- What an answer of the box makes of a command. -/
def Tells : Command → Answer → CmdEnd → Prop
  | .auth, .done, ended => ended = .ret 0 (.reply MessageType.authOk.toNat (cstr "Registered"))
  | .auth, .already, ended => ended = .ret 0 (.reply MessageType.authFail.toNat (cstr "Already registered"))
  | .auth, _, _ => False
  | .mkdir _, .done, ended => ended = .ret 0 .created
  | .rm _, .done, ended => ∃ name, ended = .ret 0 (.deleted name)
  | _, .unknown, ended => ended = .ret 1 (.failed (cstr "user not found"))
  | _, .invalid, ended => ended = .ret 1 (.failed (cstr "invalid path"))
  | _, .refused, ended => ∃ text, ended = .ret 1 (.failed text)
  | _, .silent, ended => ended = .blocked
  | _, .already, _ => False

/-- Commands that end as the answers say. -/
def Told : List Visit → List Answer → List CmdEnd → Prop
  | [], [], [] => True
  | v :: vs, answer :: answers, ended :: ends => Tells v.command answer ended ∧ Told vs answers ends
  | _, _, _ => False

/-! ### One reply -/

section Replies

variable {expected type : MessageType} {stamps : Nat → Stamp} {body : List Byte} {sched : List (Option Nat)} {fin : SockEnd}
  {rest tail : List Byte} {text path : CStr}

theorem recvAnswer_reply (mine : type = .error ∨ type = expected) (short : body.length ≤ 8192) :
    ∃ hdr, recvAnswer expected ⟨replyWire stamps [.sent type body], sched, fin⟩ = .ok (hdr, body) ∧ hdr.type = type.toNat := by
  obtain ⟨hdr, sched', header, length, named⟩ := @msgRecvHeader_msgWire ⟨replyWire stamps [.sent type body], sched, fin⟩
    (stamps 0) type [] body [] (by rw [List.length_nil, Nat.zero_add]; exact Nat.lt_of_le_of_lt short (by decide)) rfl
  rw [List.length_nil, Nat.zero_add] at length
  rw [List.nil_append, List.append_nil] at header
  obtain ⟨sched'', payload⟩ := @msgRecvPayload_of_le ⟨body, sched', fin⟩ hdr.length 8192 (length ▸ short) (Nat.le_of_eq length)
  have wanted : ¬ (hdr.type ≠ MessageType.error.toNat ∧ hdr.type ≠ expected.toNat) := by
    rintro ⟨notError, notExpected⟩
    rcases mine with rfl | rfl
    · exact notError named
    · exact notExpected named
  refine ⟨hdr, ?_, named⟩
  rw [recvAnswer, header]
  dsimp only
  rw [if_neg wanted, payload, length, List.take_length]

theorem recvAnswer_silent : recvAnswer expected ⟨[], sched, .opened⟩ = .error .blocked := by
  obtain ⟨sched', waits⟩ := @msgRecvHeader_of_lt ⟨[], sched, .opened⟩ (Nat.zero_lt_succ 47)
  rw [recvAnswer, waits]

/-- The text of an error, as it is sent. -/
def Shown (text : CStr) : Prop := 0 ∉ text ∧ text.length < 1024

theorem Shown.length {text : CStr} (shown : Shown text) : (text ++ [0]).length ≤ 8192 := by
  have short := shown.2
  rw [List.length_append, List.length_singleton]
  omega

theorem cmdMkdir_error (shown : Shown text) :
    cmdMkdir path tail ⟨replyWire stamps [sendError text], sched, fin⟩ = .ret 1 (.failed text) := by
  obtain ⟨hdr, received, named⟩ := @recvAnswer_reply .mkdirRes .error stamps (text ++ [0]) sched fin (.inl rfl) shown.length
  rw [cmdMkdir, sendError, received]
  dsimp only
  rw [if_pos named, if_neg (List.append_ne_nil_of_right_ne_nil _ (List.cons_ne_nil _ _)), List.append_assoc,
    List.singleton_append, cString_append shown.1]

theorem cmdRm_error (shown : Shown text) :
    cmdRm tail ⟨replyWire stamps [sendError text], sched, fin⟩ = .ret 1 (.failed text) := by
  obtain ⟨hdr, received, named⟩ := @recvAnswer_reply .removeRes .error stamps (text ++ [0]) sched fin (.inl rfl) shown.length
  rw [cmdRm, sendError, received]
  dsimp only
  rw [if_neg (List.append_ne_nil_of_right_ne_nil _ (List.cons_ne_nil _ _)), if_pos named, List.append_assoc,
    List.singleton_append, cString_append shown.1]

theorem cmdMkdir_done : cmdMkdir path tail ⟨replyWire stamps [.sent .mkdirRes []], sched, fin⟩ = .ret 0 .created := by
  obtain ⟨hdr, received, named⟩ := @recvAnswer_reply .mkdirRes .mkdirRes stamps [] sched fin (.inr rfl) (by decide)
  rw [cmdMkdir, received]
  dsimp only
  rw [if_neg]
  rw [named]
  decide

theorem cmdRm_done (info : FileInfo) :
    ∃ name, cmdRm tail ⟨replyWire stamps [.sent .removeRes info.encode], sched, fin⟩ = .ret 0 (.deleted name) := by
  have short : info.encode.length ≤ 8192 := by
    rw [FileInfo.length_encode]
    decide
  obtain ⟨hdr, received, named⟩ := @recvAnswer_reply .removeRes .removeRes stamps info.encode sched fin (.inr rfl) short
  have other : hdr.type ≠ MessageType.error.toNat := by
    rw [named]
    decide
  have some : info.encode ≠ [] := by
    intro none
    have size := info.length_encode
    rw [none] at size
    exact absurd size (by decide)
  refine ⟨(FileInfo.decode (info.encode ++ tail)).filename, ?_⟩
  rw [cmdRm, received]
  dsimp only
  rw [if_neg some, if_neg other, if_neg (not_not_intro named)]

theorem cmdAuth_reply (mine : Shown text) (behind : body = text ++ 0 :: rest) (short : body.length ≤ 1024) :
    cmdAuth tail ⟨replyWire stamps [.sent type body], sched, fin⟩ = .ret 0 (.reply type.toNat text) := by
  obtain ⟨hdr, sched', received, named⟩ := @msgRecv_msgWire (stamps 0) type body [] ⟨replyWire stamps [.sent type body], sched, fin⟩
    1024 rfl short (Nat.lt_of_le_of_lt short (by decide))
  rw [cmdAuth, received]
  dsimp only
  rw [named, MessageType.ofNat?_toNat, behind, if_neg (List.append_ne_nil_of_right_ne_nil _ (List.cons_ne_nil _ _)),
    List.append_assoc, List.cons_append, cString_append mine.1]
  rfl

/-- Without a reply, the command waits. -/
theorem silent_mkdir : Tells (.mkdir path) (answerOf []) (cmdMkdir path tail ⟨replyWire stamps [], sched, .opened⟩) := by
  rw [replyWire, cmdMkdir, recvAnswer_silent]
  rfl

theorem silent_rm : Tells (.rm path) (answerOf []) (cmdRm tail ⟨replyWire stamps [], sched, .opened⟩) := by
  rw [replyWire, cmdRm, recvAnswer_silent]
  rfl

/-- An error is reported as the answer that it is. -/
theorem tells_error {command : Command} (asks : command ≠ .auth) : Tells command (answerOf [sendError text]) (.ret 1 (.failed text)) := by
  have refused : ∀ answer, answer = .refused → Tells command answer (.ret 1 (.failed text)) := by
    rintro answer rfl
    cases command with
    | auth => exact absurd rfl asks
    | mkdir path => exact ⟨text, rfl⟩
    | rm path => exact ⟨text, rfl⟩
  rw [sendError, answerOf]
  split_ifs with unknown invalid
  · obtain rfl := List.append_cancel_right unknown
    cases command with
    | auth => exact absurd rfl asks
    | mkdir path => rfl
    | rm path => rfl
  · obtain rfl := List.append_cancel_right invalid
    cases command with
    | auth => exact absurd rfl asks
    | mkdir path => rfl
    | rm path => rfl
  · exact refused _ rfl

end Replies

/-! ### The events of a handler -/

section Handlers

variable {libs : Externals} {env : Env} {server : Server} {user : Option Nat} {hdr : MessageHdr} {payload : Option (List Byte)}

theorem shown_strerror (errno : Errno) : Shown (strerror errno) := by
  cases errno <;> exact ⟨by decide, by decide⟩

theorem handleMkdir_replies : (handleMkdir libs env server user hdr payload).2 = [] ∨
    (handleMkdir libs env server user hdr payload).2 = [.sent .mkdirRes []] ∨
    ∃ text, Shown text ∧ (handleMkdir libs env server user hdr payload).2 = [sendError text] := by
  unfold handleMkdir
  cases user with
  | none => exact .inr (.inr ⟨_, ⟨by decide, by decide⟩, rfl⟩)
  | some addr =>
      cases payload with
      | none => exact .inl rfl
      | some bytes =>
          dsimp only
          split_ifs
          · exact .inr (.inl rfl)
          · exact .inr (.inr ⟨_, shown_strerror _, rfl⟩)
          · exact .inr (.inr ⟨_, ⟨by decide, by decide⟩, rfl⟩)

theorem handleRemove_replies : (handleRemove libs env server user hdr payload).2 = [] ∨
    (∃ info : FileInfo, (handleRemove libs env server user hdr payload).2 = [.sent .removeRes info.encode]) ∨
    ∃ text, Shown text ∧ (handleRemove libs env server user hdr payload).2 = [sendError text] := by
  unfold handleRemove
  cases user with
  | none => exact .inr (.inr ⟨_, ⟨by decide, by decide⟩, rfl⟩)
  | some addr =>
      cases payload with
      | none => exact .inl rfl
      | some bytes =>
          dsimp only
          split
          · exact .inr (.inr ⟨_, ⟨by decide, by decide⟩, rfl⟩)
          · split_ifs
            · exact .inr (.inr ⟨_, ⟨by decide, by decide⟩, rfl⟩)
            all_goals split
            all_goals first
              | exact .inr (.inr ⟨_, shown_strerror _, rfl⟩)
              | exact .inr (.inl ⟨_, rfl⟩)

end Handlers

/-! ### The connection of a command -/

section Drains

variable {libs : Externals} {envs : Nat → Env} {server : Server} {sock : Sock} {k fuel : Nat} {v : Visit}

theorem drain_nil (empty : sock.rx = []) : drain libs envs k server sock fuel = ⟨server, sock, [], .kept⟩ := by
  cases fuel with
  | zero => rfl
  | succ fuel => rw [drain, if_pos empty]

/-- As many rounds as bytes are enough: where the connection is kept, it has been read. -/
theorem drain_all (enough : sock.rx.length ≤ fuel) (kept : (drain libs envs k server sock fuel).status = .kept) :
    (drain libs envs k server sock fuel).sock.rx = [] := by
  induction fuel generalizing k server sock with
  | zero => exact List.eq_nil_of_length_eq_zero (Nat.le_zero.mp enough)
  | succ fuel ih =>
      rw [drain] at kept ⊢
      by_cases empty : sock.rx = []
      · rw [if_pos empty]
        exact empty
      rw [if_neg empty] at kept ⊢
      dsimp only at kept ⊢
      by_cases going : (onReadable libs (envs k) server sock).status = .kept
      · rw [if_pos going] at kept ⊢
        have less := onReadable_shorter empty going
        exact ih (by omega) kept
      · rw [if_neg going] at kept
        exact absurd kept going

/-- Less than a header is lost, and the connection kept. -/
theorem drain_short (short : sock.rx.length < sizeofMessageHdr) (opened : sock.fin = .opened) :
    ∃ rest, drain libs envs k server sock fuel = ⟨server, rest, [], .kept⟩ := by
  by_cases empty : sock.rx = []
  · exact ⟨sock, drain_nil empty⟩
  cases fuel with
  | zero => exact ⟨sock, rfl⟩
  | succ fuel =>
      have small : sock.nonblocking.rx.length < sizeofMessageHdr := short
      have fails : sock.nonblocking.fin = .failed := by rw [Sock.nonblocking, if_pos opened]
      obtain ⟨sched, received⟩ := msgRecvHeader_of_lt small
      rw [fails] at received
      have lost : onReadable libs (envs k) server sock = ⟨server, ⟨[], sched, sock.fin⟩, [], .kept⟩ := by
        simp only [onReadable, received, opened, and_self, if_true]
      refine ⟨⟨[], sched, sock.fin⟩, ?_⟩
      rw [drain, if_neg empty, lost]
      dsimp only
      rw [if_pos rfl, drain_nil rfl]
      rfl

/-- The header of the request, as it is received. -/
def Visit.header (v : Visit) : MessageHdr :=
  MessageHdr.decode (MessageHdr.mk (0 + v.command.payload.length) v.command.type.toNat v.token v.clock).encode

/-- The request as a message that the server meets. -/
def Visit.met (v : Visit) (sched : List (Option Nat)) : Request :=
  ⟨v.header, ⟨v.command.payload, sched, .opened⟩, v.envs 0⟩

theorem onReadable_wire : ∃ sched, onReadable libs (v.envs 0) server ⟨v.wire, v.arrival, .opened⟩ =
    (v.met sched).serve libs server := by
  obtain ⟨sched, handed⟩ := @onReadable_complete libs (v.envs 0) server
    (MessageHdr.mk (0 + v.command.payload.length) v.command.type.toNat v.token v.clock).encode v.command.payload []
    v.arrival .opened (MessageHdr.length_encode _)
  rw [List.append_nil] at handed
  exact ⟨sched, handed⟩

/-- A request that is served, and leaves less than a header, is all that is served. -/
theorem handled_of_served {handled : Handled}
    (served : onReadable libs (v.envs 0) server ⟨v.wire, v.arrival, .opened⟩ = handled) (kept : handled.status = .kept)
    (short : handled.sock.rx.length < sizeofMessageHdr) (opened : handled.sock.fin = .opened) :
    ∃ rest, v.handled libs server = ⟨handled.server, rest, handled.events, .kept⟩ := by
  have size : v.wire.length = sizeofMessageHdr - 1 + v.command.payload.length + 1 := by
    rw [Visit.wire, length_msgWire, List.length_nil, Nat.zero_add]
    unfold sizeofMessageHdr
    omega
  have some : v.wire ≠ [] := List.length_pos_iff.mp (by rw [size]; exact Nat.succ_pos _)
  obtain ⟨rest, left⟩ := @drain_short libs v.envs handled.server handled.sock 1
    (sizeofMessageHdr - 1 + v.command.payload.length) short opened
  refine ⟨rest, ?_⟩
  rw [Visit.handled, size, drain, if_neg some, served]
  dsimp only
  rw [if_pos kept, left, List.append_nil]

end Drains

/-! ### Commands and the box -/

section Visits

variable {libs : Externals} {server : Server} {box : Box} {v : Visit} {sched : List (Option Nat)}

theorem Visit.type_header : v.header.type = v.command.type.toNat :=
  MessageHdr.decode_encode_type (Nat.lt_trans v.command.type.toNat_lt (by decide))

theorem Visit.token_header : v.header.token = v.token := MessageHdr.decode_encode_token _

/-- A command asks for `auth`, or sends a path. -/
theorem Command.cases_payload (command : Command) :
    command.type = .authReq ∧ command.payload = [] ∨
      (command.type = .removeReq ∨ command.type = .mkdirReq) ∧ ∃ path, command.payload = path ++ [0] := by
  cases command with
  | auth => exact .inl ⟨rfl, rfl⟩
  | mkdir path => exact .inr ⟨.inr rfl, path, rfl⟩
  | rm path => exact .inr ⟨.inl rfl, path, rfl⟩

namespace Visit.Plain

/-- The paths are shorter than what the server reads. -/
theorem length_payload (plain : v.Plain libs) : v.command.payload.length ≤ 8192 := by
  rcases v.command.cases_payload with ⟨-, none⟩ | ⟨-, path, sent⟩
  · rw [none]
    exact Nat.zero_le _
  · have fits := (plain.fits path sent).2
    rw [List.length_append, length_getUserRoot, List.length_cons] at fits
    rw [sent, List.length_append, List.length_singleton]
    unfold PATH_MAX at fits
    omega

theorem length_header (plain : v.Plain libs) : v.header.length = v.command.payload.length := by
  have small : 0 + v.command.payload.length < 2 ^ 64 := by
    have := plain.length_payload
    omega
  rw [Visit.header, MessageHdr.decode_encode_length small, Nat.zero_add]

theorem dispatched (plain : v.Plain libs) : dispatch v.header = .accept v.command.type := by
  rw [dispatch, Visit.type_header, Visit.token_header, MessageType.ofNat?_toNat]
  dsimp only
  rw [if_neg]
  rintro ⟨other, null⟩
  exact plain.named other null

/-- The path arrives whole. -/
theorem raw_met (plain : v.Plain libs) {path : CStr} (sent : v.command.payload = path ++ [0]) :
    (v.met sched).raw = some path := by
  obtain ⟨sched', received⟩ := @msgRecvPayload_of_le ⟨v.command.payload, sched, .failed⟩ v.command.payload.length 8192
    plain.length_payload (Nat.le_refl _)
  rw [List.take_length] at received
  have waits : (⟨v.command.payload, sched, .opened⟩ : Sock).nonblocking = ⟨v.command.payload, sched, .failed⟩ := rfl
  rw [Request.raw, Visit.met, recvOneshot]
  dsimp only
  rw [plain.length_header, waits, received]
  dsimp only
  rw [Option.map_some, sent, List.append_assoc]
  exact congrArg some (cString_append (plain.fits path sent).1)

/-- A command asks what it says. -/
theorem ask_met (plain : v.Plain libs) : (v.met sched).ask = some v.command.ask := by
  have dispatched : dispatch (v.met sched).hdr = .accept v.command.type := plain.dispatched
  rw [Request.ask, dispatched]
  cases asks : v.command with
  | auth => rfl
  | mkdir path => exact congrArg (fun raw => some (Ask.mkdir raw)) (plain.raw_met (by rw [asks]; rfl))
  | rm path => exact congrArg (fun raw => some (Ask.remove raw)) (plain.raw_met (by rw [asks]; rfl))

/-- It is a message with which nothing goes wrong. -/
theorem met (plain : v.Plain libs) (sched : List (Option Nat)) : MiniDropbox.Plain libs (v.met sched) where
  asks := by
    rw [plain.ask_met]
    exact Option.some_ne_none _
  works := plain.works
  fresh := plain.fresh
  fits raw read := by
    have mine : (v.met sched).hdr.token = v.token := Visit.token_header
    have sent : v.command.payload = raw ++ [0] := by
      rw [plain.ask_met, Option.bind_some] at read
      cases asks : v.command with
      | auth =>
          rw [asks] at read
          cases read
      | mkdir path =>
          rw [asks] at read
          cases read
          rfl
      | rm path =>
          rw [asks] at read
          cases read
          rfl
    rw [mine]
    exact (plain.fits raw sent).2

end Visit.Plain

theorem Refines.looked (refines : Refines server box) (t : Token) :
    ∃ user, umanGetUser server.uman t = some user ∧ (box.known t ↔ user.isSome) := by
  obtain ⟨tokens, registry, users⟩ := refines.users
  by_cases listed : t ∈ tokens
  · obtain ⟨addr, -, found, -⟩ := registry.lookup_of_mem listed
    exact ⟨_, found, iff_of_true ((users t).mpr listed) rfl⟩
  · exact ⟨_, registry.lookup_of_not_mem listed, iff_of_false (fun known => listed ((users t).mp known)) Bool.false_ne_true⟩

/-- What a handler leaves on the connection is shorter than a header. -/
theorem short_left (plain : v.Plain libs) {user : Option Nat}
    (heard : user.isSome ∨ v.command.payload.length < sizeofMessageHdr) :
    (recvOneshot (v.met sched).sock (v.met sched).hdr.length (payloadLimit v.command.type user)).2.rx.length <
        sizeofMessageHdr ∧
      (recvOneshot (v.met sched).sock (v.met sched).hdr.length (payloadLimit v.command.type user)).2.fin = .opened := by
  obtain ⟨received, sched', read⟩ :=
    @recvOneshot_complete v.command.payload [] sched .opened (payloadLimit v.command.type user)
  rw [List.append_nil] at read
  have length : (v.met sched).hdr.length = v.command.payload.length := plain.length_header
  rw [length]
  change (recvOneshot ⟨v.command.payload, sched, .opened⟩ _ _).2.rx.length < _ ∧
    (recvOneshot ⟨v.command.payload, sched, .opened⟩ _ _).2.fin = _
  rw [read]
  refine ⟨?_, rfl⟩
  dsimp only
  split_ifs with whole
  · decide
  · rcases heard with known | short
    · obtain ⟨addr, rfl⟩ := Option.isSome_iff_exists.mp known
      rcases v.command.cases_payload with ⟨-, none⟩ | ⟨reads, -⟩
      · rw [none]
        decide
      · exact absurd (payloadLimit_any.mpr ⟨reads, ⟨addr, rfl⟩, plain.length_payload⟩) whole
    · exact short

/-- The request is met at the first read, and its handler leaves what it has not read. -/
theorem Refines.meets (refines : Refines server box) (plain : v.Plain libs) :
    ∃ sched user, onReadable libs (v.envs 0) server ⟨v.wire, v.arrival, .opened⟩ = (v.met sched).serve libs server ∧
      ((v.met sched).serve libs server).status = .kept ∧ (box.known v.token ↔ user.isSome) ∧
        ((v.met sched).serve libs server).sock =
          (recvOneshot (v.met sched).sock (v.met sched).hdr.length (payloadLimit v.command.type user)).2 := by
  obtain ⟨sched, served⟩ := @onReadable_wire libs server v
  obtain ⟨user, looked, knows⟩ := refines.looked v.token
  refine ⟨sched, user, served, (refines.serve (plain.met sched) plain.ask_met).1, knows, ?_⟩
  have found : umanGetUser server.uman (v.met sched).hdr.token = some user := by
    rw [show (v.met sched).hdr.token = v.token from Visit.token_header]
    exact looked
  have oneshot : v.command.type.kind = .oneshot := by
    cases v.command <;> rfl
  have dispatched : dispatch (v.met sched).hdr = .accept v.command.type := plain.dispatched
  simp only [Request.serve, onClientMessageReceived, dispatched, found, oneshot]
  split <;> rfl

/-- The message of a command: the connection is kept with less than a header on it. -/
theorem Refines.met (refines : Refines server box) (plain : v.Plain libs)
    (heard : box.known v.token ∨ v.command.payload.length < sizeofMessageHdr) :
    ∃ sched rest, v.handled libs server =
      ⟨((v.met sched).serve libs server).server, rest, ((v.met sched).serve libs server).events, .kept⟩ := by
  obtain ⟨sched, user, served, kept, knows, left⟩ := refines.meets plain
  obtain ⟨short, opened⟩ := @short_left libs v sched plain user (heard.imp_left knows.mp)
  obtain ⟨rest, all⟩ := @handled_of_served libs server v _ served kept (by rw [left]; exact short) (by rw [left]; exact opened)
  exact ⟨sched, rest, all⟩

/-- One command. -/
theorem Refines.visit (refines : Refines server box) (plain : v.Plain libs)
    (heard : box.known v.token ∨ v.command.payload.length < sizeofMessageHdr) :
    Tells v.command (box.serve libs v.token v.command.ask).2 (v.command.await v.tail (v.replies (v.handled libs server))) ∧
      (v.handled libs server).status = .kept ∧
        Refines (v.handled libs server).server (box.serve libs v.token v.command.ask).1 := by
  obtain ⟨sched, rest, all⟩ := refines.met plain heard
  have message := plain.met sched
  have mine : (v.met sched).hdr.token = v.token := Visit.token_header
  have dispatched : dispatch (v.met sched).hdr = .accept v.command.type := plain.dispatched
  obtain ⟨-, answer, next⟩ := refines.serve message plain.ask_met
  obtain ⟨user, looked, -⟩ := refines.looked v.token
  rw [mine] at answer next
  rw [← mine] at looked
  rw [all, Visit.replies, if_pos (.inl rfl)]
  refine ⟨?_, rfl, next⟩
  dsimp only
  cases asks : v.command with
  | auth =>
      rw [asks] at dispatched
      obtain ⟨after, reply, handled, -, answered⟩ :=
        @Refines.register libs server box _ (v.met sched).hdr refines message.works message.fresh
      rw [serve_auth_eq dispatched looked handled]
      rw [mine] at answered
      rcases answered with ⟨told, rfl⟩ | ⟨told, rfl⟩
      · rw [Command.ask, told]
        exact cmdAuth_reply ⟨by decide, by decide⟩ rfl (by decide)
      · rw [Command.ask, told]
        exact cmdAuth_reply ⟨by decide, by decide⟩ rfl (by decide)
  | mkdir path =>
      rw [asks] at dispatched answer
      obtain ⟨-, events, -⟩ := @serve_oneshot libs server (v.met sched) .mkdirReq user dispatched rfl looked _ rfl
      rw [← answer, events]
      rcases @handleMkdir_replies libs (v.met sched).env server user (v.met sched).hdr
        (recvOneshot (v.met sched).sock (v.met sched).hdr.length (payloadLimit .mkdirReq user)).1 with
        none | made | ⟨text, shown, failed⟩
      · rw [none]
        exact silent_mkdir
      · rw [made, Command.await, cmdMkdir_done]
        rfl
      · rw [failed, Command.await, cmdMkdir_error shown]
        exact tells_error (by intro same; cases same)
  | rm path =>
      rw [asks] at dispatched answer
      obtain ⟨-, events, -⟩ := @serve_oneshot libs server (v.met sched) .removeReq user dispatched rfl looked _ rfl
      rw [← answer, events]
      rcases @handleRemove_replies libs (v.met sched).env server user (v.met sched).hdr
        (recvOneshot (v.met sched).sock (v.met sched).hdr.length (payloadLimit .removeReq user)).1 with
        none | ⟨info, gone⟩ | ⟨text, shown, failed⟩
      · rw [none]
        exact silent_rm
      · rw [gone]
        exact cmdRm_done info
      · rw [failed, Command.await, cmdRm_error shown]
        exact tells_error (by intro same; cases same)

/-- Whatever commands the users run one after the other, each ends as the answer of the box says. -/
theorem commands_tell {vs : List Visit} (refines : Refines server box) (plain : ∀ v ∈ vs, v.Plain libs)
    (heard : Heard libs box vs) :
    Told vs (box.serveAll libs (vs.map fun v => (v.token, v.command.ask))).2 (visits libs server vs) := by
  induction vs generalizing server box with
  | nil => trivial
  | cons v vs ih =>
      obtain ⟨tells, kept, next⟩ := refines.visit (plain v List.mem_cons_self) heard.1
      rw [visits, if_pos (by rw [kept]; rfl)]
      exact ⟨tells, ih next (fun w later => plain w (List.mem_cons_of_mem _ later)) heard.2⟩

/-- Read as a header, a text has no type. -/
theorem type_of_text {text rest : List Byte} (clean : 0 ∉ text) (long : 12 ≤ text.length) :
    MessageType.ofNat? (MessageHdr.decode (text ++ rest)).type = none := by
  have field : ((text ++ rest).drop 8).take 4 = (text.drop 8).take 3 ++ [text[11]] := by
    rw [List.drop_append_of_le_length (by omega), List.take_append_of_le_length (by rw [List.length_drop]; omega)]
    have size : 3 < (text.drop 8).length := by
      rw [List.length_drop]
      omega
    rw [← List.take_concat_get' (text.drop 8) 3 size, List.getElem_drop]
  have nonzero : text[11] ≠ 0 := fun zero => clean (zero ▸ List.getElem_mem _)
  have large := LittleEndian.le_decode_concat ((text.drop 8).take 3) nonzero
  have three : ((text.drop 8).take 3).length = 3 := by
    rw [List.length_take, List.length_drop]
    omega
  rw [MessageHdr.decode, field]
  rw [three] at large
  exact List.getElem?_eq_none (Nat.le_trans (by decide) large)

/-- A text that is read as a header ends the server. -/
theorem onReadable_text {env : Env} {text rest : List Byte} {fin : SockEnd} (clean : 0 ∉ text) (long : 12 ≤ text.length)
    (whole : sizeofMessageHdr ≤ (text ++ rest).length) :
    (onReadable libs env server ⟨text ++ rest, sched, fin⟩).status = .aborted := by
  have front : (text ++ rest).take sizeofMessageHdr = text.take 12 ++ (text.drop 12 ++ rest).take 36 := by
    have twelve : (text.take 12).length = 12 := by
      rw [List.length_take]
      omega
    conv_lhs => rw [← List.take_append_drop 12 text, List.append_assoc]
    rw [List.take_append, twelve, List.take_of_length_le (by rw [twelve]; decide)]
    rfl
  have size : ((text ++ rest).take sizeofMessageHdr).length = sizeofMessageHdr := by
    rw [List.length_take, Nat.min_eq_left whole]
  obtain ⟨sched', handed⟩ := @onReadable_complete libs env server _ ((text ++ rest).drop sizeofMessageHdr) [] sched fin size
  rw [List.append_nil, List.take_append_drop] at handed
  have none : MessageType.ofNat? (MessageHdr.decode ((text ++ rest).take sizeofMessageHdr)).type = none := by
    rw [front]
    refine type_of_text (fun zero => clean (List.mem_of_mem_take zero)) ?_
    rw [List.length_take]
    omega
  rw [handed, onClientMessageReceived, dispatch, none]

/-- The path of a stranger that is as long as a header is read as one, and ends the server. -/
theorem Refines.stranger_aborts (refines : Refines server box) (plain : v.Plain libs) (stranger : ¬ box.known v.token)
    (long : sizeofMessageHdr ≤ v.command.payload.length) : (v.handled libs server).status = .aborted := by
  obtain ⟨sched, user, served, kept, knows, left⟩ := refines.meets plain
  have unknown : user = none := by
    cases user with
    | none => rfl
    | some addr => exact absurd (knows.mpr rfl) stranger
  have limit : payloadLimit v.command.type none = none := by
    cases v.command <;> rfl
  obtain ⟨path, sent⟩ : ∃ path, v.command.payload = path ++ [0] := by
    rcases v.command.cases_payload with ⟨-, empty⟩ | ⟨-, path, sent⟩
    · rw [empty] at long
      cases long
    · exact ⟨path, sent⟩
  have unread : ((v.met sched).serve libs server).sock = ⟨v.command.payload, sched, .opened⟩ := by
    rw [left, unknown, limit]
    rfl
  have enough : 12 ≤ path.length := by
    rw [sent, List.length_append, List.length_singleton] at long
    unfold sizeofMessageHdr at long
    omega
  have next : ∀ env server, (onReadable libs env server ⟨v.command.payload, sched, .opened⟩).status = .aborted := by
    intro env server
    rw [sent] at long ⊢
    exact onReadable_text (plain.fits path sent).1 enough long
  have some : v.command.payload ≠ [] := by
    rw [sent]
    exact List.append_ne_nil_of_right_ne_nil _ (List.cons_ne_nil _ _)
  have size : v.wire.length = sizeofMessageHdr - 2 + v.command.payload.length + 1 + 1 := by
    rw [Visit.wire, length_msgWire, List.length_nil, Nat.zero_add]
    unfold sizeofMessageHdr
    omega
  have wire : v.wire ≠ [] := List.length_pos_iff.mp (by rw [size]; exact Nat.succ_pos _)
  rw [Visit.handled, size, drain, if_neg wire, served]
  dsimp only
  rw [if_pos kept, unread, drain, if_neg some]
  dsimp only
  rw [if_neg (by rw [next]; decide), next]

end Visits

/-! ### Three commands -/

def visiting (command : Command) : Visit :=
  ⟨someToken, command, (0, 0), fun _ => default, [some 5, none, some 0], default, [some 20], .closed, []⟩

/-- A path that is longer than a header. -/
def longPlace : CStr := List.replicate 50 97

def threeVisits : List Visit := [visiting .auth, visiting (.mkdir longPlace), visiting (.rm (cstr "b"))]

theorem visiting_plain {command : Command} (short : command.payload.length ≤ 51) (clean : 0 ∉ command.payload.dropLast) :
    (visiting command).Plain libraries where
  named _ := (by decide : someToken ≠ Token.null)
  works _ _ := rfl
  fresh := rfl
  fits path sent := by
    change command.payload = path ++ [0] at sent
    rw [sent, List.dropLast_concat] at clean
    rw [sent, List.length_append, List.length_singleton] at short
    refine ⟨clean, ?_⟩
    rw [List.length_append, length_getUserRoot, List.length_cons]
    unfold PATH_MAX
    omega

theorem commands_tell_three :
    Told threeVisits (Box.empty.serveAll libraries (threeVisits.map fun v => (v.token, v.command.ask))).2
      (visits libraries (boot [] []) threeVisits) ∧
    visits libraries (boot [] []) threeVisits =
      [.ret 0 (.reply MessageType.authOk.toNat (cstr "Registered")), .ret 0 .created,
        .ret 1 (.failed (cstr "failed to get fileinfo from filename\n"))] := by
  have plain : ∀ v ∈ threeVisits, v.Plain libraries := by
    simp only [threeVisits, List.forall_mem_cons]
    exact ⟨visiting_plain (by decide) (by decide), visiting_plain (by decide) (by decide),
      visiting_plain (by decide) (by decide), List.forall_mem_nil _⟩
  have heard : Heard libraries Box.empty threeVisits :=
    ⟨.inr (by decide), .inl (.inr rfl), .inr (by decide), trivial⟩
  exact ⟨commands_tell (refines_boot (boot_bare_tree []) (boot_bare_genuine [])) plain heard, by decide⟩

end MiniDropbox
