/-
Messages on a byte stream: sending (`send_all`, `msg_send`) and a receiver that takes
message after message.

`Outlet` is the sending side of a connection, with what the `send` calls to come do. On a
reliable one `msgSend` puts the header, with the length raised by that of the payload
header, and then both parts on the wire, however the calls split them
(`msgSend_reliable`). A receiver, organised as `msg_recv` or as `msg_recv_header` and
`msg_recv_payload`, finds one message at the front of the stream (`recv_wire`), or that it
is too long for him (`recv_excess`), or that it is not all there (`recv_early`);
`framing_roundTrip` says so of all messages together.
-/

import MiniDropbox.Chunk

namespace MiniDropbox

/-! ### Sending -/

/-- What one `send` call does: it is interrupted, takes at most `k + 1` bytes, takes none,
or fails. -/
inductive SendCall where
  | interrupted
  | took (k : Nat)
  | nothing
  | failed
  deriving DecidableEq

/-- The sending side of a connection: the bytes on the wire, and the calls to come. With
none left a call takes all it is given. -/
structure Outlet where
  tx : List Byte
  calls : List SendCall
  deriving DecidableEq

/-- The loop of `send_all`. -/
def sendAllLoop : List SendCall → List Byte → List Byte → Int × Outlet
  | calls, [], tx => (0, ⟨tx, calls⟩)
  | [], b :: buf, tx => (0, ⟨tx ++ b :: buf, []⟩)
  | .interrupted :: calls, b :: buf, tx => sendAllLoop calls (b :: buf) tx
  | .took k :: calls, b :: buf, tx =>
      let nbytes := min (k + 1) (b :: buf).length
      sendAllLoop calls ((b :: buf).drop nbytes) (tx ++ (b :: buf).take nbytes)
  | .nothing :: calls, _ :: _, tx => (-2, ⟨tx, calls⟩)
  | .failed :: calls, _ :: _, tx => (-1, ⟨tx, calls⟩)

/-- A call of `send_all` or `msg_send`: its assertion fails, or it returns. -/
inductive Sending where
  | aborted
  | ret (code : Int) (out : Outlet)
  deriving DecidableEq

/-- Mirrors `send_all`. -/
def sendAll (buf : List Byte) (out : Outlet) : Sending :=
  if buf = [] then .aborted
  else
    let (code, out) := sendAllLoop out.calls buf out.tx
    .ret code out

/-- Go on unless the call has failed. -/
def Sending.andThen (first : Sending) (next : Outlet → Sending) : Sending :=
  match first with
  | .aborted => .aborted
  | .ret code out => if code < 0 then .ret code out else next out

/-- Send what a pointer points to, if it is not null. -/
def sendIf (part : Option (List Byte)) (out : Outlet) : Sending :=
  match part with
  | none => .ret 0 out
  | some buf => sendAll buf out

/-- Mirrors `Message`, without the time of receipt, which nothing reads. The payload is the
`payload_len` bytes behind the pointer. -/
structure Message where
  hdr : MessageHdr
  payload : Option (List Byte)

/-- Mirrors `msg_init`, which leaves the token. -/
def msgInit (token : Token) (type : MessageType) (payload : Option (List Byte)) (length : Nat) : Message :=
  ⟨⟨length, type.toNat, token, (0, 0)⟩, payload⟩

/-- The message as `msg_send` leaves it: stamped, and longer by the payload header. -/
def Message.stamped (msg : Message) (clock : Nat × Nat) (payloadHdr : Option (List Byte)) : Message :=
  { msg with hdr := { msg.hdr with
    sentAt := clock
    length := match payloadHdr with
      | none => msg.hdr.length
      | some bytes => sizeT (msg.hdr.length + bytes.length) } }

/-- Mirrors `msg_send`. -/
def msgSend (msg : Message) (clock : Nat × Nat) (payloadHdr : Option (List Byte)) (out : Outlet) : Sending :=
  ((sendAll (msg.stamped clock payloadHdr).hdr.encode out).andThen (sendIf payloadHdr)).andThen
    (sendIf msg.payload)

/-- The calls to come are interrupted or take some bytes. -/
def Outlet.Reliable (out : Outlet) : Prop := ∀ call ∈ out.calls, call = .interrupted ∨ ∃ k, call = .took k

theorem sendAllLoop_reliable {calls : List SendCall} {buf tx : List Byte}
    (reliable : ∀ call ∈ calls, call = .interrupted ∨ ∃ k, call = .took k) :
    ∃ later, sendAllLoop calls buf tx = (0, ⟨tx ++ buf, later⟩) ∧ later <:+ calls := by
  induction calls generalizing buf tx with
  | nil =>
      cases buf with
      | nil => exact ⟨[], by rw [sendAllLoop, List.append_nil], List.suffix_rfl⟩
      | cons b buf => exact ⟨[], by rw [sendAllLoop], List.suffix_rfl⟩
  | cons call calls ih =>
      have rest := fun c mem => reliable c (List.mem_cons_of_mem _ mem)
      cases buf with
      | nil => exact ⟨call :: calls, by rw [sendAllLoop, List.append_nil], List.suffix_rfl⟩
      | cons b buf =>
          rcases reliable call List.mem_cons_self with rfl | ⟨k, rfl⟩
          · obtain ⟨later, done, behind⟩ := @ih (b :: buf) tx rest
            exact ⟨later, by rw [sendAllLoop, done], behind.trans (List.suffix_cons _ _)⟩
          · obtain ⟨later, done, behind⟩ := @ih ((b :: buf).drop (min (k + 1) (b :: buf).length))
              (tx ++ (b :: buf).take (min (k + 1) (b :: buf).length)) rest
            refine ⟨later, ?_, behind.trans (List.suffix_cons _ _)⟩
            rw [sendAllLoop, done, List.append_assoc, List.take_append_drop]

theorem sendAll_reliable {buf : List Byte} {out : Outlet} (reliable : out.Reliable) (some : buf ≠ []) :
    ∃ calls, sendAll buf out = .ret 0 ⟨out.tx ++ buf, calls⟩ ∧ (Outlet.mk (out.tx ++ buf) calls).Reliable := by
  obtain ⟨calls, done, behind⟩ := @sendAllLoop_reliable out.calls buf out.tx reliable
  refine ⟨calls, ?_, fun call mem => reliable call (behind.subset mem)⟩
  rw [sendAll, if_neg some, done]

theorem sendIf_reliable {part : Option (List Byte)} {out : Outlet} (reliable : out.Reliable)
    (some : part ≠ some []) :
    ∃ calls, sendIf part out = .ret 0 ⟨out.tx ++ part.getD [], calls⟩ ∧
      (Outlet.mk (out.tx ++ part.getD []) calls).Reliable := by
  cases part with
  | none => exact ⟨out.calls, by simp [sendIf], by simpa [Outlet.Reliable] using reliable⟩
  | some buf => exact sendAll_reliable reliable fun empty => some (congrArg _ empty)

/-! ### Messages to send -/

/-- A message that a caller hands to `msg_send`, with the clock and the payload header:
the payload is absent and of length 0, or there and of the length in the header; the
payload header is absent or not empty; and both are in memory. -/
structure Outgoing where
  msg : Message
  clock : Nat × Nat
  payloadHdr : Option (List Byte)
  length_eq : msg.hdr.length = (msg.payload.getD []).length
  payload_ne : msg.payload ≠ some []
  payloadHdr_ne : payloadHdr ≠ some []
  type_lt : msg.hdr.type < 2 ^ 32
  fits : (payloadHdr.getD []).length + (msg.payload.getD []).length < 2 ^ 63

namespace Outgoing

variable (m : Outgoing)

/-- What the receiver is to get as the payload. -/
def body : List Byte := m.payloadHdr.getD [] ++ m.msg.payload.getD []

/-- The header on the wire. -/
def header : MessageHdr := ⟨m.body.length, m.msg.hdr.type, m.msg.hdr.token, m.clock⟩

/-- The message on the wire. -/
def wire : List Byte := m.header.encode ++ m.body

/-- What the two ends compare. -/
def shown : Nat × Token × Nat × List Byte := (m.msg.hdr.type, m.msg.hdr.token, m.body.length, m.body)

variable {m}

theorem body_lt : m.body.length < 2 ^ 63 := by
  rw [body, List.length_append]
  exact m.fits

@[simp] theorem length_wire : m.wire.length = sizeofMessageHdr + m.body.length := by
  rw [wire, List.length_append, MessageHdr.length_encode]

theorem stamped_hdr : (m.msg.stamped m.clock m.payloadHdr).hdr = m.header := by
  have fits := m.fits
  have length : (m.msg.stamped m.clock m.payloadHdr).hdr.length = m.body.length := by
    rw [body, List.length_append, ← m.length_eq]
    rw [← m.length_eq] at fits
    unfold Message.stamped
    cases hdr : m.payloadHdr with
    | none => simp
    | some bytes =>
        rw [hdr, Option.getD_some] at fits
        simp only [Option.getD_some]
        rw [sizeT_of_lt (by omega), Nat.add_comm]
  rw [header, ← length]
  rfl

end Outgoing

/-- On a reliable connection `msg_send` puts the whole message on the wire. -/
theorem msgSend_reliable {m : Outgoing} {out : Outlet} (reliable : out.Reliable) :
    ∃ calls, msgSend m.msg m.clock m.payloadHdr out = .ret 0 ⟨out.tx ++ m.wire, calls⟩ ∧
      (Outlet.mk (out.tx ++ m.wire) calls).Reliable := by
  have some : m.header.encode ≠ [] := by
    refine List.ne_nil_of_length_pos ?_
    rw [MessageHdr.length_encode]
    decide
  obtain ⟨c₁, first, reliable₁⟩ := sendAll_reliable reliable some
  obtain ⟨c₂, second, reliable₂⟩ := sendIf_reliable reliable₁ m.payloadHdr_ne
  obtain ⟨c₃, third, reliable₃⟩ := sendIf_reliable reliable₂ m.payload_ne
  have whole : out.tx ++ m.header.encode ++ m.payloadHdr.getD [] ++ m.msg.payload.getD [] =
      out.tx ++ m.wire := by
    simp only [Outgoing.wire, Outgoing.body, List.append_assoc]
  rw [whole] at third reliable₃
  refine ⟨c₃, ?_, reliable₃⟩
  have going : ¬ ((0 : Int) < 0) := Int.lt_irrefl 0
  simp only [msgSend, Outgoing.stamped_hdr, first, Sending.andThen, if_neg going, second, third]

/-- A message made by `msg_init` is the one `msgWire` writes down. -/
theorem wire_eq_msgWire {m : Outgoing} {token : Token} {type : MessageType} {payload : Option (List Byte)}
    {length : Nat} (made : m.msg = msgInit token type payload length) :
    m.wire = msgWire ⟨token, m.clock⟩ type (m.payloadHdr.getD []) (payload.getD []) := by
  simp only [Outgoing.wire, Outgoing.header, Outgoing.body, msgWire, made, msgInit, List.length_append]

/-- Mirrors `chunk_send`, whose `Message` has the token of the memory it lies in. -/
def chunkSend (chunk : Chunk) (stamp : Stamp) (out : Outlet) : Sending :=
  match msgSend (msgInit stamp.token .sendChunk (some chunk.data) chunk.hdr.length) stamp.sentAt
    (some chunk.hdr.encode) out with
  | .aborted => .aborted
  | .ret code out => if code < 0 then .ret code out else .ret chunk.hdr.length out

/-- The bytes it puts on a reliable connection are those of `chunkWire`. -/
theorem chunkSend_reliable {chunk : Chunk} {stamp : Stamp} {out : Outlet} (reliable : out.Reliable)
    (length : chunk.hdr.length = chunk.data.length) (data : chunk.data ≠ [])
    (fits : sizeofChunkHdr + chunk.data.length < 2 ^ 63) :
    ∃ calls, chunkSend chunk stamp out = .ret chunk.hdr.length ⟨out.tx ++ chunkWire stamp chunk, calls⟩ := by
  have headed : chunk.hdr.encode ≠ [] := by
    refine List.ne_nil_of_length_pos ?_
    rw [ChunkHdr.length_encode]
    decide
  obtain ⟨calls, sent, -⟩ := @msgSend_reliable
    ⟨msgInit stamp.token .sendChunk (some chunk.data) chunk.hdr.length, stamp.sentAt, some chunk.hdr.encode,
      length, fun same => data (Option.some.inj same), fun same => headed (Option.some.inj same),
      (by decide : MessageType.sendChunk.toNat < 2 ^ 32), by rw [Option.getD_some, ChunkHdr.length_encode]; exact fits⟩
    out reliable
  refine ⟨calls, ?_⟩
  rw [wire_eq_msgWire rfl] at sent
  have going : ¬ ((0 : Int) < 0) := Int.lt_irrefl 0
  simp only [chunkSend, sent, if_neg going]
  rfl

/-- Send messages one after the other, up to the first that fails. -/
def sendMessages : List Outgoing → Outlet → Sending
  | [], out => .ret 0 out
  | m :: ms, out => (msgSend m.msg m.clock m.payloadHdr out).andThen (sendMessages ms)

theorem sendMessages_reliable {ms : List Outgoing} {out : Outlet} (reliable : out.Reliable) :
    ∃ calls, sendMessages ms out = .ret 0 ⟨out.tx ++ ms.flatMap Outgoing.wire, calls⟩ := by
  induction ms generalizing out with
  | nil => exact ⟨out.calls, by rw [sendMessages, List.flatMap_nil, List.append_nil]⟩
  | cons m ms ih =>
      obtain ⟨calls, sent, reliable'⟩ := @msgSend_reliable m out reliable
      obtain ⟨later, all⟩ := ih reliable'
      refine ⟨later, ?_⟩
      have going : ¬ ((0 : Int) < 0) := Int.lt_irrefl 0
      rw [sendMessages, sent, Sending.andThen, if_neg going, all, List.flatMap_cons, List.append_assoc]

/-! ### Receiving -/

/-- `msg_recv` is the two calls in one. -/
theorem msgRecv_eq (sock : Sock) (maxlen : Nat) :
    msgRecv sock maxlen =
      match recvAll sock sizeofMessageHdr with
      | .fail ret _ sock => .fail ret sock
      | .blocked => .blocked
      | .ok data sock =>
          let hdr := MessageHdr.decode data
          if hdr.length > maxlen then .fail (-3) sock
          else if hdr.length > 0 then
            match recvAll sock hdr.length with
            | .ok payload sock => .ok (hdr, payload) sock
            | .fail ret _ sock => .fail ret sock
            | .blocked => .blocked
          else .ok (hdr, []) sock := by
  unfold msgRecv msgRecvHeader msgRecvPayload
  cases recvAll sock sizeofMessageHdr with
  | fail ret got rest => rfl
  | blocked => rfl
  | ok data rest =>
      dsimp only
      split_ifs <;> rfl

/-- How a receiver is organised: one call of `msg_recv`, or `msg_recv_header` and then
`msg_recv_payload`. -/
inductive Receiver where
  | whole | split
  deriving DecidableEq

def Receiver.recv (how : Receiver) (sock : Sock) (maxlen : Nat) : Received (MessageHdr × List Byte) :=
  match how with
  | .whole => msgRecv sock maxlen
  | .split =>
      match msgRecvHeader sock with
      | .fail ret sock => .fail ret sock
      | .blocked => .blocked
      | .ok hdr sock =>
          match msgRecvPayload sock hdr.length maxlen with
          | .ok payload sock => .ok (hdr, payload) sock
          | .fail ret _ sock => .fail ret sock
          | .blocked => .blocked

/-- What is compared of a message that has been received. -/
def shown (got : MessageHdr × List Byte) : Nat × Token × Nat × List Byte :=
  (got.1.type, got.1.token, got.1.length, got.2)

/-- Both organisations receive the same. -/
theorem Receiver.recv_eq (how : Receiver) (sock : Sock) (maxlen : Nat) :
    how.recv sock maxlen = msgRecv sock maxlen := by
  cases how with
  | whole => rfl
  | split =>
      unfold Receiver.recv msgRecv
      cases msgRecvHeader sock <;> rfl

section Front

variable {m : Outgoing} {how : Receiver} {sock : Sock} {maxlen : Nat} {rest : List Byte}

/-- The header of a message at the front of the stream. -/
theorem msgRecvHeader_wire (arrived : sock.rx = m.header.encode ++ rest) :
    ∃ hdr sched, msgRecvHeader sock = .ok hdr ⟨rest, sched, sock.fin⟩ ∧ hdr.length = m.body.length ∧
      shown (hdr, m.body) = m.shown := by
  obtain ⟨sched, received⟩ := msgRecvHeader_encode arrived
  have length : (MessageHdr.decode m.header.encode).length = m.body.length :=
    MessageHdr.decode_encode_length (Nat.lt_trans m.body_lt (by decide))
  refine ⟨_, sched, received, length, ?_⟩
  have type : (MessageHdr.decode m.header.encode).type = m.header.type :=
    MessageHdr.decode_encode_type m.type_lt
  rw [shown, Outgoing.shown, length, type, MessageHdr.decode_encode_token]
  rfl

/-- A message at the front of the stream is received, and nothing else. -/
theorem recv_wire (arrived : sock.rx = m.wire ++ rest) (within : m.body.length ≤ maxlen) :
    ∃ got sched, how.recv sock maxlen = .ok got ⟨rest, sched, sock.fin⟩ ∧ shown got = m.shown := by
  rw [Outgoing.wire, List.append_assoc] at arrived
  obtain ⟨hdr, sched, header, length, same⟩ := msgRecvHeader_wire arrived
  have there : hdr.length ≤ (m.body ++ rest).length := by
    rw [length, List.length_append]
    exact Nat.le_add_right _ _
  obtain ⟨sched', payload⟩ := @msgRecvPayload_of_le ⟨m.body ++ rest, sched, sock.fin⟩ hdr.length maxlen
    (length ▸ within) there
  refine ⟨(hdr, m.body), sched', ?_, same⟩
  simp only [length, List.take_left, List.drop_left] at payload
  simp only [Receiver.recv_eq, msgRecv, header, length, payload]

/-- A message longer than the receiver allows is refused with its payload still on the
stream. -/
theorem recv_excess (arrived : sock.rx = m.wire ++ rest) (excess : maxlen < m.body.length) :
    ∃ sched, how.recv sock maxlen = .fail (-3) ⟨m.body ++ rest, sched, sock.fin⟩ := by
  rw [Outgoing.wire, List.append_assoc] at arrived
  obtain ⟨hdr, sched, header, length, -⟩ := msgRecvHeader_wire arrived
  refine ⟨sched, ?_⟩
  simp only [Receiver.recv_eq, msgRecv, header, msgRecvPayload, length]
  rw [if_pos excess]

/-- A message of which the stream holds only a part is not received. -/
theorem recv_early (early : sock.rx <+: m.wire) (short : sock.rx.length < m.wire.length)
    (within : m.body.length ≤ maxlen) (closed : sock.fin = .closed) :
    ∃ rest, how.recv sock maxlen = .fail (-2) rest := by
  rw [Receiver.recv_eq]
  by_cases inside : sock.rx.length < sizeofMessageHdr
  · obtain ⟨sched, header⟩ := msgRecvHeader_of_lt inside
    rw [closed] at header
    exact ⟨_, by rw [msgRecv, header]⟩
  · have whole : m.header.encode <+: sock.rx := by
      refine List.prefix_of_prefix_length_le (List.prefix_append _ _) early ?_
      rw [MessageHdr.length_encode]
      exact Nat.le_of_not_lt inside
    obtain ⟨part, arrived⟩ := whole
    obtain ⟨hdr, sched, header, length, -⟩ := msgRecvHeader_wire arrived.symm
    rw [← arrived, List.length_append, MessageHdr.length_encode, Outgoing.length_wire] at short
    have missing : part.length < hdr.length := by
      rw [length]
      exact Nat.lt_of_add_lt_add_left short
    have positive : 0 < hdr.length := Nat.lt_of_le_of_lt (Nat.zero_le _) missing
    obtain ⟨sched', dry⟩ := @recvAll_of_lt ⟨part, sched, sock.fin⟩ hdr.length missing
    refine ⟨⟨[], sched', .closed⟩, ?_⟩
    simp only [RecvAll.dry, closed] at dry
    simp only [msgRecv, header, msgRecvPayload, closed]
    rw [if_neg (Nat.not_lt.mpr (length ▸ within)), if_pos positive, dry]

end Front

/-- A message with the receiver that takes it, and his limit. -/
structure Delivery where
  sent : Outgoing
  how : Receiver
  maxlen : Nat

/-- Receive messages one after the other, up to the first that fails: the messages, and
how the last call went. -/
def receive : List (Receiver × Nat) → Sock → List (MessageHdr × List Byte) × Received Unit
  | [], sock => ([], .ok () sock)
  | (how, maxlen) :: plan, sock =>
      match how.recv sock maxlen with
      | .ok got sock =>
          let (later, last) := receive plan sock
          (got :: later, last)
      | .fail ret sock => ([], .fail ret sock)
      | .blocked => ([], .blocked)

section Deliveries

variable {ds before after : List Delivery} {sock : Sock} {rest : List Byte}

/-- What the messages are on the wire, and how they are to be taken from it. -/
def wires (ds : List Delivery) : List Byte := ds.flatMap fun d => d.sent.wire

def plan (ds : List Delivery) : List (Receiver × Nat) := ds.map fun d => (d.how, d.maxlen)

/-- The receiver allows all the messages. -/
def Within (ds : List Delivery) : Prop := ∀ d ∈ ds, d.sent.body.length ≤ d.maxlen

/-- What has been received of the first messages, with how the next ones go. -/
theorem receive_append {later : List (Receiver × Nat)} (within : Within before)
    (arrived : sock.rx = wires before ++ rest) :
    ∃ got sched, got.map shown = before.map (fun d => d.sent.shown) ∧
      receive (plan before ++ later) sock =
        (got ++ (receive later ⟨rest, sched, sock.fin⟩).1, (receive later ⟨rest, sched, sock.fin⟩).2) := by
  induction before generalizing sock with
  | nil =>
      obtain ⟨rx, sched, fin⟩ := sock
      cases arrived
      exact ⟨[], sched, rfl, rfl⟩
  | cons d ds ih =>
      rw [wires, List.flatMap_cons, List.append_assoc] at arrived
      obtain ⟨first, sched, received, same⟩ := @recv_wire d.sent d.how sock d.maxlen _ arrived
        (within d List.mem_cons_self)
      obtain ⟨got, sched', shows, rest'⟩ := @ih ⟨wires ds ++ rest, sched, sock.fin⟩
        (fun d mem => within d (List.mem_cons_of_mem _ mem)) rfl
      refine ⟨first :: got, sched', by rw [List.map_cons, List.map_cons, same, shows], ?_⟩
      rw [wires] at rest'
      simp only [plan, List.map_cons, List.cons_append, receive, received]
      rw [plan] at rest'
      rw [rest']

/-- A stream that ends early ends within some message, with those before it there as a
whole. -/
theorem split_of_early {early : List Byte} (prior : early <+: wires ds) (short : early ≠ wires ds) :
    ∃ before d after part, ds = before ++ d :: after ∧ early = wires before ++ part ∧
      part <+: d.sent.wire ∧ part.length < d.sent.wire.length := by
  induction ds generalizing early with
  | nil => exact absurd (List.prefix_nil.mp prior) short
  | cons d ds ih =>
      rw [wires, List.flatMap_cons] at prior short
      by_cases inside : early.length < d.sent.wire.length
      · refine ⟨[], d, ds, early, rfl, rfl, ?_, inside⟩
        exact List.prefix_of_prefix_length_le prior (List.prefix_append _ _) (Nat.le_of_lt inside)
      · have whole := List.prefix_of_prefix_length_le (List.prefix_append d.sent.wire _) prior
          (Nat.le_of_not_lt inside)
        obtain ⟨later, rfl⟩ := whole
        have prior' := (List.prefix_append_right_inj _).mp prior
        obtain ⟨before, e, after, part, rfl, rfl, front, less⟩ := ih prior' fun same => short (by rw [same]; rfl)
        exact ⟨d :: before, e, after, part, rfl, by simp [wires], front, less⟩

end Deliveries

/-- Blocking framing. Whatever messages are sent on a reliable connection, and however the
calls of both ends split the bytes and are interrupted: every `msg_send` returns 0, and
from what is then on the wire a receiver that allows their lengths gets the same messages
and stops at the end of the stream. A first message too long for him yields -3, and a
stream that is closed early yields -2, after the messages before. -/
theorem framing_roundTrip (ds : List Delivery) (out : Outlet) (reliable : out.Reliable) :
    ∃ stream calls, sendMessages (ds.map Delivery.sent) out = .ret 0 ⟨out.tx ++ stream, calls⟩ ∧
      (Within ds → ∀ sched fin, ∃ got sched', got.map shown = ds.map (fun d => d.sent.shown) ∧
        receive (plan ds) ⟨stream, sched, fin⟩ = (got, .ok () ⟨[], sched', fin⟩)) ∧
      (∀ before d after, ds = before ++ d :: after → Within before → d.maxlen < d.sent.body.length →
        ∀ sched fin, ∃ got rest, got.map shown = before.map (fun d => d.sent.shown) ∧
          receive (plan ds) ⟨stream, sched, fin⟩ = (got, .fail (-3) rest)) ∧
      (∀ early, early <+: stream → early ≠ stream → Within ds → ∀ sched,
        ∃ before d after got rest, ds = before ++ d :: after ∧ wires before <+: early ∧
          got.map shown = before.map (fun d => d.sent.shown) ∧
            receive (plan ds) ⟨early, sched, .closed⟩ = (got, .fail (-2) rest)) := by
  obtain ⟨calls, sent⟩ := @sendMessages_reliable (ds.map Delivery.sent) out reliable
  rw [List.flatMap_map] at sent
  refine ⟨wires ds, calls, sent, ?_, ?_, ?_⟩
  · intro within sched fin
    have arrived : (Sock.mk (wires ds) sched fin).rx = wires ds ++ [] := (List.append_nil _).symm
    obtain ⟨got, sched', shows, received⟩ := @receive_append ds _ [] [] within arrived
    refine ⟨got, sched', shows, ?_⟩
    rwa [List.append_nil, receive, List.append_nil] at received
  · rintro before d after rfl within excess sched fin
    have arrived : (Sock.mk (wires (before ++ d :: after)) sched fin).rx =
        wires before ++ (d.sent.wire ++ wires after) := by
      simp [wires]
    obtain ⟨got, sched', shows, received⟩ := @receive_append before _ _ (plan (d :: after)) within arrived
    obtain ⟨sched'', refused⟩ := @recv_excess d.sent d.how ⟨d.sent.wire ++ wires after, sched', fin⟩ d.maxlen
      _ rfl excess
    refine ⟨got, ⟨d.sent.body ++ wires after, sched'', fin⟩, shows, ?_⟩
    have whole : plan (before ++ d :: after) = plan before ++ plan (d :: after) := by simp [plan]
    rw [whole, received]
    simp only [plan, List.map_cons, receive, refused, List.append_nil]
  · intro early prior short within sched
    obtain ⟨before, d, after, part, rfl, rfl, front, less⟩ := split_of_early prior short
    have allowed : Within before := fun e mem => within e (List.mem_append_left _ mem)
    have fits := within d (List.mem_append_right _ List.mem_cons_self)
    obtain ⟨got, sched', shows, received⟩ := @receive_append before ⟨wires before ++ part, sched, .closed⟩
      part (plan (d :: after)) allowed rfl
    obtain ⟨rest, stopped⟩ := @recv_early d.sent d.how ⟨part, sched', .closed⟩ d.maxlen front less fits rfl
    refine ⟨before, d, after, got, rest, rfl, List.prefix_append _ _, shows, ?_⟩
    have whole : plan (before ++ d :: after) = plan before ++ plan (d :: after) := by simp [plan]
    rw [whole, received]
    simp only [plan, List.map_cons, receive, stopped, List.append_nil]

/-- A message without payload and one with both parts. -/
def twoDeliveries : List Delivery :=
  [⟨⟨msgInit Token.null .none none 0, (0, 0), none, rfl, nofun, nofun, by decide, by decide⟩, .whole, 0⟩,
   ⟨⟨msgInit Token.null .sendChunk (some [1, 2]) 2, (7, 9), some [3], rfl, by decide, by decide, by decide,
      by decide⟩, .split, 3⟩]

/-- They arrive over calls that are interrupted and split them. -/
theorem framing_two :
    ∃ stream calls, sendMessages (twoDeliveries.map Delivery.sent) ⟨[], [.interrupted, .took 3, .took 0]⟩ =
        .ret 0 ⟨[] ++ stream, calls⟩ ∧
      ∃ got sched, got.map shown = twoDeliveries.map (fun d => d.sent.shown) ∧
        receive (plan twoDeliveries) ⟨stream, [none, some 5], .closed⟩ = (got, .ok () ⟨[], sched, .closed⟩) := by
  have reliable : (Outlet.mk [] [.interrupted, .took 3, .took 0]).Reliable := by
    simp [Outlet.Reliable]
  have within : Within twoDeliveries := by
    simp [Within, twoDeliveries, Outgoing.body, msgInit]
  obtain ⟨stream, calls, sent, arrive, -⟩ := framing_roundTrip twoDeliveries _ reliable
  exact ⟨stream, calls, sent, arrive within [none, some 5] .closed⟩

end MiniDropbox
