/-
The message protocol: headers, their wire form, and receiving (`msg.c`, `msg.h`).

A message is a fixed header of `sizeofMessageHdr` bytes followed by `length`
payload bytes. `recvAll` is the receive loop over single `recv` calls; how much
each call delivers, and which are interrupted, is the schedule of the socket.
`recvAll_of_le` and `recvAll_of_lt` say what the loop amounts to on a blocking
socket: all the bytes asked for, or the error that ended the stream, whatever
the schedule.
-/

import Mathlib.Data.List.Basic
import MiniDropbox.Lib.LittleEndian
import MiniDropbox.Types

namespace MiniDropbox

/-! ### Message types -/

/-- Mirrors the `MSGTYPES` table, in its order. -/
inductive MessageType where
  | none | error | authReq | authOk | authFail | uploadReq | uploadRes | uploadFin
  | downloadReq | downloadRes | downloadFin | listReq | listRes | removeReq | removeRes
  | mkdirReq | mkdirRes | fileinfo | sendChunk | chunkOk | chunkAgain
  deriving DecidableEq, Repr

def MessageType.all : List MessageType :=
  [.none, .error, .authReq, .authOk, .authFail, .uploadReq, .uploadRes, .uploadFin,
   .downloadReq, .downloadRes, .downloadFin, .listReq, .listRes, .removeReq, .removeRes,
   .mkdirReq, .mkdirRes, .fileinfo, .sendChunk, .chunkOk, .chunkAgain]

/-- The enumerator of a type, its position in the table. -/
def MessageType.toNat (t : MessageType) : Nat := MessageType.all.idxOf t

/-- The type a raw 32-bit field denotes. `none` is the default arm of
`msg_type_to_str`, which fails an assertion. -/
def MessageType.ofNat? (n : Nat) : Option MessageType := MessageType.all[n]?

@[simp] theorem MessageType.ofNat?_toNat (t : MessageType) :
    MessageType.ofNat? t.toNat = some t := by
  cases t <;> rfl

theorem MessageType.toNat_of_ofNat? {n : Nat} {t : MessageType} (known : MessageType.ofNat? n = some t) :
    t.toNat = n := by
  obtain ⟨below, at_n⟩ := List.getElem?_eq_some_iff.mp known
  have once : MessageType.all.Nodup := by decide
  rw [← at_n, MessageType.toNat, once.idxOf_getElem]

theorem MessageType.toNat_lt (t : MessageType) : t.toNat < 21 := by
  cases t <;> decide

/-! ### Headers -/

/-- Mirrors `MessageHdr`. The type field is raw, as it comes from the peer. -/
structure MessageHdr where
  length : Nat
  type : Nat
  token : Token
  sentAt : Nat × Nat
  deriving DecidableEq

def sizeofMessageHdr : Nat := 48

/-- The header in memory: four bytes of padding precede the time stamp. -/
def MessageHdr.encode (h : MessageHdr) : List Byte :=
  LittleEndian.encode 8 h.length ++ (LittleEndian.encode 4 h.type ++ (h.token.1 ++
    (List.replicate 4 0 ++ (LittleEndian.encode 8 h.sentAt.1 ++
      LittleEndian.encode 8 h.sentAt.2))))

def MessageHdr.decode (bytes : List Byte) : MessageHdr where
  length := LittleEndian.decode (bytes.take 8)
  type := LittleEndian.decode ((bytes.drop 8).take 4)
  token := Token.ofBytes (bytes.drop 12)
  sentAt := (LittleEndian.decode ((bytes.drop 32).take 8), LittleEndian.decode ((bytes.drop 40).take 8))

@[simp] theorem MessageHdr.length_encode (h : MessageHdr) :
    h.encode.length = sizeofMessageHdr := by
  simp [MessageHdr.encode, h.token.2, sizeofMessageHdr]

theorem MessageHdr.decode_encode_length {h : MessageHdr} (fits : h.length < 2 ^ 64) :
    (MessageHdr.decode h.encode).length = h.length := by
  rw [MessageHdr.decode, MessageHdr.encode, List.take_append_of_le_length (by simp),
    List.take_of_length_le (by simp)]
  exact LittleEndian.decode_encode_of_lt (by omega)

theorem MessageHdr.decode_encode_type {h : MessageHdr} (fits : h.type < 2 ^ 32) :
    (MessageHdr.decode h.encode).type = h.type := by
  rw [MessageHdr.decode, MessageHdr.encode]
  simp only [List.drop_append, LittleEndian.length_encode]
  rw [List.drop_of_length_le (by simp), List.nil_append, Nat.sub_self, List.drop_zero,
    List.take_append_of_le_length (by simp), List.take_of_length_le (by simp)]
  exact LittleEndian.decode_encode_of_lt (by omega)

theorem MessageHdr.decode_encode_token (h : MessageHdr) :
    (MessageHdr.decode h.encode).token = h.token := by
  have skip : h.encode.drop 12 = h.token.1 ++ (List.replicate 4 0 ++
      (LittleEndian.encode 8 h.sentAt.1 ++ LittleEndian.encode 8 h.sentAt.2)) := by
    rw [MessageHdr.encode, ← List.append_assoc (LittleEndian.encode 8 h.length),
      List.drop_append_of_le_length (by simp), List.drop_of_length_le (by simp), List.nil_append]
  rw [MessageHdr.decode, skip]
  exact Token.ofBytes_append _ _

/-- What a `Message` variable holds beside the fields `msg_init` sets when a
message is sent: its token and the time of sending. -/
structure Stamp where
  token : Token
  sentAt : Nat × Nat

instance : Inhabited Stamp := ⟨Token.null, 0, 0⟩

/-- The bytes `msg_send` puts on the socket for a message made by `msg_init`,
with an optional payload header. -/
def msgWire (stamp : Stamp) (type : MessageType) (payloadHdr payload : List Byte) : List Byte :=
  (MessageHdr.mk (payloadHdr.length + payload.length) type.toNat stamp.token stamp.sentAt).encode ++
    (payloadHdr ++ payload)

@[simp] theorem length_msgWire (stamp : Stamp) (type : MessageType) (payloadHdr payload : List Byte) :
    (msgWire stamp type payloadHdr payload).length =
      sizeofMessageHdr + (payloadHdr.length + payload.length) := by
  simp [msgWire]

/-! ### Sockets -/

/-- What a receiver finds behind the bytes that have arrived: a connection still
open, a graceful close, or an error. -/
inductive SockEnd where
  | opened | closed | failed
  deriving DecidableEq, Repr

/-- The receiving side of a connection. Each `recv` call takes one entry of
`sched`: `none` interrupts it, `some k` delivers at most `k + 1` bytes. With no
entry left, `MSG_WAITALL` delivers what was asked for in one call. -/
structure Sock where
  rx : List Byte
  sched : List (Option Nat)
  fin : SockEnd

/-- The outcome of `recv_all`. A failure leaves the bytes received so far in the
buffer; `blocked` is a call that waits for bytes that have not been sent. -/
inductive RecvAll where
  | ok (data : List Byte) (sock : Sock)
  | fail (ret : Int) (got : List Byte) (sock : Sock)
  | blocked

/-- A `recv` call that finds no byte to deliver. -/
def RecvAll.dry (got : List Byte) (sock : Sock) : RecvAll :=
  match sock.fin with
  | .opened => .blocked
  | .closed => .fail (-2) got sock
  | .failed => .fail (-1) got sock

/-- The loop of `recv_all`: `left` bytes are still missing, `got` are there. -/
def recvAllLoop (fin : SockEnd) :
    List (Option Nat) → List Byte → Nat → List Byte → RecvAll
  | sched, rx, 0, got => .ok got ⟨rx, sched, fin⟩
  | Option.none :: sched, rx, left + 1, got => recvAllLoop fin sched rx (left + 1) got
  | some k :: sched, rx, left + 1, got =>
      if rx = [] then .dry got ⟨rx, sched, fin⟩
      else
        let nbytes := min (k + 1) (min rx.length (left + 1))
        recvAllLoop fin sched (rx.drop nbytes) (left + 1 - nbytes) (got ++ rx.take nbytes)
  | [], rx, left + 1, got =>
      if left + 1 ≤ rx.length then .ok (got ++ rx.take (left + 1)) ⟨rx.drop (left + 1), [], fin⟩
      else .dry (got ++ rx) ⟨[], [], fin⟩

/-- Mirrors `recv_all` on a blocking socket. -/
def recvAll (sock : Sock) (len : Nat) : RecvAll := recvAllLoop sock.fin sock.sched sock.rx len []

theorem recvAllLoop_of_le {fin : SockEnd} {left : Nat} :
    ∀ {sched : List (Option Nat)} {rx got : List Byte}, left ≤ rx.length →
      ∃ sched', recvAllLoop fin sched rx left got =
        .ok (got ++ rx.take left) ⟨rx.drop left, sched', fin⟩ := by
  intro sched
  induction sched generalizing left with
  | nil =>
      intro rx got enough
      cases left with
      | zero => exact ⟨[], by simp [recvAllLoop]⟩
      | succ left => exact ⟨[], by rw [recvAllLoop, if_pos enough]⟩
  | cons entry sched ih =>
      intro rx got enough
      cases left with
      | zero => exact ⟨entry :: sched, by simp [recvAllLoop]⟩
      | succ left =>
          cases entry with
          | none =>
              obtain ⟨sched', h⟩ := @ih _ _ got enough
              exact ⟨sched', by rw [recvAllLoop, h]⟩
          | some k =>
              have nonempty : rx ≠ [] := by
                rintro rfl
                simp at enough
              have still : left + 1 - min (k + 1) (min rx.length (left + 1)) ≤
                  (rx.drop (min (k + 1) (min rx.length (left + 1)))).length := by
                rw [List.length_drop]
                omega
              obtain ⟨sched', h⟩ := @ih _ _ (got ++ rx.take (min (k + 1) (min rx.length (left + 1))))
                still
              refine ⟨sched', ?_⟩
              rw [recvAllLoop, if_neg nonempty, h, List.append_assoc, ← List.take_add,
                List.drop_drop]
              rw [show min (k + 1) (min rx.length (left + 1)) +
                (left + 1 - min (k + 1) (min rx.length (left + 1))) = left + 1 by omega]

/-- When the bytes asked for are there, the loop returns exactly them and leaves
exactly the rest, however the calls split them. -/
theorem recvAll_of_le {sock : Sock} {len : Nat} (enough : len ≤ sock.rx.length) :
    ∃ sched, recvAll sock len = .ok (sock.rx.take len) ⟨sock.rx.drop len, sched, sock.fin⟩ :=
  recvAllLoop_of_le enough

/-- With nothing to interrupt it, one call delivers what was asked for. -/
theorem recvAll_waitall {rx : List Byte} {fin : SockEnd} {len : Nat} (enough : len ≤ rx.length) :
    recvAll ⟨rx, [], fin⟩ len = .ok (rx.take len) ⟨rx.drop len, [], fin⟩ := by
  cases len with
  | zero => simp [recvAll, recvAllLoop]
  | succ len => simp [recvAll, recvAllLoop, enough]

theorem recvAllLoop_of_lt {fin : SockEnd} {left : Nat} :
    ∀ {sched : List (Option Nat)} {rx got : List Byte}, rx.length < left →
      ∃ sched', recvAllLoop fin sched rx left got = .dry (got ++ rx) ⟨[], sched', fin⟩ := by
  intro sched
  induction sched generalizing left with
  | nil =>
      intro rx got short
      obtain ⟨left, rfl⟩ := Nat.exists_eq_succ_of_ne_zero (show left ≠ 0 by omega)
      exact ⟨[], by rw [recvAllLoop, if_neg (by omega)]⟩
  | cons entry sched ih =>
      intro rx got short
      obtain ⟨left, rfl⟩ := Nat.exists_eq_succ_of_ne_zero (show left ≠ 0 by omega)
      cases entry with
      | none =>
          obtain ⟨sched', h⟩ := @ih _ _ got short
          exact ⟨sched', by rw [recvAllLoop, h]⟩
      | some k =>
          by_cases empty : rx = []
          · exact ⟨sched, by simp [recvAllLoop, empty]⟩
          · have still : (rx.drop (min (k + 1) (min rx.length (left + 1)))).length <
                left + 1 - min (k + 1) (min rx.length (left + 1)) := by
              rw [List.length_drop]
              omega
            obtain ⟨sched', h⟩ := @ih _ _ (got ++ rx.take (min (k + 1) (min rx.length (left + 1))))
              still
            refine ⟨sched', ?_⟩
            rw [recvAllLoop, if_neg empty, h, List.append_assoc, List.take_append_drop]

/-- When the stream ends early, the loop has consumed all of it and reports how
it ended; on an open connection it waits. -/
theorem recvAll_of_lt {sock : Sock} {len : Nat} (short : sock.rx.length < len) :
    ∃ sched, recvAll sock len = .dry sock.rx ⟨[], sched, sock.fin⟩ :=
  recvAllLoop_of_lt short

/-! ### Receiving messages -/

/-- The outcome of a receive call that yields a value. -/
inductive Received (α : Type) where
  | ok (value : α) (sock : Sock)
  | fail (ret : Int) (sock : Sock)
  | blocked

/-- Mirrors `msg_recv_header`. -/
def msgRecvHeader (sock : Sock) : Received MessageHdr :=
  match recvAll sock sizeofMessageHdr with
  | .ok data sock => .ok (MessageHdr.decode data) sock
  | .fail ret _ sock => .fail ret sock
  | .blocked => .blocked

/-- Mirrors `msg_recv_payload`, for a header of the given length. A payload above
`maxlen` is refused before anything is allocated or received. -/
def msgRecvPayload (sock : Sock) (length maxlen : Nat) : RecvAll :=
  if length > maxlen then .fail (-3) [] sock
  else if length > 0 then recvAll sock length
  else .ok [] sock

/-- Mirrors `msg_recv`. -/
def msgRecv (sock : Sock) (maxlen : Nat) : Received (MessageHdr × List Byte) :=
  match msgRecvHeader sock with
  | .ok hdr sock =>
      match msgRecvPayload sock hdr.length maxlen with
      | .ok data sock => .ok (hdr, data) sock
      | .fail ret _ sock => .fail ret sock
      | .blocked => .blocked
  | .fail ret sock => .fail ret sock
  | .blocked => .blocked

/-- A payload within the limit that has arrived is received as it is. -/
theorem msgRecvPayload_of_le {sock : Sock} {length maxlen : Nat} (within : length ≤ maxlen)
    (arrived : length ≤ sock.rx.length) :
    ∃ sched, msgRecvPayload sock length maxlen =
      .ok (sock.rx.take length) ⟨sock.rx.drop length, sched, sock.fin⟩ := by
  unfold msgRecvPayload
  rw [if_neg (by omega)]
  split_ifs with positive
  · exact recvAll_of_le arrived
  · obtain rfl : length = 0 := by omega
    exact ⟨sock.sched, by simp⟩

/-- A payload at the front of what has arrived, with nothing to interrupt the call. -/
theorem msgRecvPayload_append {payload rest : List Byte} {fin : SockEnd} {maxlen : Nat}
    (within : payload.length ≤ maxlen) :
    msgRecvPayload ⟨payload ++ rest, [], fin⟩ payload.length maxlen = .ok payload ⟨rest, [], fin⟩ := by
  rw [msgRecvPayload, if_neg (Nat.not_lt.mpr within)]
  split_ifs with positive
  · rw [recvAll_waitall (by simp), List.take_left, List.drop_left]
  · rw [List.eq_nil_of_length_eq_zero (Nat.eq_zero_of_not_pos positive), List.nil_append]

/-- A header on the wire is received field by field. -/
theorem msgRecvHeader_encode {sock : Sock} {h : MessageHdr} {rest : List Byte}
    (arrived : sock.rx = h.encode ++ rest) :
    ∃ sched, msgRecvHeader sock = .ok (MessageHdr.decode h.encode) ⟨rest, sched, sock.fin⟩ := by
  have enough : sizeofMessageHdr ≤ sock.rx.length := by
    rw [arrived, List.length_append, MessageHdr.length_encode]
    omega
  obtain ⟨sched, received⟩ := recvAll_of_le enough
  refine ⟨sched, ?_⟩
  rw [msgRecvHeader, received, arrived, ← h.length_encode, List.take_left, List.drop_left]

/-- The header of a message that was sent is received with its length and type,
and its payload is what follows. -/
theorem msgRecvHeader_msgWire {sock : Sock} {stamp : Stamp} {type : MessageType}
    {payloadHdr payload rest : List Byte} (fits : payloadHdr.length + payload.length < 2 ^ 64)
    (arrived : sock.rx = msgWire stamp type payloadHdr payload ++ rest) :
    ∃ hdr sched, msgRecvHeader sock = .ok hdr ⟨payloadHdr ++ payload ++ rest, sched, sock.fin⟩ ∧
      hdr.length = payloadHdr.length + payload.length ∧ hdr.type = type.toNat := by
  have small := type.toNat_lt
  rw [msgWire, List.append_assoc] at arrived
  obtain ⟨sched, received⟩ := msgRecvHeader_encode arrived
  exact ⟨_, sched, received, MessageHdr.decode_encode_length fits,
    MessageHdr.decode_encode_type (show type.toNat < 2 ^ 32 by omega)⟩

theorem msgRecvHeader_of_lt {sock : Sock} (short : sock.rx.length < sizeofMessageHdr) :
    ∃ sched, msgRecvHeader sock = match sock.fin with
      | .opened => .blocked
      | .closed => .fail (-2) ⟨[], sched, .closed⟩
      | .failed => .fail (-1) ⟨[], sched, .failed⟩ := by
  obtain ⟨sched, received⟩ := recvAll_of_lt short
  refine ⟨sched, ?_⟩
  rw [msgRecvHeader, received, RecvAll.dry]
  cases sock.fin <;> rfl

/-- A message without payload is received by its type alone. -/
theorem msgRecv_msgWire_nil {sock : Sock} {stamp : Stamp} {type : MessageType}
    (arrived : sock.rx = msgWire stamp type [] []) :
    ∃ hdr sched, msgRecv sock 0 = .ok (hdr, []) ⟨[], sched, sock.fin⟩ ∧ hdr.type = type.toNat := by
  have whole : sock.rx = msgWire stamp type [] [] ++ [] := by rw [arrived, List.append_nil]
  obtain ⟨hdr, sched, header, hlength, htype⟩ := msgRecvHeader_msgWire (by simp) whole
  rw [List.length_nil] at hlength
  exact ⟨hdr, sched, by simp [msgRecv, header, msgRecvPayload, hlength], htype⟩

/-- On an open connection with nothing in flight `msg_recv` waits. -/
theorem msgRecv_of_opened {sock : Sock} {maxlen : Nat} (drained : sock.rx = [])
    (opened : sock.fin = .opened) : msgRecv sock maxlen = .blocked := by
  have short : sock.rx.length < sizeofMessageHdr := by rw [drained]; decide
  obtain ⟨sched, header⟩ := msgRecvHeader_of_lt short
  rw [msgRecv, header, opened]

end MiniDropbox
