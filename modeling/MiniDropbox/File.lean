/-
Sending and receiving a file chunk by chunk (`file.c`).

`file_send` and `file_recv` run against each other, so each loop is a step
function on an explicit state: the program counter with the loop variables, the
file, and the socket. A step returns the next state and the bytes it sends;
`none` means that the loop has returned or waits for the peer. What the system
calls of a step do is the step's `SendSys` or `RecvSys`.

`recvLoop` and `sendLoop` run one side alone against whatever has arrived, with as
many steps as the bytes allow.
-/

import Mathlib.Data.List.Basic
import MiniDropbox.Chunk
import MiniDropbox.Lib.Rounding
import MiniDropbox.Lib.Splice

namespace MiniDropbox

/-! ### File information -/

/-- Mirrors `FileInfo`. The name is what a reader of the field sees as a C string. -/
structure FileInfo where
  size : Nat
  chunkCount : Nat
  checksum : Checksum
  filename : CStr
  deriving DecidableEq

def sizeofFileInfo : Nat := 8 + 8 + 32 + PATH_MAX

/-- `ceil((float)size / CHUNK_SIZE)`. -/
def chunkCount (size : Nat) : Nat := (Rounding.nearest 24 size + (CHUNK_SIZE - 1)) / CHUNK_SIZE

/-- The structure as it is sent. The bytes behind the name's terminator are cleared; where
`strcpy` wrote a name over a longer one they are what the longer name left, and no receiver
reads them. -/
def FileInfo.encode (info : FileInfo) : List Byte :=
  LittleEndian.encode 8 info.size ++ (LittleEndian.encode 8 info.chunkCount ++ (info.checksum.1 ++
    (info.filename ++ List.replicate PATH_MAX 0).take PATH_MAX))

/-- The structure at the beginning of a memory area. A name that fills its field
without a terminator runs on into what follows. -/
def FileInfo.decode (memory : List Byte) : FileInfo where
  size := LittleEndian.decode (memory.take 8)
  chunkCount := LittleEndian.decode ((memory.drop 8).take 8)
  checksum := ⟨(memory.drop 16 ++ List.replicate 32 0).take 32, by simp⟩
  filename := cString (memory.drop 48)

/-- The numbers of the structure fit their fields, and the name fits with its
terminator. -/
structure FileInfo.Fits (info : FileInfo) : Prop where
  size : info.size < 2 ^ 64
  chunkCount : info.chunkCount < 2 ^ 64
  name : 0 ∉ info.filename
  short : info.filename.length < PATH_MAX

@[simp] theorem FileInfo.length_encode (info : FileInfo) : info.encode.length = sizeofFileInfo := by
  simp only [FileInfo.encode, List.length_append, LittleEndian.length_encode, info.checksum.2,
    List.length_take, List.length_replicate, sizeofFileInfo]
  omega

/-- A name with a terminator behind it is read as it is. -/
theorem cString_append {name : CStr} {rest : List Byte} (clean : 0 ∉ name) :
    cString (name ++ 0 :: rest) = name := by
  rw [cString, List.takeWhile_append_of_pos, List.takeWhile_cons_of_neg (by simp), List.append_nil]
  intro c hc
  simp only [ne_eq, decide_eq_true_eq]
  rintro rfl
  exact clean hc

/-- A structure sent over the wire is read back, whatever follows it. -/
theorem FileInfo.decode_encode {info : FileInfo} (fits : info.Fits) (rest : List Byte) :
    FileInfo.decode (info.encode ++ rest) = info := by
  obtain ⟨room, size⟩ : ∃ room, PATH_MAX = info.filename.length + (room + 1) :=
    ⟨PATH_MAX - info.filename.length - 1, by have := fits.short; omega⟩
  have name : (info.filename ++ List.replicate PATH_MAX 0).take PATH_MAX =
      info.filename ++ 0 :: List.replicate room 0 := by
    rw [List.take_append, List.take_of_length_le (by omega), List.take_replicate,
      show min (PATH_MAX - info.filename.length) PATH_MAX = room + 1 by omega, List.replicate_succ]
  have tail : info.encode ++ rest = LittleEndian.encode 8 info.size ++
      (LittleEndian.encode 8 info.chunkCount ++ (info.checksum.1 ++
        (info.filename ++ 0 :: (List.replicate room 0 ++ rest)))) := by
    rw [FileInfo.encode, name]
    simp only [List.append_assoc, List.cons_append]
  rw [tail]
  have skip8 : ∀ after : List Byte, (LittleEndian.encode 8 info.size ++ after).drop 8 = after :=
    fun after => List.drop_left' (by simp)
  have skip16 : ∀ after : List Byte, (LittleEndian.encode 8 info.size ++
      (LittleEndian.encode 8 info.chunkCount ++ after)).drop 16 = after := fun after => by
    rw [← List.append_assoc, List.drop_left' (by simp)]
  have skip48 : ∀ after : List Byte, (LittleEndian.encode 8 info.size ++
      (LittleEndian.encode 8 info.chunkCount ++ (info.checksum.1 ++ after))).drop 48 = after :=
    fun after => by
      rw [← List.append_assoc, ← List.append_assoc, List.drop_left' (by simp [info.checksum.2])]
  have sizeField : LittleEndian.decode (LittleEndian.encode 8 info.size) = info.size :=
    LittleEndian.decode_encode_of_lt (by have := fits.size; omega)
  have countField : LittleEndian.decode (LittleEndian.encode 8 info.chunkCount) = info.chunkCount :=
    LittleEndian.decode_encode_of_lt (by have := fits.chunkCount; omega)
  have sumField : ∀ after : List Byte, (info.checksum.1 ++ after ++ List.replicate 32 0).take 32 =
      info.checksum.1 := fun after => by
    rw [List.append_assoc, List.take_left' info.checksum.2]
  simp only [FileInfo.decode, skip8, skip16, skip48, List.take_left' (LittleEndian.length_encode 8 _),
    sizeField, countField, sumField, cString_append fits.name]

/-- The chunk count of a structure sent over the wire, whatever its name. -/
theorem FileInfo.decode_encode_chunkCount {info : FileInfo} (small : info.chunkCount < 2 ^ 64) :
    (FileInfo.decode info.encode).chunkCount = info.chunkCount := by
  have field : (info.encode.drop 8).take 8 = LittleEndian.encode 8 info.chunkCount := by
    rw [FileInfo.encode, List.drop_left' (LittleEndian.length_encode 8 _),
      List.take_left' (LittleEndian.length_encode 8 _)]
  rw [FileInfo.decode, field]
  exact LittleEndian.decode_encode_of_lt (by omega)

/-! ### The receiving side -/

/-- Mirrors `FileRecvStats`. -/
structure FileRecvStats where
  lastChunkRecvd : Nat
  errorCode : Int
  deriving DecidableEq, Repr

/-- Where `file_recv` stands: at the loop test, about to ask for a chunk again,
about to acknowledge one, about to write it, returned, or killed by the copy from
an unallocated payload. -/
inductive RecvPc where
  | top (seq : Nat)
  | again (seq : Nat)
  | ok (seq : Nat) (chunk : Chunk)
  | write (seq : Nat) (chunk : Chunk)
  | ret (stats : FileRecvStats)
  | fault
  deriving DecidableEq

/-- The state of `file_recv`: `pos` is the offset of the descriptor and `writes`
records the calls of `write`, each with its offset and data. -/
structure RecvState where
  pc : RecvPc
  pos : Nat
  file : List Byte
  writes : List (Nat × List Byte)
  sock : Sock

/-- The result of `msg_send`. -/
inductive SendRet where
  | ok | error | disconnected
  deriving DecidableEq, Repr

def SendRet.code : SendRet → Int
  | .ok => 0
  | .error => -1
  | .disconnected => -2

/-- What the system does in one step of `file_recv`: the memory behind a received
payload, whether `lseek` fails, the result of `msg_send`, how many bytes a `write`
leaves out, and the stamp of a reply. -/
structure RecvSys where
  junk : Junk
  lseekFails : Bool
  sent : SendRet
  lost : Nat
  stamp : Stamp

/-- The checks of a received chunk: the first one may move the start, any other
must be the expected one. -/
def recvAccept (sys : RecvSys) (s : RecvState) (seq : Nat) (chunk : Chunk) (sock : Sock) :
    RecvState :=
  if seq = 0 ∧ chunk.hdr.seq > 0 then
    match if sys.lseekFails then none else offT (chunk.hdr.seq * CHUNK_SIZE) with
    | none => { s with pc := .ret ⟨chunk.hdr.seq, -3⟩, sock := sock }
    | some pos => { s with pc := .ok chunk.hdr.seq chunk, pos := pos, sock := sock }
  else if seq ≠ chunk.hdr.seq then { s with pc := .ret ⟨seq, -4⟩, sock := sock }
  else { s with pc := .ok seq chunk, sock := sock }

/-- One step of `file_recv`, for a `FileInfo` with the given `chunk_count`. -/
def recvStep (libs : Externals) (count : Nat) (sys : RecvSys) (s : RecvState) :
    Option (RecvState × List Byte) :=
  match s.pc with
  | .top seq =>
      if seq < count then
        match chunkRecv libs sys.junk s.sock with
        | .blocked => none
        | .fault => some ({ s with pc := .fault }, [])
        | .fail ret sock =>
            if ret = -3 then some ({ s with pc := .again seq, sock := sock }, [])
            else some ({ s with pc := .ret ⟨seq, ret⟩, sock := sock }, [])
        | .ok _ chunk sock => some (recvAccept sys s seq chunk sock, [])
      else some ({ s with pc := .ret ⟨seq, 0⟩ }, [])
  | .again seq =>
      if sys.sent.code < 0 then some ({ s with pc := .ret ⟨seq, sys.sent.code⟩ }, [])
      else some ({ s with pc := .top seq }, msgWire sys.stamp .chunkAgain [] [])
  | .ok seq chunk =>
      if sys.sent.code < 0 then some ({ s with pc := .ret ⟨seq, sys.sent.code⟩ }, [])
      else some ({ s with pc := .write seq chunk }, msgWire sys.stamp .chunkOk [] [])
  | .write seq chunk =>
      let stored := chunk.data.take (chunk.data.length - sys.lost)
      some ({ s with
        pc := .top (sizeT (seq + 1))
        pos := s.pos + stored.length
        file := Splice.splice 0 s.file s.pos stored
        writes := s.writes ++ [(s.pos, chunk.data)] }, [])
  | .ret _ => none
  | .fault => none

/-- The state of `file_recv` when it has opened the file. -/
def recvStart (file : List Byte) (sock : Sock) : RecvState := ⟨.top 0, 0, file, [], sock⟩

/-- The loop of `file_recv` against what has arrived, with the system calls of each
step: the state in which it stops, and the bytes it has sent. -/
def recvLoop (libs : Externals) (count : Nat) (sys : Nat → RecvSys) :
    Nat → RecvState → RecvState × List Byte
  | 0, s => (s, [])
  | fuel + 1, s =>
      match recvStep libs count (sys fuel) s with
      | none => (s, [])
      | some (next, out) =>
          let final := recvLoop libs count sys fuel next
          (final.1, out ++ final.2)

/-- Steps that suffice for the bytes a socket holds. -/
def Sock.fuel (sock : Sock) : Nat := 4 * sock.rx.length + 3

/-! ### The sending side -/

/-- Mirrors `FileSendStats`. -/
structure FileSendStats where
  lastChunkSent : Nat
  errorCode : Int
  deriving DecidableEq, Repr

/-- Where `file_send` stands: at the loop test, about to send a chunk, waiting for
the answer, or returned. -/
inductive SendPc where
  | top (seq start : Nat)
  | send (seq start : Nat) (chunk : Chunk)
  | await (seq start : Nat) (chunk : Chunk)
  | ret (stats : FileSendStats)
  deriving DecidableEq

/-- The state of `file_send`: `off` is the offset of the descriptor. -/
structure SendState where
  pc : SendPc
  off : Nat
  sock : Sock

/-- What the system does in one step of `file_send`: `read` fails with `none` and
delivers at most `k + 1` bytes with `some k`; the result of `msg_send`; the stamp
of a message. -/
structure SendSys where
  read : Option Nat
  sent : SendRet
  stamp : Stamp

/-- The chunk made of a buffer read at `start`. -/
def sendChunk (libs : Externals) (seq start : Nat) (buf : List Byte) : Chunk :=
  chunkInit libs ⟨seq, start, sizeT (start + buf.length - 1), buf.length, ⟨List.replicate 32 0, length_zeroed⟩⟩ buf

/-- One step of `file_send`, for a file and its `chunk_count`. -/
def sendStep (libs : Externals) (content : List Byte) (count : Nat) (sys : SendSys) (s : SendState) :
    Option (SendState × List Byte) :=
  match s.pc with
  | .top seq start =>
      if seq < count then
        match sys.read with
        | none => some ({ s with pc := .ret ⟨sizeT (seq + 1), -1⟩ }, [])
        | some k =>
            let buf := (content.drop s.off).take (min (k + 1) CHUNK_SIZE)
            if buf = [] then some ({ s with pc := .ret ⟨sizeT (seq + 1), -1⟩ }, [])
            else some ({ s with
              pc := .send seq start (sendChunk libs seq start buf)
              off := s.off + buf.length }, [])
      else some ({ s with pc := .ret ⟨seq, 0⟩ }, [])
  | .send seq start chunk =>
      if sys.sent.code < 0 then some ({ s with pc := .ret ⟨sizeT (seq + (2 ^ 64 - 1)), -5⟩ }, [])
      else some ({ s with pc := .await seq start chunk }, chunkWire sys.stamp chunk)
  | .await seq start chunk =>
      match msgRecv s.sock 0 with
      | .blocked => none
      | .fail _ sock => some ({ s with pc := .ret ⟨sizeT (seq + (2 ^ 64 - 1)), -6⟩, sock := sock }, [])
      | .ok msg sock =>
          if msg.1.type = MessageType.chunkOk.toNat then
            some ({ s with
              pc := .top (sizeT (seq + 1)) (sizeT (start + chunk.hdr.length)), sock := sock }, [])
          else some ({ s with pc := .send seq start chunk, sock := sock }, [])
  | .ret _ => none

/-- The state of `file_send` when it has opened the file and moved to the start
chunk. The result of that `lseek` is not looked at. -/
def sendStart (startChunk : Nat) (sock : Sock) : SendState :=
  if startChunk > 0 then
    ⟨.top startChunk (sizeT (startChunk * CHUNK_SIZE)), (offT (startChunk * CHUNK_SIZE)).getD 0, sock⟩
  else ⟨.top 0 0, 0, sock⟩

/-- The loop of `file_send` against what has arrived, with the system calls of each
step: the state in which it stops, and the bytes it has sent. -/
def sendLoop (libs : Externals) (content : List Byte) (count : Nat) (sys : Nat → SendSys) :
    Nat → SendState → SendState × List Byte
  | 0, s => (s, [])
  | fuel + 1, s =>
      match sendStep libs content count (sys fuel) s with
      | none => (s, [])
      | some (next, out) =>
          let final := sendLoop libs content count sys fuel next
          (final.1, out ++ final.2)

@[simp] theorem sendStart_sock (startChunk : Nat) (sock : Sock) :
    (sendStart startChunk sock).sock = sock := by
  unfold sendStart
  split_ifs <;> rfl

end MiniDropbox
