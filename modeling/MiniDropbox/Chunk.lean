/-
Chunks: a file segment with its header, sent as one message (`chunk.c`).

`chunkRecv` follows the source in what it ignores. The result of receiving the
payload is not looked at, so the chunk is read from the allocated block whether
or not the bytes arrived, and the data length comes from the chunk header, not
from the message; bytes that were never received are whatever `malloc` left
there, and a length that leads out of what can be read ends the process.
`chunkRecv_chunkWire` is the case that matters for an honest peer: a whole chunk
message yields the chunk if its checksum matches and `-3` otherwise.
-/

import Mathlib.Data.List.Basic
import MiniDropbox.Msg

namespace MiniDropbox

def CHUNK_SIZE : Nat := 4096

/-- Mirrors `checksum_t`. -/
abbrev Checksum := { bytes : List Byte // bytes.length = 32 }

theorem length_zeroed : (List.replicate 32 (0 : Byte)).length = 32 := List.length_replicate

/-- Mirrors `checksum`. -/
def Externals.checksum (libs : Externals) (data : List Byte) : Checksum :=
  ⟨libs.sha256 data, libs.length_sha256 data⟩

/-! ### Reading an allocated block -/

/-- What memory holds from an allocated block on before anything is received into it,
and how many bytes can be read behind the end of the block. -/
structure Junk where
  bytes : Nat → Byte
  behind : Nat

instance : Inhabited Junk := ⟨fun _ => 0, 0⟩

/-- The memory from an allocated block on, after `got` has been received into it:
behind `got` it holds `junk`. -/
def block (got : List Byte) (junk : Junk) (i : Nat) : Byte := got.getD i (junk.bytes i)

/-- `len` bytes of memory from offset `off` on. -/
def slice (memory : Nat → Byte) (off len : Nat) : List Byte :=
  (List.range len).map fun i => memory (off + i)

@[simp] theorem length_slice (memory : Nat → Byte) (off len : Nat) :
    (slice memory off len).length = len := by
  simp [slice]

/-- Inside the received bytes a slice is a segment of them. -/
theorem slice_block {got : List Byte} {junk : Junk} {off len : Nat}
    (inside : off + len ≤ got.length) :
    slice (block got junk) off len = (got.drop off).take len := by
  apply List.ext_getElem
  · rw [length_slice, List.length_take, List.length_drop]
    omega
  · intro i hi _
    rw [length_slice] at hi
    simp [slice, block, List.getElem?_eq_getElem (show off + i < got.length by omega)]

/-! ### Chunk headers -/

/-- Mirrors `ChunkHdr`. -/
structure ChunkHdr where
  seq : Nat
  startByte : Nat
  endByte : Nat
  length : Nat
  checksum : Checksum
  deriving DecidableEq

def sizeofChunkHdr : Nat := 64

def ChunkHdr.encode (h : ChunkHdr) : List Byte :=
  LittleEndian.encode 8 h.seq ++ (LittleEndian.encode 8 h.startByte ++
    (LittleEndian.encode 8 h.endByte ++ (LittleEndian.encode 8 h.length ++ h.checksum.1)))

def ChunkHdr.decode (memory : Nat → Byte) : ChunkHdr where
  seq := LittleEndian.decode (slice memory 0 8)
  startByte := LittleEndian.decode (slice memory 8 8)
  endByte := LittleEndian.decode (slice memory 16 8)
  length := LittleEndian.decode (slice memory 24 8)
  checksum := ⟨slice memory 32 32, by simp⟩

@[simp] theorem ChunkHdr.length_encode (h : ChunkHdr) : h.encode.length = sizeofChunkHdr := by
  simp [ChunkHdr.encode, h.checksum.2, sizeofChunkHdr]

/-- Every number of the header fits its eight bytes. -/
structure ChunkHdr.Fits (h : ChunkHdr) : Prop where
  seq : h.seq < 2 ^ 64
  startByte : h.startByte < 2 ^ 64
  endByte : h.endByte < 2 ^ 64
  length : h.length < 2 ^ 64

theorem ChunkHdr.decode_block_encode {h : ChunkHdr} (fits : h.Fits) (rest : List Byte)
    (junk : Junk) : ChunkHdr.decode (block (h.encode ++ rest) junk) = h := by
  have size : ∀ off len, off + len ≤ 64 → off + len ≤ (h.encode ++ rest).length := by
    intro off len within
    rw [List.length_append, length_encode, sizeofChunkHdr]
    omega
  have field : ∀ (before : List Byte) (n : Nat) (after : List Byte), n < 2 ^ 64 →
      LittleEndian.decode (((before ++ (LittleEndian.encode 8 n ++ after)).drop before.length).take 8)
        = n := by
    intro before n after small
    rw [List.drop_left, List.take_append_of_le_length (by simp), List.take_of_length_le (by simp)]
    exact LittleEndian.decode_encode_of_lt (by omega)
  have seq := field [] h.seq (LittleEndian.encode 8 h.startByte ++ (LittleEndian.encode 8 h.endByte ++
    (LittleEndian.encode 8 h.length ++ (h.checksum.1 ++ rest)))) fits.seq
  have startByte := field (LittleEndian.encode 8 h.seq) h.startByte
    (LittleEndian.encode 8 h.endByte ++ (LittleEndian.encode 8 h.length ++ (h.checksum.1 ++ rest)))
    fits.startByte
  have endByte := field (LittleEndian.encode 8 h.seq ++ LittleEndian.encode 8 h.startByte) h.endByte
    (LittleEndian.encode 8 h.length ++ (h.checksum.1 ++ rest)) fits.endByte
  have length := field (LittleEndian.encode 8 h.seq ++ (LittleEndian.encode 8 h.startByte ++
    LittleEndian.encode 8 h.endByte)) h.length (h.checksum.1 ++ rest) fits.length
  have checksum : (((LittleEndian.encode 8 h.seq ++ (LittleEndian.encode 8 h.startByte ++
      (LittleEndian.encode 8 h.endByte ++ LittleEndian.encode 8 h.length))) ++
        (h.checksum.1 ++ rest)).drop 32).take 32 = h.checksum.1 := by
    rw [List.drop_append_of_le_length (by simp), List.drop_of_length_le (by simp), List.nil_append,
      List.take_append_of_le_length (by simp [h.checksum.2]),
      List.take_of_length_le (by simp [h.checksum.2])]
  simp only [List.length_append, LittleEndian.length_encode, List.append_assoc, List.length_nil,
    List.nil_append, Nat.reduceAdd] at seq startByte endByte length checksum
  simp only [decode, slice_block (size 0 8 (by decide)), slice_block (size 8 8 (by decide)),
    slice_block (size 16 8 (by decide)), slice_block (size 24 8 (by decide)),
    slice_block (size 32 32 (by decide))]
  simp only [encode, List.append_assoc, seq, startByte, endByte, length, checksum]

/-! ### Sending and receiving -/

/-- Mirrors `Chunk`. -/
structure Chunk where
  hdr : ChunkHdr
  data : List Byte
  deriving DecidableEq

/-- Mirrors `chunk_init`: the header gets the checksum of the data. -/
def chunkInit (libs : Externals) (hdr : ChunkHdr) (data : List Byte) : Chunk :=
  ⟨{ hdr with checksum := libs.checksum data }, data⟩

/-- The bytes `chunk_send` puts on the socket. -/
def chunkWire (stamp : Stamp) (chunk : Chunk) : List Byte :=
  msgWire stamp .sendChunk chunk.hdr.encode chunk.data

/-- The outcome of `chunk_recv`. `fault` is the copy from a payload that was never
allocated, or a checksum over more than can be read; either ends the process. -/
inductive ChunkRecv where
  | ok (nbytes : Nat) (chunk : Chunk) (sock : Sock)
  | fail (ret : Int) (sock : Sock)
  | fault
  | blocked

/-- The length in the chunk header leads beyond the bytes that can be read. -/
def Overruns (memory : Nat → Byte) (readable : Nat) : Prop :=
  readable < sizeofChunkHdr + (ChunkHdr.decode memory).length

instance (memory : Nat → Byte) (readable : Nat) : Decidable (Overruns memory readable) :=
  inferInstanceAs (Decidable (_ < _))

/-- The end of `chunk_recv`: the chunk is read from memory, of which `readable` bytes can
be read, and its checksum compared, for a message of the given length. -/
def chunkCheck (libs : Externals) (memory : Nat → Byte) (readable length : Nat) (sock : Sock) : ChunkRecv :=
  let hdr := ChunkHdr.decode memory
  let data := slice memory sizeofChunkHdr hdr.length
  if Overruns memory readable then .fault
  else if libs.checksum data = hdr.checksum then .ok (length - sizeofChunkHdr) ⟨hdr, data⟩ sock
  else .fail (-3) sock

/-- Mirrors `chunk_recv`; `junk` is what the block allocated for the payload
holds before it is received, and what lies beyond its end. -/
def chunkRecv (libs : Externals) (junk : Junk) (sock : Sock) : ChunkRecv :=
  match msgRecvHeader sock with
  | .blocked => .blocked
  | .fail ret sock => .fail ret sock
  | .ok hdr sock =>
      if hdr.length < sizeofChunkHdr then .fail (-4) sock
      else if hdr.length > sizeofChunkHdr + CHUNK_SIZE then .fault
      else
        match msgRecvPayload sock hdr.length (sizeofChunkHdr + CHUNK_SIZE) with
        | .blocked => .blocked
        | .ok got sock => chunkCheck libs (block got junk) (hdr.length + junk.behind) hdr.length sock
        | .fail _ got sock => chunkCheck libs (block got junk) (hdr.length + junk.behind) hdr.length sock

/-- A whole chunk message is received as the chunk it carries when the data have
the checksum of the header, and refused with `-3` when they do not. -/
theorem chunkRecv_chunkWire {libs : Externals} {junk : Junk} {sock : Sock} {stamp : Stamp}
    {chunk : Chunk} {rest : List Byte} (fits : chunk.hdr.Fits)
    (length : chunk.hdr.length = chunk.data.length) (small : chunk.data.length ≤ CHUNK_SIZE)
    (arrived : sock.rx = chunkWire stamp chunk ++ rest) :
    ∃ sched, chunkRecv libs junk sock =
      if libs.checksum chunk.data = chunk.hdr.checksum then
        .ok chunk.data.length chunk ⟨rest, sched, sock.fin⟩
      else .fail (-3) ⟨rest, sched, sock.fin⟩ := by
  simp only [CHUNK_SIZE] at small
  obtain ⟨hdr, sched, header, hlength, -⟩ := msgRecvHeader_msgWire
    (by rw [ChunkHdr.length_encode, sizeofChunkHdr]; omega) arrived
  have total : (chunk.hdr.encode ++ chunk.data).length = chunk.hdr.encode.length + chunk.data.length :=
    List.length_append
  have within : chunk.hdr.encode.length + chunk.data.length ≤ sizeofChunkHdr + CHUNK_SIZE := by
    rw [ChunkHdr.length_encode]
    simp only [CHUNK_SIZE]
    omega
  have inFlight : chunk.hdr.encode.length + chunk.data.length ≤
      (Sock.mk (chunk.hdr.encode ++ chunk.data ++ rest) sched sock.fin).rx.length := by simp
  obtain ⟨sched', payload⟩ := msgRecvPayload_of_le within inFlight
  rw [← total, List.take_left, List.drop_left, total] at payload
  refine ⟨sched', ?_⟩
  rw [chunkRecv, header]
  simp only [hlength]
  rw [if_neg (by rw [ChunkHdr.length_encode]; omega),
    if_neg (by rw [ChunkHdr.length_encode]; simp only [CHUNK_SIZE]; omega), payload]
  have inside : sizeofChunkHdr + chunk.data.length ≤ (chunk.hdr.encode ++ chunk.data).length := by
    rw [total, ChunkHdr.length_encode]
  have readable : ¬ Overruns (block (chunk.hdr.encode ++ chunk.data) junk)
      (chunk.hdr.encode.length + chunk.data.length + junk.behind) := by
    rw [Overruns, ChunkHdr.decode_block_encode fits, length, ChunkHdr.length_encode]
    omega
  dsimp only
  rw [chunkCheck, if_neg readable]
  simp only [ChunkHdr.decode_block_encode fits, length, slice_block inside, ChunkHdr.length_encode,
    Nat.add_sub_cancel_left]
  rw [← chunk.hdr.length_encode, List.drop_left, List.take_length]

/-- A message too short for a chunk header is refused with its payload unread. -/
theorem chunkRecv_of_short {libs : Externals} {junk : Junk} {sock : Sock} {stamp : Stamp}
    {type : MessageType} {payload : List Byte} (short : payload.length < sizeofChunkHdr)
    (arrived : sock.rx = msgWire stamp type [] payload) :
    ∃ sched, chunkRecv libs junk sock = .fail (-4) ⟨payload, sched, sock.fin⟩ := by
  have small : payload.length < 64 := short
  have fits : ([] : List Byte).length + payload.length < 2 ^ 64 := by rw [List.length_nil]; omega
  have whole : sock.rx = msgWire stamp type [] payload ++ [] := by rw [arrived, List.append_nil]
  obtain ⟨hdr, sched, header, hlength, -⟩ := msgRecvHeader_msgWire fits whole
  refine ⟨sched, ?_⟩
  rw [chunkRecv, header]
  simp [hlength, short]

/-- At the end of a closed stream `chunk_recv` reports the disconnection. -/
theorem chunkRecv_of_closed {libs : Externals} {junk : Junk} {sock : Sock}
    (drained : sock.rx = []) (closed : sock.fin = .closed) :
    ∃ sched, chunkRecv libs junk sock = .fail (-2) ⟨[], sched, .closed⟩ := by
  have short : sock.rx.length < sizeofMessageHdr := by rw [drained]; decide
  obtain ⟨sched, header⟩ := msgRecvHeader_of_lt short
  refine ⟨sched, ?_⟩
  rw [chunkRecv, header, closed]

/-- On an open connection with nothing in flight `chunk_recv` waits. -/
theorem chunkRecv_of_opened {libs : Externals} {junk : Junk} {sock : Sock}
    (drained : sock.rx = []) (opened : sock.fin = .opened) :
    chunkRecv libs junk sock = .blocked := by
  have short : sock.rx.length < sizeofMessageHdr := by rw [drained]; decide
  obtain ⟨sched, header⟩ := msgRecvHeader_of_lt short
  rw [chunkRecv, header, opened]

end MiniDropbox
