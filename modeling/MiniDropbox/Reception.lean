/-
What `chunk_recv` accepts.

The result of receiving the payload is not looked at, and the length in the chunk header is
not compared with that of the message. So a chunk is accepted whenever the block that was
allocated for it passes the checksum test, and the test itself can run out of what can be
read. `received_iff` says on which streams all goes well.
-/

import MiniDropbox.Server

namespace MiniDropbox

/-! ### Whole chunks -/

section Chunks

variable {libs : Externals} {junk : Junk} {sock : Sock}

/-- The header at the beginning of received bytes is written as they are. -/
theorem ChunkHdr.encode_decode {got : List Byte} (enough : sizeofChunkHdr ≤ got.length) (junk : Junk) :
    (ChunkHdr.decode (block got junk)).encode = got.take sizeofChunkHdr := by
  have field : ∀ off len, off + len ≤ 64 → slice (block got junk) off len = (got.drop off).take len :=
    fun off len within => slice_block (Nat.le_trans within enough)
  have number : ∀ off, off + 8 ≤ 64 →
      LittleEndian.encode 8 (LittleEndian.decode (slice (block got junk) off 8)) = (got.drop off).take 8 := by
    intro off within
    have length : (slice (block got junk) off 8).length = 8 := length_slice _ _ _
    rw [← field off 8 within]
    conv_rhs => rw [← LittleEndian.encode_decode (slice (block got junk) off 8), length]
  rw [ChunkHdr.encode, ChunkHdr.decode]
  dsimp only
  rw [number 0 (by decide), number 8 (by decide), number 16 (by decide), number 24 (by decide), field 32 32 (by decide)]
  have cut : sizeofChunkHdr = 8 + (8 + (8 + (8 + 32))) := rfl
  simp only [cut, List.take_add, List.drop_drop, List.drop_zero]

/-- The stream begins with a message that carries the chunk: its header, as many bytes as the
message header says, no more than a chunk may have, and the data have the checksum of the
chunk header. -/
def Carries (libs : Externals) (rx : List Byte) (chunk : Chunk) : Prop :=
  ∃ header rest, header.length = sizeofMessageHdr ∧ rx = header ++ (chunk.hdr.encode ++ chunk.data) ++ rest ∧
    (MessageHdr.decode header).length = sizeofChunkHdr + chunk.data.length ∧
    chunk.data.length ≤ CHUNK_SIZE ∧ chunk.hdr.length = chunk.data.length ∧
    libs.checksum chunk.data = chunk.hdr.checksum

/-- A chunk is accepted only if the stream carries it, and what is not accepted has a
negative result. Only a connection that is still open is waited for. -/
def SoundlyReceived (libs : Externals) (sock : Sock) : ChunkRecv → Prop
  | .ok nbytes chunk _ => Carries libs sock.rx chunk ∧ nbytes = chunk.data.length
  | .fail ret _ => ret < 0
  | .fault => False
  | .blocked => sock.fin = .opened

/-- What an allocated block holds passes the test of `chunk_recv`. -/
def ChecksOut (libs : Externals) (memory : Nat → Byte) : Prop :=
  libs.checksum (slice memory sizeofChunkHdr (ChunkHdr.decode memory).length) = (ChunkHdr.decode memory).checksum

/-- The message is a chunk in size. And either all of it arrives and the two headers agree on
the length, or what the block holds, the bytes that arrive and behind them what was there
before, announces no more than can be read and does not pass the test, or the rest is waited
for. -/
def ReceptionCondition (libs : Externals) (junk : Junk) (sock : Sock) : Prop :=
  sizeofMessageHdr ≤ sock.rx.length →
    let length := (MessageHdr.decode (sock.rx.take sizeofMessageHdr)).length
    let payload := (sock.rx.drop sizeofMessageHdr).take length
    sizeofChunkHdr ≤ length → length ≤ sizeofChunkHdr + CHUNK_SIZE ∧
      (payload.length = length ∧ (ChunkHdr.decode (block payload junk)).length = length - sizeofChunkHdr ∨
        ¬ Overruns (block payload junk) (length + junk.behind) ∧ ¬ ChecksOut libs (block payload junk) ∨
        payload.length < length ∧ sock.fin = .opened)

instance (memory : Nat → Byte) : Decidable (ChecksOut libs memory) := inferInstanceAs (Decidable (_ = _))

theorem chunkCheck_eq {memory : Nat → Byte} {readable length : Nat} : chunkCheck libs memory readable length sock =
    if Overruns memory readable then .fault
    else if ChecksOut libs memory then
      .ok (length - sizeofChunkHdr) ⟨ChunkHdr.decode memory, slice memory sizeofChunkHdr (ChunkHdr.decode memory).length⟩
        sock
    else .fail (-3) sock := rfl

/-- What `chunk_recv` makes of a message whose header has arrived. -/
theorem chunkRecv_of_header {length : Nat} {payload : List Byte} (enough : sizeofMessageHdr ≤ sock.rx.length)
    (said : (MessageHdr.decode (sock.rx.take sizeofMessageHdr)).length = length)
    (given : (sock.rx.drop sizeofMessageHdr).take length = payload) :
    ∃ next, chunkRecv libs junk sock =
      if length < sizeofChunkHdr then .fail (-4) next
      else if length > sizeofChunkHdr + CHUNK_SIZE then .fault
      else if payload.length < length ∧ sock.fin = .opened then .blocked
      else chunkCheck libs (block payload junk) (length + junk.behind) length next := by
  obtain ⟨sched, received⟩ := recvAll_of_le enough
  have header : msgRecvHeader sock = .ok (MessageHdr.decode (sock.rx.take sizeofMessageHdr))
      ⟨sock.rx.drop sizeofMessageHdr, sched, sock.fin⟩ := by
    rw [msgRecvHeader, received]
  rw [chunkRecv, header]
  dsimp only
  rw [said]
  by_cases small : length < sizeofChunkHdr
  · exact ⟨_, by rw [if_pos small, if_pos small]⟩
  by_cases large : length > sizeofChunkHdr + CHUNK_SIZE
  · exact ⟨sock, by rw [if_neg small, if_neg small, if_pos large, if_pos large]⟩
  simp only [if_neg small, if_neg large]
  by_cases whole : length ≤ (sock.rx.drop sizeofMessageHdr).length
  · obtain ⟨sched', arrived⟩ := @msgRecvPayload_of_le ⟨sock.rx.drop sizeofMessageHdr, sched, sock.fin⟩ length
      (sizeofChunkHdr + CHUNK_SIZE) (Nat.le_of_not_lt large) whole
    have all : ¬ (payload.length < length ∧ sock.fin = .opened) := by
      rw [← given, List.length_take_of_le whole]
      exact fun both => Nat.lt_irrefl _ both.1
    refine ⟨⟨(sock.rx.drop sizeofMessageHdr).drop length, sched', sock.fin⟩, ?_⟩
    rw [arrived, if_neg all]
    simp only [given]
  · have short : (sock.rx.drop sizeofMessageHdr).length < length := Nat.lt_of_not_le whole
    have positive : length > 0 := Nat.zero_lt_of_lt short
    have same : payload = sock.rx.drop sizeofMessageHdr := by
      rw [← given, List.take_of_length_le (Nat.le_of_lt short)]
    obtain ⟨sched', dry⟩ := @recvAll_of_lt ⟨sock.rx.drop sizeofMessageHdr, sched, sock.fin⟩ length short
    rw [msgRecvPayload, if_neg large, if_pos positive, dry, RecvAll.dry, same]
    cases fin : sock.fin with
    | opened => exact ⟨sock, by rw [if_pos ⟨short, rfl⟩]⟩
    | closed => exact ⟨_, by rw [if_neg (by simp)]⟩
    | failed => exact ⟨_, by rw [if_neg (by simp)]⟩

/-- A stream that carries a chunk has a whole message, of which the chunk is the payload. -/
theorem Carries.whole {rx : List Byte} {chunk : Chunk} (carries : Carries libs rx chunk) :
    (MessageHdr.decode (rx.take sizeofMessageHdr)).length = sizeofChunkHdr + chunk.data.length ∧
      sizeofChunkHdr + chunk.data.length ≤ (rx.drop sizeofMessageHdr).length := by
  obtain ⟨header, rest, length, rfl, said, -⟩ := carries
  rw [List.append_assoc, List.take_left' length, List.drop_left' length]
  refine ⟨said, ?_⟩
  simp only [List.length_append, ChunkHdr.length_encode]
  exact Nat.le_add_right _ _

/-- A block that has arrived whole and passes the test is a chunk that the stream carries. -/
theorem carries_of_checksOut {length : Nat} {rx payload : List Byte} (enough : sizeofMessageHdr ≤ rx.length)
    (said : (MessageHdr.decode (rx.take sizeofMessageHdr)).length = length)
    (given : (rx.drop sizeofMessageHdr).take length = payload) (whole : payload.length = length)
    (large : sizeofChunkHdr ≤ length) (small : length ≤ sizeofChunkHdr + CHUNK_SIZE)
    (passes : ChecksOut libs (block payload junk))
    (agree : (ChunkHdr.decode (block payload junk)).length = length - sizeofChunkHdr) :
    Carries libs rx ⟨ChunkHdr.decode (block payload junk),
      slice (block payload junk) sizeofChunkHdr (ChunkHdr.decode (block payload junk)).length⟩ := by
  have inside : sizeofChunkHdr + (ChunkHdr.decode (block payload junk)).length ≤ payload.length := by
    rw [agree, whole, Nat.add_sub_cancel' large]
  have data : slice (block payload junk) sizeofChunkHdr (ChunkHdr.decode (block payload junk)).length =
      payload.drop sizeofChunkHdr := by
    rw [slice_block inside, List.take_of_length_le]
    rw [List.length_drop, agree, whole]
  have length_data : (payload.drop sizeofChunkHdr).length = length - sizeofChunkHdr := by
    rw [List.length_drop, whole]
  refine ⟨rx.take sizeofMessageHdr, (rx.drop sizeofMessageHdr).drop length, List.length_take_of_le enough, ?_, ?_, ?_, ?_, ?_⟩
  · rw [data, ChunkHdr.encode_decode (whole ▸ large) junk, List.take_append_drop, ← given, List.append_assoc,
      List.take_append_drop, List.take_append_drop]
  · rw [said, data, length_data, Nat.add_sub_cancel' large]
  · rw [data, length_data]
    exact Nat.sub_le_iff_le_add'.mpr small
  · rw [data, length_data, agree]
  · dsimp only
    rw [ChecksOut] at passes
    exact passes

/-- When `chunk_recv` accepts only what it should: exactly under the condition. -/
theorem received_iff (libs : Externals) (junk : Junk) (sock : Sock) :
    SoundlyReceived libs sock (chunkRecv libs junk sock) ↔ ReceptionCondition libs junk sock := by
  unfold ReceptionCondition
  by_cases enough : sizeofMessageHdr ≤ sock.rx.length
  · obtain ⟨length, said⟩ : ∃ length, (MessageHdr.decode (sock.rx.take sizeofMessageHdr)).length = length := ⟨_, rfl⟩
    obtain ⟨payload, given⟩ : ∃ payload, (sock.rx.drop sizeofMessageHdr).take length = payload := ⟨_, rfl⟩
    obtain ⟨next, received⟩ := @chunkRecv_of_header libs junk sock length payload enough said given
    simp only [enough, said, given, true_implies]
    rw [received]
    by_cases small : length < sizeofChunkHdr
    · rw [if_pos small]
      exact ⟨fun _ large => absurd small (Nat.not_lt_of_le large), fun _ => (by decide : (-4 : Int) < 0)⟩
    have large : sizeofChunkHdr ≤ length := Nat.le_of_not_lt small
    rw [if_neg small]
    by_cases exceeds : length > sizeofChunkHdr + CHUNK_SIZE
    · rw [if_pos exceeds]
      exact ⟨False.elim, fun condition => absurd exceeds (Nat.not_lt_of_le (condition large).1)⟩
    have within : length ≤ sizeofChunkHdr + CHUNK_SIZE := Nat.le_of_not_lt exceeds
    rw [if_neg exceeds]
    by_cases waits : payload.length < length ∧ sock.fin = .opened
    · rw [if_pos waits]
      exact ⟨fun _ _ => ⟨within, .inr (.inr waits)⟩, fun _ => waits.2⟩
    rw [if_neg waits, chunkCheck_eq]
    by_cases overruns : Overruns (block payload junk) (length + junk.behind)
    · rw [if_pos overruns]
      refine ⟨False.elim, fun condition => ?_⟩
      rcases (condition large).2 with ⟨-, agree⟩ | ⟨readable, -⟩ | waits'
      · rw [Overruns, agree] at overruns
        omega
      · exact readable overruns
      · exact waits waits'
    rw [if_neg overruns]
    by_cases passes : ChecksOut libs (block payload junk)
    · rw [if_pos passes]
      constructor
      · rintro ⟨carries, -⟩ _
        obtain ⟨whole, arrived⟩ := carries.whole
        dsimp only at whole arrived
        rw [said, length_slice] at whole
        rw [length_slice, ← whole] at arrived
        refine ⟨within, .inl ⟨?_, ?_⟩⟩
        · rw [← given, List.length_take_of_le arrived]
        · rw [whole, Nat.add_sub_cancel_left]
      · intro condition
        rcases (condition large).2 with ⟨whole, agree⟩ | ⟨-, fails⟩ | waits'
        · refine ⟨carries_of_checksOut enough said given whole large within passes agree, ?_⟩
          rw [length_slice, agree]
        · exact absurd passes fails
        · exact absurd waits' waits
    · rw [if_neg passes]
      exact ⟨fun _ _ => ⟨within, .inr (.inl ⟨overruns, passes⟩)⟩, fun _ => (by decide : (-3 : Int) < 0)⟩
  · obtain ⟨sched, received⟩ := msgRecvHeader_of_lt (Nat.lt_of_not_le enough)
    refine ⟨fun _ there => absurd there enough, fun _ => ?_⟩
    rw [chunkRecv, received]
    cases fin : sock.fin with
    | opened => exact fin
    | closed => exact (by decide : (-2 : Int) < 0)
    | failed => exact (by decide : (-1 : Int) < 0)

/-- How many bytes of data are accepted. -/
def ChunkRecv.accepted : ChunkRecv → Nat
  | .ok _ chunk _ => chunk.data.length
  | _ => 0

/-- Fewer bytes than the message holds are not accepted soundly. -/
theorem not_soundlyReceived {result : ChunkRecv} (some : result.accepted ≠ 0)
    (fewer : (MessageHdr.decode (sock.rx.take sizeofMessageHdr)).length ≠ sizeofChunkHdr + result.accepted) :
    ¬ SoundlyReceived libs sock result := by
  intro sound
  cases result with
  | blocked => exact some rfl
  | fault => exact some rfl
  | fail ret rest => exact some rfl
  | ok nbytes chunk rest => exact fewer sound.1.whole.1

end Chunks

/-- A message whose payload is longer than its chunk header says. -/
def longMessage : Sock :=
  ⟨msgWire default .sendChunk (sendChunk libraries 0 0 (cstr "hello")).hdr.encode (cstr "helloworld"), [], .closed⟩

/-- The chunk is accepted with half of the data. -/
theorem received_half : ¬ SoundlyReceived libraries longMessage (chunkRecv libraries default longMessage) := by
  have half : (chunkRecv libraries default longMessage).accepted = 5 := by decide +kernel
  have said : (MessageHdr.decode (longMessage.rx.take sizeofMessageHdr)).length = 74 := by decide
  refine not_soundlyReceived ?_ ?_
  · rw [half]
    decide
  · rw [half, said]
    decide

end MiniDropbox
