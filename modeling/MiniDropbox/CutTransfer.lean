/-
What `file_recv` makes of a connection that breaks.

An honest client sends its chunks in order, each again until it has come intact, and what
arrives of them ends anywhere (`Inflow`). The receiver counts from 0 until the first chunk
tells it where it is, so what it returns is that count if no chunk has come, and otherwise
the number of the first one that is missing, and what it has stored goes on from what was
stored before (`progress_of_cut`).
-/

import MiniDropbox.Arrivals
import MiniDropbox.Reception
import MiniDropbox.Tiling
import MiniDropbox.Transfer

namespace MiniDropbox

/-! ### What arrives -/

/-- What arrives of the chunks that `file_send` sends from number `i` on: each comes
damaged, as often as may be, and is sent again, until it has come intact. -/
inductive Delivers (libs : Externals) (content : List Byte) (count : Nat) : Nat → List (Stamp × Chunk) → Prop where
  | stop {i : Nat} : Delivers libs content count i []
  | intact {i : Nat} {stamp : Stamp} {rest : List (Stamp × Chunk)} : i < count → i * CHUNK_SIZE < content.length →
      Delivers libs content count (i + 1) rest → Delivers libs content count i ((stamp, chunkAt libs content i) :: rest)
  | damaged {i : Nat} {stamp : Stamp} {d : Chunk} {rest : List (Stamp × Chunk)} : i < count →
      i * CHUNK_SIZE < content.length → Damaged libs (chunkAt libs content i) d →
      Delivers libs content count i rest → Delivers libs content count i ((stamp, d) :: rest)

/-- The chunk messages of a connection that breaks: those that come whole, and as many
bytes of the next one. -/
structure Inflow where
  whole : List (Stamp × Chunk)
  cut : Stamp × Chunk
  bytes : Nat

namespace Inflow

variable (inflow : Inflow)

def torn : List Byte := (chunkWire inflow.cut.1 inflow.cut.2).take inflow.bytes

def rx : List Byte := peerWire inflow.whole ++ inflow.torn

/-- An honest client's messages from number `i` on, the last of them cut off. -/
structure From (libs : Externals) (content : List Byte) (count i : Nat) : Prop where
  delivers : Delivers libs content count i (inflow.whole ++ if inflow.bytes = 0 then [] else [inflow.cut])
  short : inflow.bytes < (chunkWire inflow.cut.1 inflow.cut.2).length

/-- The block allocated for the message that is cut off, as `chunk_recv` reads it. -/
def memory (junk : Junk) : Nat → Byte := block (inflow.torn.drop sizeofMessageHdr) junk

/-- How much of that memory can be read. -/
def readable (junk : Junk) : Nat := sizeofChunkHdr + inflow.cut.2.data.length + junk.behind

/-- The message that is cut off passes for a whole one. -/
def Passes (libs : Externals) (junk : Junk) : Prop :=
  sizeofMessageHdr ≤ inflow.torn.length ∧ ¬ Overruns (inflow.memory junk) (inflow.readable junk) ∧
    ChecksOut libs (inflow.memory junk)

instance (libs : Externals) (junk : Junk) : Decidable (inflow.Passes libs junk) :=
  inferInstanceAs (Decidable (_ ∧ _))

/-- The chunk it passes for. -/
def passed (junk : Junk) : Chunk :=
  ⟨ChunkHdr.decode (inflow.memory junk),
    slice (inflow.memory junk) sizeofChunkHdr (ChunkHdr.decode (inflow.memory junk)).length⟩

/-- If it passes, then for the one that was sent. -/
def Sound (libs : Externals) (content : List Byte) (sys : Nat → RecvSys) : Prop :=
  ∀ k, inflow.Passes libs (sys k).junk → (inflow.passed (sys k).junk).hdr.seq = inflow.cut.2.hdr.seq ∧
    (inflow.passed (sys k).junk).data = segmentAt content inflow.cut.2.hdr.seq

/-- The length that its header announces, or what lies in memory in its place, can be read. -/
def Legible (sys : Nat → RecvSys) : Prop :=
  ∀ k, sizeofMessageHdr ≤ inflow.torn.length → ¬ Overruns (inflow.memory (sys k).junk) (inflow.readable (sys k).junk)

/-- How many chunks are acknowledged before a reply fails, and `none` if the receiver does
not come to a chunk at all. A chunk takes three steps, a damaged one two. -/
def taken (libs : Externals) (sys : Nat → RecvSys) : List (Stamp × Chunk) → Nat → Option Nat
  | [], fuel =>
      if inflow.Passes libs (sys (fuel - 1)).junk then some (if (sys (fuel - 2)).sent = .ok then 1 else 0) else none
  | x :: rest, fuel =>
      if libs.checksum x.2.data = x.2.hdr.checksum then
        some (if (sys (fuel - 2)).sent = .ok then 1 + (taken libs sys rest (fuel - 3)).getD 0 else 0)
      else if (sys (fuel - 2)).sent = .ok then taken libs sys rest (fuel - 2)
      else none

end Inflow

/-- The system calls on the file work. -/
structure FileWorks (sys : Nat → RecvSys) : Prop where
  seeks : ∀ k, (sys k).lseekFails = false
  writes : ∀ k, (sys k).lost = 0

/-! ### Messages -/

section Messages

variable {libs : Externals} {content : List Byte} {count i : Nat} {x : Stamp × Chunk} {rest : List (Stamp × Chunk)}

/-- What comes first, and what comes after it. -/
theorem Delivers.first (delivers : Delivers libs content count i (x :: rest)) :
    i < count ∧ i * CHUNK_SIZE < content.length ∧ ((x.2 = chunkAt libs content i ∧ Delivers libs content count (i + 1) rest) ∨
      (Damaged libs (chunkAt libs content i) x.2 ∧ Delivers libs content count i rest)) := by
  cases delivers with
  | intact below inside later => exact ⟨below, inside, .inl ⟨rfl, later⟩⟩
  | damaged below inside other later => exact ⟨below, inside, .inr ⟨other, later⟩⟩

theorem chunkAt_checksum : libs.checksum (chunkAt libs content i).data = (chunkAt libs content i).hdr.checksum := rfl

theorem chunkAt_seq : (chunkAt libs content i).hdr.seq = i := rfl

/-- Damaged or not, the header is that of the chunk. -/
theorem Delivers.header (delivers : Delivers libs content count i (x :: rest)) :
    x.2.hdr = (chunkAt libs content i).hdr ∧ x.2.data.length = (chunkAt libs content i).data.length := by
  obtain ⟨-, -, ⟨same, -⟩ | ⟨other, -⟩⟩ := delivers.first
  · rw [same]
    exact ⟨rfl, rfl⟩
  · exact ⟨other.hdr, other.length⟩

/-- A message is the chunk that is due, or does not check out and the chunk stays due. -/
theorem Delivers.turn (delivers : Delivers libs content count i (x :: rest)) :
    (libs.checksum x.2.data = x.2.hdr.checksum ∧ x.2.hdr.seq = i ∧ x.2.data = segmentAt content i ∧
      Delivers libs content count (i + 1) rest) ∨
    (¬ libs.checksum x.2.data = x.2.hdr.checksum ∧ Delivers libs content count i rest) := by
  obtain ⟨-, -, ⟨intact, later⟩ | ⟨damaged, later⟩⟩ := delivers.first
  · rw [intact]
    exact .inl ⟨chunkAt_checksum, chunkAt_seq, rfl, later⟩
  · rw [damaged.hdr]
    exact .inr ⟨damaged.detected, later⟩

theorem chunkAt_fits (small : content.length < 2 ^ 63) (inside : i * CHUNK_SIZE < content.length) :
    (chunkAt libs content i).hdr.Fits := by
  have length := length_segmentAt content i
  simp only [CHUNK_SIZE] at inside length
  refine ⟨?_, ?_, Nat.mod_lt _ (Nat.two_pow_pos 64), ?_⟩
  · rw [chunkAt_seq]
    omega
  · rw [chunkAt_startByte, CHUNK_SIZE]
    omega
  · rw [chunkAt_length]
    omega

theorem Delivers.shape (delivers : Delivers libs content count i (x :: rest)) (small : content.length < 2 ^ 63) :
    x.2.hdr.Fits ∧ x.2.hdr.length = x.2.data.length ∧ x.2.data.length ≤ CHUNK_SIZE := by
  obtain ⟨hdr, length⟩ := delivers.header
  obtain ⟨-, inside, -⟩ := delivers.first
  refine ⟨?_, ?_, ?_⟩
  · rw [hdr]
    exact chunkAt_fits small inside
  · rw [hdr, length]
    rfl
  · have width := length_segmentAt content i
    rw [length, show (chunkAt libs content i).data = segmentAt content i from rfl, width]
    exact Nat.min_le_left _ _

end Messages

/-- A chunk that is cut off behind its message header is read from its block as it is, unless
the connection is open and the rest of it is waited for. -/
theorem chunkRecv_torn {libs : Externals} {inflow : Inflow} {junk : Junk} {sock : Sock}
    (width : inflow.cut.2.data.length ≤ CHUNK_SIZE) (short : inflow.bytes < (chunkWire inflow.cut.1 inflow.cut.2).length)
    (enough : sizeofMessageHdr ≤ inflow.torn.length) (arrived : sock.rx = inflow.torn) :
    ∃ rest : Sock, rest.rx = [] ∧ rest.fin = sock.fin ∧ chunkRecv libs junk sock = if sock.fin = .opened then .blocked
      else chunkCheck libs (inflow.memory junk) (inflow.readable junk) (sizeofChunkHdr + inflow.cut.2.data.length) rest := by
  have payload := inflow.cut.2.hdr.length_encode
  have total : (inflow.cut.2.hdr.encode ++ inflow.cut.2.data).length = sizeofChunkHdr + inflow.cut.2.data.length := by
    rw [List.length_append, payload]
  obtain ⟨header, length, split⟩ : ∃ header : MessageHdr, header.length = sizeofChunkHdr + inflow.cut.2.data.length ∧
      chunkWire inflow.cut.1 inflow.cut.2 = header.encode ++ (inflow.cut.2.hdr.encode ++ inflow.cut.2.data) :=
    ⟨⟨_, _, inflow.cut.1.token, inflow.cut.1.sentAt⟩, by rw [payload], rfl⟩
  have cut : inflow.bytes - sizeofMessageHdr < sizeofChunkHdr + inflow.cut.2.data.length := by
    rw [split, List.length_append, MessageHdr.length_encode, total] at short
    simp only [sizeofChunkHdr] at short ⊢
    omega
  have front : inflow.torn = header.encode ++
      (inflow.cut.2.hdr.encode ++ inflow.cut.2.data).take (inflow.bytes - sizeofMessageHdr) := by
    rw [Inflow.torn, List.length_take] at enough
    rw [Inflow.torn, split, List.take_append, header.length_encode, List.take_of_length_le]
    rw [header.length_encode]
    omega
  have rest : inflow.torn.drop sizeofMessageHdr =
      (inflow.cut.2.hdr.encode ++ inflow.cut.2.data).take (inflow.bytes - sizeofMessageHdr) := by
    rw [front, List.drop_left' header.length_encode]
  have missing : (inflow.torn.drop sizeofMessageHdr).length < sizeofChunkHdr + inflow.cut.2.data.length := by
    rw [rest, List.length_take]
    omega
  obtain ⟨sched, received⟩ := @msgRecvHeader_encode sock header (inflow.torn.drop sizeofMessageHdr)
    (by rw [arrived, rest, ← front])
  have said : (MessageHdr.decode header.encode).length = sizeofChunkHdr + inflow.cut.2.data.length := by
    rw [← length]
    refine MessageHdr.decode_encode_length ?_
    rw [length]
    simp only [sizeofChunkHdr, CHUNK_SIZE] at width ⊢
    omega
  obtain ⟨sched', dry⟩ := @recvAll_of_lt ⟨inflow.torn.drop sizeofMessageHdr, sched, sock.fin⟩ _ missing
  have within : ¬ sizeofChunkHdr + inflow.cut.2.data.length > sizeofChunkHdr + CHUNK_SIZE :=
    Nat.not_lt.mpr (Nat.add_le_add_left width _)
  have large : ¬ sizeofChunkHdr + inflow.cut.2.data.length < sizeofChunkHdr := Nat.not_lt.mpr (Nat.le_add_right _ _)
  have positive : sizeofChunkHdr + inflow.cut.2.data.length > 0 := Nat.zero_lt_of_lt missing
  refine ⟨⟨[], sched', sock.fin⟩, rfl, rfl, ?_⟩
  rw [chunkRecv, received, Inflow.readable]
  dsimp only
  rw [said, if_neg large, if_neg within, msgRecvPayload, if_neg within, if_pos positive, dry, RecvAll.dry]
  cases sock.fin with
  | opened => rfl
  | closed => rw [if_neg (show ¬ SockEnd.closed = .opened by decide), Inflow.memory]
  | failed => rw [if_neg (show ¬ SockEnd.failed = .opened by decide), Inflow.memory]

/-! ### The loop -/

section Receiving

variable {libs : Externals} {content : List Byte} {count : Nat} {sys : Nat → RecvSys} {fuel seq pos i : Nat}
  {file : List Byte} {writes : List (Nat × List Byte)} {sock rest : Sock} {stats : FileRecvStats} {chunk : Chunk}

theorem final_step {s next : RecvState} {out : List Byte} (step : recvStep libs count (sys fuel) s = some (next, out)) :
    Counted.final (recvStep libs count) sys (fuel + 1) s = Counted.final (recvStep libs count) sys fuel next := by
  rw [Counted.final, step]

theorem final_ret : Counted.final (recvStep libs count) sys fuel ⟨.ret stats, pos, file, writes, sock⟩ =
    ⟨.ret stats, pos, file, writes, sock⟩ :=
  Counted.final_of_stuck (fun _ => rfl) fuel

/-- A receiver that cannot read another message header waits or gives up. -/
theorem chunkRecv_dry {junk : Junk} (short : sock.rx.length < sizeofMessageHdr) :
    sock.fin = .opened ∧ chunkRecv libs junk sock = .blocked ∨
      sock.fin ≠ .opened ∧ ∃ ret rest, chunkRecv libs junk sock = .fail ret rest ∧ (ret = -1 ∨ ret = -2) := by
  obtain ⟨sched, header⟩ := msgRecvHeader_of_lt short
  rw [chunkRecv, header]
  cases sock.fin with
  | opened => exact .inl ⟨rfl, rfl⟩
  | closed => exact .inr ⟨by decide, -2, _, rfl, .inr rfl⟩
  | failed => exact .inr ⟨by decide, -1, _, rfl, .inl rfl⟩

theorem final_fails {ret : Int} (more : seq < count) (broken : chunkRecv libs (sys fuel).junk sock = .fail ret rest)
    (code : ret = -1 ∨ ret = -2) : Counted.final (recvStep libs count) sys (fuel + 1) ⟨.top seq, pos, file, writes, sock⟩ =
      ⟨.ret ⟨seq, ret⟩, pos, file, writes, rest⟩ := by
  have other : ret ≠ -3 := by omega
  have step : recvStep libs count (sys fuel) ⟨.top seq, pos, file, writes, sock⟩ =
      some (⟨.ret ⟨seq, ret⟩, pos, file, writes, rest⟩, []) := by
    simp only [recvStep, if_pos more, broken, if_neg other]
  rw [final_step step, final_ret]

/-- A read beyond the memory there is ends the process. -/
theorem final_faults (more : seq < count) (faults : chunkRecv libs (sys fuel).junk sock = .fault) :
    Counted.final (recvStep libs count) sys (fuel + 1) ⟨.top seq, pos, file, writes, sock⟩ =
      ⟨.fault, pos, file, writes, sock⟩ := by
  have step : recvStep libs count (sys fuel) ⟨.top seq, pos, file, writes, sock⟩ =
      some (⟨.fault, pos, file, writes, sock⟩, []) := by
    simp only [recvStep, if_pos more, faults]
  rw [final_step step]
  exact Counted.final_of_stuck (fun _ => rfl) fuel

/-- If it gives up, it returns the number it has come to. -/
theorem final_short (short : sock.rx.length < sizeofMessageHdr)
    (returned : (Counted.final (recvStep libs count) sys fuel ⟨.top seq, pos, file, writes, sock⟩).pc = .ret stats)
    (failed : stats.errorCode ≠ 0) :
    (stats.lastChunkRecvd = seq ∧ (stats.errorCode = -1 ∨ stats.errorCode = -2)) ∧
      (Counted.final (recvStep libs count) sys fuel ⟨.top seq, pos, file, writes, sock⟩).file = file := by
  cases fuel with
  | zero => cases returned
  | succ fuel =>
      by_cases more : seq < count
      · rcases @chunkRecv_dry libs sock (sys fuel).junk short with ⟨-, blocked⟩ | ⟨-, ret, rest, broken, code⟩
        · have step : recvStep libs count (sys fuel) ⟨.top seq, pos, file, writes, sock⟩ = none := by
            simp only [recvStep, if_pos more, blocked]
          rw [Counted.final, step] at returned
          cases returned
        · rw [final_fails more broken code] at returned ⊢
          cases returned
          exact ⟨⟨rfl, code⟩, rfl⟩
      · have step : recvStep libs count (sys fuel) ⟨.top seq, pos, file, writes, sock⟩ =
            some (⟨.ret ⟨seq, 0⟩, pos, file, writes, sock⟩, []) := by
          simp only [recvStep, if_neg more]
        rw [final_step step, final_ret] at returned
        cases returned
        exact absurd rfl failed

theorem code_of_unsent {sent : SendRet} (fails : ¬ sent = .ok) : sent.code = -1 ∨ sent.code = -2 := by
  cases sent with
  | ok => exact absurd rfl fails
  | error => exact .inl rfl
  | disconnected => exact .inr rfl

/-- A chunk that is refused is asked for again. -/
theorem final_again (more : seq < count) (refused : chunkRecv libs (sys (fuel + 1)).junk sock = .fail (-3) rest) :
    Counted.final (recvStep libs count) sys (fuel + 2) ⟨.top seq, pos, file, writes, sock⟩ =
      if (sys fuel).sent = .ok then Counted.final (recvStep libs count) sys fuel ⟨.top seq, pos, file, writes, rest⟩
      else ⟨.ret ⟨seq, (sys fuel).sent.code⟩, pos, file, writes, rest⟩ := by
  have step : recvStep libs count (sys (fuel + 1)) ⟨.top seq, pos, file, writes, sock⟩ =
      some (⟨.again seq, pos, file, writes, rest⟩, []) := by
    simp only [recvStep, if_pos more, refused, if_true]
  rw [final_step step]
  cases sent : (sys fuel).sent with
  | ok =>
      have asks : recvStep libs count (sys fuel) ⟨.again seq, pos, file, writes, rest⟩ =
          some (⟨.top seq, pos, file, writes, rest⟩, msgWire (sys fuel).stamp .chunkAgain [] []) := by
        simp [recvStep, sent, SendRet.code]
      rw [final_step asks, if_pos rfl]
  | error =>
      have fails : recvStep libs count (sys fuel) ⟨.again seq, pos, file, writes, rest⟩ =
          some (⟨.ret ⟨seq, -1⟩, pos, file, writes, rest⟩, []) := by
        simp [recvStep, sent, SendRet.code]
      rw [final_step fails, final_ret, if_neg (by decide)]
      rfl
  | disconnected =>
      have fails : recvStep libs count (sys fuel) ⟨.again seq, pos, file, writes, rest⟩ =
          some (⟨.ret ⟨seq, -2⟩, pos, file, writes, rest⟩, []) := by
        simp [recvStep, sent, SendRet.code]
      rw [final_step fails, final_ret, if_neg (by decide)]
      rfl

/-- The receiver at the loop test when chunk `i` is due: it is there, or it has had none yet. -/
def Due (content : List Byte) (i seq pos : Nat) : Prop :=
  seq = i ∧ pos = min (i * CHUNK_SIZE) content.length ∨ seq = 0 ∧ 0 < i

/-- The chunk that is due is accepted, at its place. -/
theorem final_accept (works : FileWorks sys) (small : content.length < 2 ^ 63) (inside : i * CHUNK_SIZE < content.length)
    (due : Due content i seq pos) (more : seq < count)
    {nbytes : Nat} (received : chunkRecv libs (sys fuel).junk sock = .ok nbytes chunk rest) (numbered : chunk.hdr.seq = i) :
    Counted.final (recvStep libs count) sys (fuel + 1) ⟨.top seq, pos, file, writes, sock⟩ =
      Counted.final (recvStep libs count) sys fuel ⟨.ok i chunk, i * CHUNK_SIZE, file, writes, rest⟩ := by
  have accepts : recvAccept (sys fuel) ⟨.top seq, pos, file, writes, sock⟩ seq chunk rest =
      ⟨.ok i chunk, i * CHUNK_SIZE, file, writes, rest⟩ := by
    have place : offT (i * CHUNK_SIZE) = some (i * CHUNK_SIZE) := offT_of_lt (Nat.lt_trans inside small)
    rcases due with ⟨rfl, rfl⟩ | ⟨rfl, later⟩
    · have stays : ¬ (seq = 0 ∧ seq > 0) := fun both => Nat.lt_irrefl 0 (both.1 ▸ both.2)
      rw [recvAccept, numbered, if_neg stays, if_neg (fun other => other rfl), Nat.min_eq_left (Nat.le_of_lt inside)]
    · simp only [recvAccept, numbered, true_and, if_pos later, works.seeks, Bool.false_eq_true, if_false, place]
  have step : recvStep libs count (sys fuel) ⟨.top seq, pos, file, writes, sock⟩ =
      some (⟨.ok i chunk, i * CHUNK_SIZE, file, writes, rest⟩, []) := by
    simp only [recvStep, if_pos more, received, accepts]
  exact final_step step

/-- A chunk of the file that has been accepted is acknowledged and written behind what is
there of the file, or the reply fails. -/
theorem final_acknowledge (works : FileWorks sys) (small : content.length < 2 ^ 63) (inside : i * CHUNK_SIZE < content.length)
    {a : Nat} (reached : i ≤ a) (data : chunk.data = segmentAt content i) :
    Counted.final (recvStep libs count) sys (fuel + 2)
        ⟨.ok i chunk, i * CHUNK_SIZE, content.take (a * CHUNK_SIZE), writes, rest⟩ =
      if (sys (fuel + 1)).sent = .ok then
        Counted.final (recvStep libs count) sys fuel ⟨.top (i + 1), min ((i + 1) * CHUNK_SIZE) content.length,
          content.take (max a (i + 1) * CHUNK_SIZE), writes ++ [(i * CHUNK_SIZE, chunk.data)], rest⟩
      else ⟨.ret ⟨i, (sys (fuel + 1)).sent.code⟩, i * CHUNK_SIZE, content.take (a * CHUNK_SIZE), writes, rest⟩ := by
  cases sent : (sys (fuel + 1)).sent with
  | ok =>
      have acks : recvStep libs count (sys (fuel + 1))
          ⟨.ok i chunk, i * CHUNK_SIZE, content.take (a * CHUNK_SIZE), writes, rest⟩ =
            some (⟨.write i chunk, i * CHUNK_SIZE, content.take (a * CHUNK_SIZE), writes, rest⟩,
              msgWire (sys (fuel + 1)).stamp .chunkOk [] []) := by
        simp [recvStep, sent, SendRet.code]
      have index := sizeT_next small inside
      have next := offset_next inside
      have longer : Splice.splice 0 (content.take (a * CHUNK_SIZE)) (i * CHUNK_SIZE) (segmentAt content i) =
          content.take (max a (i + 1) * CHUNK_SIZE) := by
        have own : segmentAt content i <+: content.drop (i * CHUNK_SIZE) := List.take_prefix _ _
        rw [Splice.splice_take (Nat.mul_le_mul_right _ reached) own, next, List.take_eq_take_iff, ← Nat.mul_max_mul_right]
        omega
      have stores : recvStep libs count (sys fuel)
          ⟨.write i chunk, i * CHUNK_SIZE, content.take (a * CHUNK_SIZE), writes, rest⟩ =
            some (⟨.top (i + 1), min ((i + 1) * CHUNK_SIZE) content.length, content.take (max a (i + 1) * CHUNK_SIZE),
              writes ++ [(i * CHUNK_SIZE, chunk.data)], rest⟩, []) := by
        simp only [recvStep, works.writes, Nat.sub_zero, List.take_length, data, index, next, longer]
      rw [final_step acks, final_step stores, if_pos rfl]
  | error =>
      have fails : recvStep libs count (sys (fuel + 1))
          ⟨.ok i chunk, i * CHUNK_SIZE, content.take (a * CHUNK_SIZE), writes, rest⟩ =
            some (⟨.ret ⟨i, -1⟩, i * CHUNK_SIZE, content.take (a * CHUNK_SIZE), writes, rest⟩, []) := by
        simp [recvStep, sent, SendRet.code]
      rw [final_step fails, final_ret, if_neg (by decide)]
      rfl
  | disconnected =>
      have fails : recvStep libs count (sys (fuel + 1))
          ⟨.ok i chunk, i * CHUNK_SIZE, content.take (a * CHUNK_SIZE), writes, rest⟩ =
            some (⟨.ret ⟨i, -2⟩, i * CHUNK_SIZE, content.take (a * CHUNK_SIZE), writes, rest⟩, []) := by
        simp [recvStep, sent, SendRet.code]
      rw [final_step fails, final_ret, if_neg (by decide)]
      rfl

/-- What the receiver returns and what it has stored, in terms of the chunks taken. -/
structure Progress (content : List Byte) (i a seq : Nat) (taken : Option Nat) (stats : FileRecvStats) (file : List Byte) :
    Prop where
  count : stats.lastChunkRecvd = taken.elim seq (i + ·)
  code : stats.errorCode = -1 ∨ stats.errorCode = -2
  stored : file = content.take (max a (i + taken.getD 0) * CHUNK_SIZE)

/-- Nothing taken. -/
theorem Progress.none {a : Nat} (reached : i ≤ a) {code : Int} (broken : code = -1 ∨ code = -2) :
    Progress content i a seq none ⟨seq, code⟩ (content.take (a * CHUNK_SIZE)) :=
  ⟨rfl, broken, by rw [Option.getD_none, Nat.add_zero, Nat.max_eq_left reached]⟩

/-- A chunk that comes and cannot be acknowledged. -/
theorem Progress.unanswered {a : Nat} (reached : i ≤ a) {code : Int} (broken : code = -1 ∨ code = -2) :
    Progress content i a seq (some 0) ⟨i, code⟩ (content.take (a * CHUNK_SIZE)) :=
  ⟨rfl, broken, by rw [Option.getD_some, Nat.add_zero, Nat.max_eq_left reached]⟩

/-- One chunk, and then the others. -/
theorem Progress.more {a : Nat} {taken : Option Nat}
    (later : Progress content (i + 1) (max a (i + 1)) (i + 1) taken stats file) :
    Progress content i a seq (some (1 + taken.getD 0)) stats file := by
  refine ⟨?_, later.code, ?_⟩
  · rw [later.count]
    cases taken with
    | none => rfl
    | some m => exact Nat.add_assoc i 1 m
  · rw [later.stored, Option.getD_some, ← Nat.add_assoc, Nat.max_assoc, Nat.max_eq_right (Nat.le_add_right (i + 1) _)]

variable {inflow : Inflow}

theorem taken_nil : inflow.taken libs sys [] (fuel + 3) =
    if inflow.Passes libs (sys (fuel + 2)).junk then some (if (sys (fuel + 1)).sent = .ok then 1 else 0) else none := rfl

theorem taken_cons {x : Stamp × Chunk} {rest : List (Stamp × Chunk)} : inflow.taken libs sys (x :: rest) (fuel + 3) =
    if libs.checksum x.2.data = x.2.hdr.checksum then
      some (if (sys (fuel + 1)).sent = .ok then 1 + (inflow.taken libs sys rest fuel).getD 0 else 0)
    else if (sys (fuel + 1)).sent = .ok then inflow.taken libs sys rest (fuel + 1)
    else none := rfl

theorem Due.lt (due : Due content i seq pos) (below : i < count) : seq < count := by
  rcases due with ⟨rfl, -⟩ | ⟨rfl, -⟩
  · exact below
  · exact Nat.zero_lt_of_lt below

/-- A message of which the header has come is there. -/
theorem bytes_ne_zero (enough : sizeofMessageHdr ≤ inflow.torn.length) : inflow.bytes ≠ 0 := by
  intro nothing
  rw [Inflow.torn, nothing, List.take_zero] at enough
  exact absurd enough (by decide)

/-- The last message, of which only a part arrives. -/
theorem progress_of_torn (works : FileWorks sys) (small : content.length < 2 ^ 63)
    (delivers : Delivers libs content count i (if inflow.bytes = 0 then [] else [inflow.cut]))
    (short : inflow.bytes < (chunkWire inflow.cut.1 inflow.cut.2).length) (sound : inflow.Sound libs content sys)
    (due : Due content i seq pos) {a : Nat} (reached : i ≤ a) (arrived : sock.rx = inflow.torn)
    (returned : (Counted.final (recvStep libs count) sys (fuel + 3)
      ⟨.top seq, pos, content.take (a * CHUNK_SIZE), writes, sock⟩).pc = .ret stats) (failed : stats.errorCode ≠ 0) :
    Progress content i a seq (inflow.taken libs sys [] (fuel + 3)) stats (Counted.final (recvStep libs count) sys (fuel + 3)
      ⟨.top seq, pos, content.take (a * CHUNK_SIZE), writes, sock⟩).file := by
  rw [taken_nil]
  by_cases enough : sizeofMessageHdr ≤ inflow.torn.length
  · rw [if_neg (bytes_ne_zero enough)] at delivers
    obtain ⟨below, inside, -⟩ := delivers.first
    have seqs : inflow.cut.2.hdr.seq = i := by rw [delivers.header.1, chunkAt_seq]
    have more := due.lt below
    obtain ⟨rest, drained, -, received⟩ := @chunkRecv_torn libs inflow (sys (fuel + 2)).junk sock
      (delivers.shape small).2.2 short enough arrived
    have dry : rest.rx.length < sizeofMessageHdr := by
      rw [drained]
      decide
    by_cases waits : sock.fin = .opened
    · rw [if_pos waits] at received
      have step : recvStep libs count (sys (fuel + 2)) ⟨.top seq, pos, content.take (a * CHUNK_SIZE), writes, sock⟩ = none := by
        simp only [recvStep, if_pos more, received]
      rw [Counted.final, step] at returned
      cases returned
    rw [if_neg waits, chunkCheck_eq] at received
    by_cases overruns : Overruns (inflow.memory (sys (fuel + 2)).junk) (inflow.readable (sys (fuel + 2)).junk)
    · rw [if_pos overruns] at received
      rw [final_faults more received] at returned
      cases returned
    rw [if_neg overruns] at received
    by_cases passes : ChecksOut libs (inflow.memory (sys (fuel + 2)).junk)
    · obtain ⟨numbered, data⟩ := sound (fuel + 2) ⟨enough, overruns, passes⟩
      rw [seqs] at numbered data
      rw [if_pos passes] at received
      have whole : chunkRecv libs (sys (fuel + 2)).junk sock = .ok _ (inflow.passed (sys (fuel + 2)).junk) rest := received
      rw [final_accept works small inside due more whole numbered, final_acknowledge works small inside reached data]
        at returned ⊢
      rw [if_pos ⟨enough, overruns, passes⟩]
      by_cases sent : (sys (fuel + 1)).sent = .ok
      · rw [if_pos sent] at returned ⊢
        rw [if_pos sent]
        obtain ⟨⟨last, broken⟩, stored⟩ := final_short dry returned failed
        rw [stored]
        obtain ⟨counted, code⟩ := stats
        obtain rfl : counted = i + 1 := last
        exact .more (.none (Nat.le_max_right _ _) broken)
      · rw [if_neg sent] at returned ⊢
        rw [if_neg sent]
        cases returned
        exact .unanswered reached (code_of_unsent sent)
    · rw [if_neg passes] at received
      rw [final_again more received] at returned ⊢
      rw [if_neg fun all => passes all.2.2]
      by_cases sent : (sys (fuel + 1)).sent = .ok
      · rw [if_pos sent] at returned ⊢
        obtain ⟨⟨last, broken⟩, stored⟩ := final_short dry returned failed
        rw [stored]
        obtain ⟨counted, code⟩ := stats
        obtain rfl : counted = seq := last
        exact .none reached broken
      · rw [if_neg sent] at returned ⊢
        cases returned
        exact .none reached (code_of_unsent sent)
  · rw [if_neg fun both => enough both.1]
    obtain ⟨⟨last, broken⟩, stored⟩ := final_short (by rw [arrived]; exact Nat.lt_of_not_le enough) returned failed
    rw [stored]
    obtain ⟨counted, code⟩ := stats
    obtain rfl : counted = seq := last
    exact .none reached broken

/-- The fuel left when a message has been received, answered and written. -/
theorem fuel_peer {x : Stamp × Chunk} {msgs : List (Stamp × Chunk)} {torn : List Byte} {more : Nat}
    (time : 4 * (peerWire (x :: msgs) ++ torn).length + more ≤ fuel) :
    ∃ k, fuel = k + 3 ∧ 4 * (peerWire msgs ++ torn).length + more ≤ k := by
  have message := @chunkWire_pos x.1 x.2
  rw [peerWire_cons, List.append_assoc, List.length_append] at time
  exact ⟨fuel - 3, by omega, by omega⟩

/-- What `file_recv` has counted and stored when the connection breaks, for every stretch of
messages and whatever the replies do. -/
theorem progress_of_cut (works : FileWorks sys) (small : content.length < 2 ^ 63) {msgs : List (Stamp × Chunk)}
    (delivers : Delivers libs content count i (msgs ++ if inflow.bytes = 0 then [] else [inflow.cut]))
    (short : inflow.bytes < (chunkWire inflow.cut.1 inflow.cut.2).length) (sound : inflow.Sound libs content sys)
    (due : Due content i seq pos) {a : Nat} (reached : i ≤ a) {sched : List (Option Nat)} {fin : SockEnd}
    (time : 4 * (peerWire msgs ++ inflow.torn).length + 3 ≤ fuel)
    (returned : (Counted.final (recvStep libs count) sys fuel
      ⟨.top seq, pos, content.take (a * CHUNK_SIZE), writes, ⟨peerWire msgs ++ inflow.torn, sched, fin⟩⟩).pc = .ret stats)
    (failed : stats.errorCode ≠ 0) :
    Progress content i a seq (inflow.taken libs sys msgs fuel) stats (Counted.final (recvStep libs count) sys fuel
      ⟨.top seq, pos, content.take (a * CHUNK_SIZE), writes, ⟨peerWire msgs ++ inflow.torn, sched, fin⟩⟩).file := by
  induction msgs generalizing i a seq pos fuel writes sched with
  | nil =>
      obtain ⟨fuel, rfl⟩ : ∃ k, fuel = k + 3 := ⟨fuel - 3, by omega⟩
      exact progress_of_torn works small delivers short sound due reached rfl returned failed
  | cons x msgs ih =>
      obtain ⟨below, inside, -⟩ := delivers.first
      obtain ⟨fits, length, width⟩ := delivers.shape small
      have more := due.lt below
      obtain ⟨fuel, rfl, left⟩ := fuel_peer time
      obtain ⟨sched', received⟩ := @chunkRecv_chunkWire libs (sys (fuel + 2)).junk
        ⟨peerWire (x :: msgs) ++ inflow.torn, sched, fin⟩ x.1 x.2 (peerWire msgs ++ inflow.torn) fits length width
        (by rw [peerWire_cons, List.append_assoc])
      rw [taken_cons]
      rcases delivers.turn with ⟨checksum, numbered, data, later⟩ | ⟨checksum, later⟩
      · rw [if_pos checksum] at received ⊢
        rw [final_accept works small inside due more received numbered, final_acknowledge works small inside reached data]
          at returned ⊢
        by_cases sent : (sys (fuel + 1)).sent = .ok
        · rw [if_pos sent] at returned ⊢
          rw [if_pos sent]
          exact .more (ih later (.inl ⟨rfl, rfl⟩) (Nat.le_max_right _ _) (by omega) returned)
        · rw [if_neg sent] at returned ⊢
          rw [if_neg sent]
          cases returned
          exact .unanswered reached (code_of_unsent sent)
      · rw [if_neg checksum] at received ⊢
        rw [final_again more received] at returned ⊢
        by_cases sent : (sys (fuel + 1)).sent = .ok
        · rw [if_pos sent] at returned ⊢
          rw [if_pos sent]
          exact ih later due reached (by omega) returned
        · rw [if_neg sent] at returned ⊢
          rw [if_neg sent]
          cases returned
          exact .none reached (code_of_unsent sent)

theorem due_first {s : Nat} : Due content s 0 0 := by
  rcases Nat.eq_zero_or_pos s with rfl | later
  · exact .inl ⟨rfl, by rw [Nat.zero_mul, Nat.zero_min]⟩
  · exact .inr ⟨rfl, later⟩

/-- The same from the beginning of the loop, where the first chunks are stored. -/
theorem progress_of_start (works : FileWorks sys) (small : content.length < 2 ^ 63) {s r : Nat}
    (from_ : inflow.From libs content count s) (sound : inflow.Sound libs content sys) (below : s ≤ r)
    (arrived : sock.rx = inflow.rx)
    (returned : (recvLoop libs count sys sock.fuel (recvStart (content.take (r * CHUNK_SIZE)) sock)).1.pc = .ret stats)
    (failed : stats.errorCode ≠ 0) : Progress content s r 0 (inflow.taken libs sys inflow.whole sock.fuel) stats
      (recvLoop libs count sys sock.fuel (recvStart (content.take (r * CHUNK_SIZE)) sock)).1.file := by
  obtain ⟨rx, sched, fin⟩ := sock
  obtain rfl : rx = inflow.rx := arrived
  rw [recvLoop_final] at returned ⊢
  exact progress_of_cut works small from_.delivers from_.short sound due_first below (Nat.le_refl _) returned failed

theorem lt_chunksOf (inside : i * CHUNK_SIZE < content.length) : i + 1 ≤ chunksOf content.length := by
  simp only [chunksOf, CHUNK_SIZE] at inside ⊢
  omega

/-- The chunks taken are chunks of the file. -/
theorem taken_le {msgs : List (Stamp × Chunk)}
    (delivers : Delivers libs content count i (msgs ++ if inflow.bytes = 0 then [] else [inflow.cut]))
    (first : i ≤ chunksOf content.length) : i + (inflow.taken libs sys msgs fuel).getD 0 ≤ chunksOf content.length := by
  induction msgs generalizing i fuel with
  | nil =>
      rw [Inflow.taken]
      split_ifs with passes sent
      · rw [if_neg (bytes_ne_zero passes.1)] at delivers
        exact lt_chunksOf delivers.first.2.1
      · exact first
      · exact first
  | cons x msgs ih =>
      obtain ⟨-, inside, -⟩ := delivers.first
      rw [Inflow.taken]
      rcases delivers.turn with ⟨checksum, -, -, later⟩ | ⟨checksum, later⟩
      · rw [if_pos checksum, Option.getD_some]
        split_ifs with sent
        · rw [← Nat.add_assoc]
          exact ih later (lt_chunksOf inside)
        · exact first
      · rw [if_neg checksum]
        split_ifs with sent
        · exact ih later first
        · exact first

/-- The receiver has come to an end, and not to that of the file. -/
def Breaks (s : RecvState) : Prop := ∃ stats, s.pc = .ret stats ∧ stats.errorCode ≠ 0

theorem breaks_short (short : sock.rx.length < sizeofMessageHdr) (ended : sock.fin ≠ .opened) (more : seq < count) :
    Breaks (Counted.final (recvStep libs count) sys (fuel + 1) ⟨.top seq, pos, file, writes, sock⟩) := by
  rcases @chunkRecv_dry libs sock (sys fuel).junk short with ⟨opened, -⟩ | ⟨-, ret, rest, broken, code⟩
  · exact absurd opened ended
  · rw [final_fails more broken code]
    exact ⟨_, rfl, show ret ≠ 0 by omega⟩

theorem breaks_unsent {sent : SendRet} (fails : ¬ sent = .ok) : Breaks ⟨.ret ⟨seq, sent.code⟩, pos, file, writes, sock⟩ := by
  have code := code_of_unsent fails
  exact ⟨_, rfl, show sent.code ≠ 0 by omega⟩

/-- A connection that ends breaks the transfer off, if a chunk is still missing. -/
theorem breaks_of_cut (works : FileWorks sys) (small : content.length < 2 ^ 63) {msgs : List (Stamp × Chunk)}
    (delivers : Delivers libs content count i (msgs ++ if inflow.bytes = 0 then [] else [inflow.cut]))
    (short : inflow.bytes < (chunkWire inflow.cut.1 inflow.cut.2).length) (sound : inflow.Sound libs content sys)
    (legible : inflow.Legible sys)
    (due : Due content i seq pos) {a : Nat} (reached : i ≤ a) {sched : List (Option Nat)} {fin : SockEnd}
    (time : 4 * (peerWire msgs ++ inflow.torn).length + 3 ≤ fuel) (ended : fin ≠ .opened)
    (lacks : i + (inflow.taken libs sys msgs fuel).getD 0 < count) :
    Breaks (Counted.final (recvStep libs count) sys fuel
      ⟨.top seq, pos, content.take (a * CHUNK_SIZE), writes, ⟨peerWire msgs ++ inflow.torn, sched, fin⟩⟩) := by
  have more := due.lt (Nat.lt_of_le_of_lt (Nat.le_add_right _ _) lacks)
  induction msgs generalizing i a seq pos fuel writes sched with
  | nil =>
      obtain ⟨fuel, rfl⟩ : ∃ k, fuel = k + 3 := ⟨fuel - 3, by omega⟩
      by_cases enough : sizeofMessageHdr ≤ inflow.torn.length
      · rw [List.nil_append, if_neg (bytes_ne_zero enough)] at delivers
        obtain ⟨below, inside, -⟩ := delivers.first
        have seqs : inflow.cut.2.hdr.seq = i := by rw [delivers.header.1, chunkAt_seq]
        obtain ⟨rest, drained, fin', received⟩ := @chunkRecv_torn libs inflow (sys (fuel + 2)).junk
          ⟨peerWire [] ++ inflow.torn, sched, fin⟩ (delivers.shape small).2.2 short enough rfl
        have dry : rest.rx.length < sizeofMessageHdr := by
          rw [drained]
          decide
        have overruns := legible (fuel + 2) enough
        rw [if_neg ended, chunkCheck_eq, if_neg overruns] at received
        rw [taken_nil] at lacks
        by_cases passes : ChecksOut libs (inflow.memory (sys (fuel + 2)).junk)
        · obtain ⟨numbered, data⟩ := sound (fuel + 2) ⟨enough, overruns, passes⟩
          rw [seqs] at numbered data
          rw [if_pos passes] at received
          have whole : chunkRecv libs (sys (fuel + 2)).junk ⟨peerWire [] ++ inflow.torn, sched, fin⟩ =
              .ok _ (inflow.passed (sys (fuel + 2)).junk) rest := received
          rw [final_accept works small inside due more whole numbered, final_acknowledge works small inside reached data]
          rw [if_pos ⟨enough, overruns, passes⟩, Option.getD_some] at lacks
          by_cases sent : (sys (fuel + 1)).sent = .ok
          · rw [if_pos sent] at lacks ⊢
            obtain ⟨fuel, rfl⟩ : ∃ k, fuel = k + 1 := by
              refine ⟨fuel - 1, ?_⟩
              rw [peerWire, List.flatMap_nil, List.nil_append] at time
              simp only [sizeofMessageHdr] at enough
              omega
            exact breaks_short dry (fin'.trans_ne ended) lacks
          · rw [if_neg sent]
            exact breaks_unsent sent
        · rw [if_neg passes] at received
          rw [final_again more received]
          by_cases sent : (sys (fuel + 1)).sent = .ok
          · rw [if_pos sent]
            exact breaks_short dry (fin'.trans_ne ended) more
          · rw [if_neg sent]
            exact breaks_unsent sent
      · exact breaks_short (Nat.lt_of_not_le enough) ended more
  | cons x msgs ih =>
      obtain ⟨below, inside, -⟩ := delivers.first
      obtain ⟨fits, length, width⟩ := delivers.shape small
      obtain ⟨fuel, rfl, left⟩ := fuel_peer time
      obtain ⟨sched', received⟩ := @chunkRecv_chunkWire libs (sys (fuel + 2)).junk
        ⟨peerWire (x :: msgs) ++ inflow.torn, sched, fin⟩ x.1 x.2 (peerWire msgs ++ inflow.torn) fits length width
        (by rw [peerWire_cons, List.append_assoc])
      rw [taken_cons] at lacks
      rcases delivers.turn with ⟨checksum, numbered, data, later⟩ | ⟨checksum, later⟩
      · rw [if_pos checksum] at received
        rw [if_pos checksum, Option.getD_some] at lacks
        rw [final_accept works small inside due more received numbered, final_acknowledge works small inside reached data]
        by_cases sent : (sys (fuel + 1)).sent = .ok
        · rw [if_pos sent, ← Nat.add_assoc] at lacks
          rw [if_pos sent]
          exact ih later (.inl ⟨rfl, rfl⟩) (Nat.le_max_right _ _) (by omega) lacks (Nat.lt_of_le_of_lt (Nat.le_add_right _ _) lacks)
        · rw [if_neg sent]
          exact breaks_unsent sent
      · rw [if_neg checksum] at received lacks
        rw [final_again more received]
        by_cases sent : (sys (fuel + 1)).sent = .ok
        · rw [if_pos sent] at lacks ⊢
          exact ih later due reached (by omega) lacks more
        · rw [if_neg sent]
          exact breaks_unsent sent

theorem breaks_of_start (works : FileWorks sys) (small : content.length < 2 ^ 63) {s r : Nat}
    (from_ : inflow.From libs content count s) (sound : inflow.Sound libs content sys) (legible : inflow.Legible sys)
    (below : s ≤ r) (arrived : sock.rx = inflow.rx) (ended : sock.fin ≠ .opened)
    (lacks : s + (inflow.taken libs sys inflow.whole sock.fuel).getD 0 < count) :
    Breaks (recvLoop libs count sys sock.fuel (recvStart (content.take (r * CHUNK_SIZE)) sock)).1 := by
  obtain ⟨rx, sched, fin⟩ := sock
  obtain rfl : rx = inflow.rx := arrived
  rw [recvLoop_final]
  exact breaks_of_cut works small from_.delivers from_.short sound legible due_first below (Nat.le_refl _) ended lacks

end Receiving

end MiniDropbox
