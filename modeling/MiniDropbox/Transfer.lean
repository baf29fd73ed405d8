/-
A file transfer: `file_send` and `file_recv` running against each other.

The two loops of `File.lean` are connected by an ordered channel in each
direction, the receive buffers of their sockets. A `Transfer` fixes what is sent
and what the system does; the state of a run is a `Link`, and `Step` lets either
side move at any time, lets the channel damage the data of a chunk in a way the
checksum detects, as often as the budget of the link allows, and lets a sender
that has returned say goodbye and close.

A transfer reads the content in segments, and what the writes store is one piece
of it: `fileAt_succ`, by which each write extends the previous one. The lemmas on
the steps of either side say what a step does when it is at chunk `i`.
-/

import MiniDropbox.File

namespace MiniDropbox

/-! ### The system -/

/-- What a transfer is about: the content sent, the `chunk_count` both sides use,
the start chunk, which reads succeed, how many bytes the write of each chunk
leaves out, and whether the sender's process closes the connection afterwards. -/
structure Transfer where
  libs : Externals
  content : List Byte
  count : Nat
  start : Nat
  readOk : Nat → Bool
  lost : Nat → Nat
  hangup : Bool
  content_lt : content.length < 2 ^ 63
  start_lt : start * CHUNK_SIZE < 2 ^ 63

/-- Both ends of the connection. `budget` bounds the damage still to come. -/
structure Link where
  snd : SendState
  rcv : RecvState
  budget : Nat

def Sock.deliver (sock : Sock) (bytes : List Byte) : Sock := { sock with rx := sock.rx ++ bytes }

def SendState.deliver (s : SendState) (bytes : List Byte) : SendState :=
  { s with sock := s.sock.deliver bytes }

def RecvState.deliver (s : RecvState) (bytes : List Byte) : RecvState :=
  { s with sock := s.sock.deliver bytes }

/-- A chunk that arrives in place of the one sent: other data of the same length,
whose checksum is not the one in the header. -/
structure Damaged (libs : Externals) (sent received : Chunk) : Prop where
  hdr : received.hdr = sent.hdr
  length : received.data.length = sent.data.length
  detected : libs.checksum received.data ≠ sent.hdr.checksum

@[simp] theorem SendState.deliver_nil (s : SendState) : s.deliver [] = s := by
  simp [SendState.deliver, Sock.deliver]

@[simp] theorem RecvState.deliver_nil (s : RecvState) : s.deliver [] = s := by
  simp [RecvState.deliver, Sock.deliver]

/-- What `handle_download` sends after `file_send` has returned. -/
def goodbye (stamp : Stamp) (stats : FileSendStats) : List Byte :=
  if stats.errorCode < 0 then
    msgWire stamp .error [] (cstr "transfer interrupted, try again to resume download\n" ++ [0])
  else []

namespace Transfer

variable (T : Transfer)

/-- The system calls of the sender: `read` delivers a full buffer or fails. -/
def sendSys (stamp : Stamp) : SendPc → SendSys
  | .top seq _ => ⟨if T.readOk seq then some (CHUNK_SIZE - 1) else none, .ok, stamp⟩
  | _ => ⟨none, .ok, stamp⟩

/-- The system calls of the receiver. -/
def recvSys (junk : Junk) (stamp : Stamp) : RecvPc → RecvSys
  | .write seq _ => ⟨junk, false, .ok, T.lost seq, stamp⟩
  | _ => ⟨junk, false, .ok, 0, stamp⟩

/-- One step of one side, or of the channel. -/
inductive Step : Link → Link → Prop where
  | send {l : Link} {snd : SendState} {out : List Byte} (stamp : Stamp) :
      sendStep T.libs T.content T.count (T.sendSys stamp l.snd.pc) l.snd = some (snd, out) →
        Step l { l with snd := snd, rcv := l.rcv.deliver out }
  | damage {l : Link} {snd : SendState} {seq start : Nat} {c d : Chunk} {out : List Byte}
      {budget : Nat} (stamp : Stamp) : l.snd.pc = .send seq start c →
      sendStep T.libs T.content T.count (T.sendSys stamp l.snd.pc) l.snd = some (snd, out) →
        Damaged T.libs c d → l.budget = budget + 1 →
          Step l ⟨snd, l.rcv.deliver (chunkWire stamp d), budget⟩
  | recv {l : Link} {rcv : RecvState} {out : List Byte} (junk : Junk) (stamp : Stamp) :
      recvStep T.libs T.count (T.recvSys junk stamp l.rcv.pc) l.rcv = some (rcv, out) →
        Step l { l with rcv := rcv, snd := l.snd.deliver out }
  | close {l : Link} {stats : FileSendStats} (stamp : Stamp) :
      T.hangup = true → l.snd.pc = .ret stats → l.rcv.sock.fin = .opened →
        Step l { l with rcv := { l.rcv with
          sock := ⟨l.rcv.sock.rx ++ goodbye stamp stats, l.rcv.sock.sched, .closed⟩ } }

/-- The transfer before its first step: both files are open. The schedules say how
the bytes of the two sockets will arrive. -/
def initial (old : List Byte) (sndSched rcvSched : List (Option Nat)) (budget : Nat) : Link :=
  ⟨sendStart T.start ⟨[], sndSched, .opened⟩, recvStart old ⟨[], rcvSched, .opened⟩, budget⟩

/-! ### What is sent and stored -/

/-- The bytes of a chunk. -/
def segment (i : Nat) : List Byte := (T.content.drop (i * CHUNK_SIZE)).take CHUNK_SIZE

/-- The part of a chunk its write stores. -/
def part (i : Nat) : List Byte := (T.segment i).take ((T.segment i).length - T.lost i)

/-- What the writes of the chunks below `i` have stored, one behind the other. -/
def stored (i : Nat) : List Byte := (List.range' T.start (i - T.start)).flatMap T.part

/-- The offset at which chunk `i` is written. -/
def offset (i : Nat) : Nat := T.start * CHUNK_SIZE + (T.stored i).length

/-- The writes of the chunks below `i`, each with its offset. -/
def writes (i : Nat) : List (Nat × List Byte) :=
  (List.range' T.start (i - T.start)).map fun j => (T.offset j, T.segment j)

/-- The receiver's file when the chunks below `i` have been written. -/
def fileAt (old : List Byte) (i : Nat) : List Byte :=
  Splice.splice 0 old (T.start * CHUNK_SIZE) (T.stored i)

/-- The sender has a chunk `i` to send. -/
def Sends (i : Nat) : Prop := i < T.count ∧ T.readOk i = true ∧ i * CHUNK_SIZE < T.content.length

/-- The sender comes to chunk `i`. -/
def Reaches (i : Nat) : Prop := T.start ≤ i ∧ ∀ j, T.start ≤ j → j < i → T.Sends j

/-- The receiver's `seq` when it waits for chunk `i`: it learns the start from the
first chunk. -/
def recvSeq (i : Nat) : Nat := if i = T.start then 0 else i

/-- What `file_send` returns when it stops at chunk `i`. -/
def sendStats (i : Nat) : FileSendStats := if T.count ≤ i then ⟨i, 0⟩ else ⟨i + 1, -1⟩

variable {T}

theorem stored_succ {i : Nat} (from_start : T.start ≤ i) :
    T.stored (i + 1) = T.stored i ++ T.part i := by
  have len : i + 1 - T.start = (i - T.start) + 1 := by omega
  have last : T.start + (i - T.start) = i := by omega
  rw [stored, stored, len, List.range'_1_concat, last, List.flatMap_append, List.flatMap_singleton]

theorem writes_succ {i : Nat} (from_start : T.start ≤ i) :
    T.writes (i + 1) = T.writes i ++ [(T.offset i, T.segment i)] := by
  have len : i + 1 - T.start = (i - T.start) + 1 := by omega
  have last : T.start + (i - T.start) = i := by omega
  rw [writes, writes, len, List.range'_1_concat, last, List.map_append, List.map_singleton]

@[simp] theorem stored_start : T.stored T.start = [] := by simp [stored]

@[simp] theorem writes_start : T.writes T.start = [] := by simp [writes]

@[simp] theorem offset_start : T.offset T.start = T.start * CHUNK_SIZE := by simp [offset]

@[simp] theorem fileAt_start (old : List Byte) : T.fileAt old T.start = old := by simp [fileAt]

/-- Each write starts where the previous one ended. -/
theorem fileAt_succ {i : Nat} (old : List Byte) (from_start : T.start ≤ i) :
    T.fileAt old (i + 1) = Splice.splice 0 (T.fileAt old i) (T.offset i) (T.part i) := by
  rw [fileAt, fileAt, offset, Splice.splice_splice, stored_succ from_start]

theorem offset_succ {i : Nat} (from_start : T.start ≤ i) :
    T.offset (i + 1) = T.offset i + (T.part i).length := by
  rw [offset, offset, stored_succ from_start, List.length_append, Nat.add_assoc]

theorem Sends.lt {i : Nat} (sends : T.Sends i) : i < 2 ^ 51 := by
  have small := T.content_lt
  have inside := sends.2.2
  simp only [CHUNK_SIZE] at inside
  omega

theorem Reaches.lt {i : Nat} (reaches : T.Reaches i) : i < 2 ^ 63 := by
  by_cases first : i = T.start
  · have small := T.start_lt
    simp only [CHUNK_SIZE] at small
    omega
  · have last := (reaches.2 (i - 1) (by have := reaches.1; omega) (by have := reaches.1; omega)).lt
    omega

theorem Reaches.succ {i : Nat} (reaches : T.Reaches i) (sends : T.Sends i) : T.Reaches (i + 1) := by
  refine ⟨by have := reaches.1; omega, fun j above below => ?_⟩
  by_cases last : j = i
  · rw [last]
    exact sends
  · exact reaches.2 j above (by omega)

/-- The sender does not come beyond the end of the transfer. -/
theorem Reaches.le_max {i : Nat} (reaches : T.Reaches i) : i ≤ max T.start T.count := by
  by_cases first : i = T.start
  · omega
  · have last := (reaches.2 (i - 1) (by have := reaches.1; omega) (by have := reaches.1; omega)).1
    omega

/-- The chunk at which the sender stops is determined. -/
theorem Reaches.unique {i j : Nat} (hi : T.Reaches i) (stop_i : ¬ T.Sends i) (hj : T.Reaches j)
    (stop_j : ¬ T.Sends j) : i = j := by
  rcases Nat.lt_trichotomy i j with less | same | greater
  · exact absurd (hj.2 i hi.1 less) stop_i
  · exact same
  · exact absurd (hi.2 j hj.1 greater) stop_j

/-! ### The steps of the sender -/

/-- The chunk message `i` of the transfer carries. -/
structure Carries (T : Transfer) (i : Nat) (c : Chunk) : Prop where
  fits : c.hdr.Fits
  seq : c.hdr.seq = i
  length : c.hdr.length = c.data.length
  data : c.data = T.segment i
  checksum : c.hdr.checksum = T.libs.checksum c.data

theorem length_segment_le (i : Nat) : (T.segment i).length ≤ CHUNK_SIZE := by
  rw [segment, List.length_take]
  omega

theorem segment_ne_nil {i : Nat} (inside : i * CHUNK_SIZE < T.content.length) :
    T.segment i ≠ [] := by
  have positive : 0 < (T.segment i).length := by
    rw [segment, List.length_take, List.length_drop]
    simp only [CHUNK_SIZE] at inside ⊢
    omega
  exact List.ne_nil_of_length_pos positive

theorem carries_sendChunk {i start : Nat} (sends : T.Sends i) (small : start < 2 ^ 64) :
    T.Carries i (sendChunk T.libs i start (T.segment i)) where
  fits := by
    have length := T.length_segment_le i
    have index := sends.lt
    simp only [CHUNK_SIZE] at length
    refine ⟨?_, small, Nat.mod_lt _ (by decide), ?_⟩
    · simp only [sendChunk, chunkInit]
      omega
    · simp only [sendChunk, chunkInit]
      omega
  seq := rfl
  length := rfl
  data := rfl
  checksum := rfl

/-- A sender at the loop test with the descriptor at chunk `i`. -/
structure SenderAt (T : Transfer) (i : Nat) (s : SendState) : Prop where
  pc : ∃ start < 2 ^ 64, s.pc = .top i start
  off : T.content.drop s.off = T.content.drop (i * CHUNK_SIZE)

/-- A sender with a chunk in hand, its descriptor behind that chunk. -/
structure Holds (T : Transfer) (i : Nat) (s : SendState) (pc : Nat → Chunk → SendPc) : Prop where
  pc : ∃ start < 2 ^ 64, ∃ c, T.Carries i c ∧ s.pc = pc start c
  off : T.content.drop s.off = T.content.drop ((i + 1) * CHUNK_SIZE)

theorem senderAt_sendStart (sock : Sock) : T.SenderAt T.start (sendStart T.start sock) := by
  have small := T.start_lt
  unfold sendStart
  split_ifs with positive
  · exact ⟨⟨_, Nat.mod_lt _ (by decide), rfl⟩, by simp only [offT_of_lt small, Option.getD_some]⟩
  · obtain zero : T.start = 0 := by omega
    exact ⟨⟨0, by decide, by rw [zero]⟩, by simp [zero]⟩

/-- A sender with something to send reads the next segment. -/
theorem sendStep_top {stamp : Stamp} {s : SendState} {i : Nat} (at_i : T.SenderAt i s)
    (sends : T.Sends i) :
    ∃ s', sendStep T.libs T.content T.count (T.sendSys stamp s.pc) s = some (s', []) ∧
      s'.sock = s.sock ∧ T.Holds i s' (.send i) := by
  obtain ⟨start, small, pc⟩ := at_i.pc
  have buffer : (T.content.drop s.off).take (min (CHUNK_SIZE - 1 + 1) CHUNK_SIZE) = T.segment i := by
    rw [at_i.off, segment]
    rfl
  refine ⟨{ s with pc := .send i start (sendChunk T.libs i start (T.segment i))
                   off := s.off + (T.segment i).length }, ?_, rfl, ?_, ?_⟩
  · simp only [sendStep, pc, sendSys, sends.1, sends.2.1, if_true, buffer]
    rw [if_neg (T.segment_ne_nil sends.2.2)]
  · exact ⟨start, small, _, carries_sendChunk sends small, rfl⟩
  · have step : T.content.drop (s.off + (T.segment i).length) =
        (T.content.drop (i * CHUNK_SIZE)).drop (T.segment i).length := by
      rw [← List.drop_drop, at_i.off]
    have width : (T.segment i).length = min CHUNK_SIZE (T.content.length - i * CHUNK_SIZE) := by
      rw [segment, List.length_take, List.length_drop]
    show T.content.drop (s.off + (T.segment i).length) = _
    rw [step, List.drop_drop, width]
    by_cases full : CHUNK_SIZE ≤ T.content.length - i * CHUNK_SIZE
    · rw [Nat.min_eq_left full, Nat.succ_mul]
    · have inside := sends.2.2
      simp only [CHUNK_SIZE] at full inside ⊢
      rw [List.drop_of_length_le (by omega), List.drop_of_length_le (by omega)]

/-- A sender with nothing more to send returns. -/
theorem sendStep_stop {stamp : Stamp} {s : SendState} {i : Nat} (at_i : T.SenderAt i s)
    (small : i < 2 ^ 63) (stops : ¬ T.Sends i) :
    sendStep T.libs T.content T.count (T.sendSys stamp s.pc) s =
      some ({ s with pc := .ret (T.sendStats i) }, []) := by
  obtain ⟨start, -, pc⟩ := at_i.pc
  have next : sizeT (i + 1) = i + 1 := sizeT_of_lt (by omega)
  by_cases more : i < T.count
  · have stats : T.sendStats i = ⟨i + 1, -1⟩ := if_neg (by omega)
    by_cases read : T.readOk i = true
    · have ended : T.content.drop s.off = [] := by
        rw [at_i.off]
        exact List.drop_of_length_le (Nat.le_of_not_lt fun inside => stops ⟨more, read, inside⟩)
      simp [sendStep, pc, sendSys, more, read, ended, next, stats]
    · simp [sendStep, pc, sendSys, more, read, next, stats]
  · have stats : T.sendStats i = ⟨i, 0⟩ := if_pos (by omega)
    simp [sendStep, pc, more, stats]

theorem sendStep_send {stamp : Stamp} {s : SendState} {i : Nat} (holds : T.Holds i s (.send i)) :
    ∃ s' c, sendStep T.libs T.content T.count (T.sendSys stamp s.pc) s =
        some (s', chunkWire stamp c) ∧ T.Carries i c ∧ s'.sock = s.sock ∧
          T.Holds i s' (.await i) := by
  obtain ⟨start, small, c, carries, pc⟩ := holds.pc
  refine ⟨{ s with pc := .await i start c }, c, ?_, carries, rfl,
    ⟨start, small, c, carries, rfl⟩, holds.off⟩
  simp [sendStep, pc, sendSys, SendRet.code]

theorem sendStep_blocked {stamp : Stamp} {s : SendState} {i : Nat}
    (holds : T.Holds i s (.await i)) (drained : s.sock.rx = []) (opened : s.sock.fin = .opened) :
    sendStep T.libs T.content T.count (T.sendSys stamp s.pc) s = none := by
  obtain ⟨start, -, c, -, pc⟩ := holds.pc
  simp [sendStep, pc, msgRecv_of_opened drained opened]

/-- A request to send again leads back to sending. -/
theorem sendStep_again {stamp reply : Stamp} {s : SendState} {i : Nat}
    (holds : T.Holds i s (.await i)) (arrived : s.sock.rx = msgWire reply .chunkAgain [] []) :
    ∃ s', sendStep T.libs T.content T.count (T.sendSys stamp s.pc) s = some (s', []) ∧
      s'.sock.rx = [] ∧ s'.sock.fin = s.sock.fin ∧ T.Holds i s' (.send i) := by
  obtain ⟨start, small, c, carries, pc⟩ := holds.pc
  obtain ⟨hdr, sched, received, type⟩ := msgRecv_msgWire_nil arrived
  have other : hdr.type ≠ MessageType.chunkOk.toNat := by
    rw [type]
    decide
  refine ⟨{ s with pc := .send i start c, sock := ⟨[], sched, s.sock.fin⟩ }, ?_, rfl, rfl,
    ⟨start, small, c, carries, rfl⟩, holds.off⟩
  simp [sendStep, pc, received, other]

/-- An acknowledgement leads to the next chunk. -/
theorem sendStep_acked {stamp reply : Stamp} {s : SendState} {i : Nat} (sends : T.Sends i)
    (holds : T.Holds i s (.await i)) (arrived : s.sock.rx = msgWire reply .chunkOk [] []) :
    ∃ s', sendStep T.libs T.content T.count (T.sendSys stamp s.pc) s = some (s', []) ∧
      s'.sock.rx = [] ∧ s'.sock.fin = s.sock.fin ∧ T.SenderAt (i + 1) s' := by
  obtain ⟨start, -, c, -, pc⟩ := holds.pc
  obtain ⟨hdr, sched, received, type⟩ := msgRecv_msgWire_nil arrived
  have next : sizeT (i + 1) = i + 1 := by
    have index := sends.lt
    exact sizeT_of_lt (by omega)
  refine ⟨{ s with pc := .top (i + 1) (sizeT (start + c.hdr.length)), sock := ⟨[], sched, s.sock.fin⟩ },
    ?_, rfl, rfl, ⟨_, Nat.mod_lt _ (by decide), rfl⟩, holds.off⟩
  simp [sendStep, pc, received, type, next]

/-! ### The steps of the receiver -/

/-- The receiver that waits for chunk `i`. -/
def waiting (T : Transfer) (old : List Byte) (i : Nat) (sock : Sock) : RecvState :=
  ⟨.top (T.recvSeq i), if i = T.start then 0 else T.offset i, T.fileAt old i, T.writes i, sock⟩

/-- The receiver that has accepted chunk `i`. -/
def accepting (T : Transfer) (old : List Byte) (i : Nat) (c : Chunk) (sock : Sock) : RecvState :=
  ⟨.ok i c, T.offset i, T.fileAt old i, T.writes i, sock⟩

/-- A receiver that has the chunks below `i` and no other in hand, with the number
of its own steps still to come: it waits for chunk `i`, has acknowledged the
previous one but not yet written it, or has returned. -/
inductive Rests (T : Transfer) (old : List Byte) (i : Nat) : Nat → RecvState → Prop where
  | waiting {s : RecvState} {sock : Sock} : s = T.waiting old i sock → Rests T old i 1 s
  | writing {s : RecvState} {j : Nat} {c : Chunk} {sock : Sock} : i = j + 1 → T.start ≤ j →
      T.Sends j → T.Carries j c → s = { T.accepting old j c sock with pc := .write j c } →
        Rests T old i 2 s
  | done {s : RecvState} : T.count ≤ T.recvSeq i → s.pc = .ret ⟨T.recvSeq i, 0⟩ →
      s.file = T.fileAt old i → s.writes = T.writes i → Rests T old i 0 s

variable {old : List Byte}

theorem recvSeq_succ {i : Nat} (from_start : T.start ≤ i) : T.recvSeq (i + 1) = i + 1 :=
  if_neg (by omega)

theorem recvSeq_le (i : Nat) : T.recvSeq i ≤ i := by
  unfold recvSeq
  split_ifs
  · exact Nat.zero_le i
  · exact Nat.le_refl i

/-- The write of an acknowledged chunk. -/
theorem recvStep_write {junk : Junk} {stamp : Stamp} {j : Nat} {c : Chunk} {sock : Sock}
    (from_start : T.start ≤ j) (sends : T.Sends j) (carries : T.Carries j c) :
    recvStep T.libs T.count (T.recvSys junk stamp (.write j c))
        { T.accepting old j c sock with pc := .write j c } =
      some (T.waiting old (j + 1) sock, []) := by
  have next : sizeT (j + 1) = j + 1 := by
    have index := sends.lt
    exact sizeT_of_lt (by omega)
  have later : j + 1 ≠ T.start := by omega
  simp only [recvStep, recvSys, next, carries.data, accepting, waiting, recvSeq_succ from_start, if_neg later,
    writes_succ from_start, fileAt_succ old from_start, offset_succ from_start, part]

/-- A receiver at rest with nothing in flight moves on its own only. -/
theorem recvStep_rests {junk : Junk} {stamp : Stamp} {i k : Nat} {s s' : RecvState}
    {out : List Byte} (rests : T.Rests old i k s) (drained : s.sock.rx = [])
    (opened : s.sock.fin = .opened)
    (move : recvStep T.libs T.count (T.recvSys junk stamp s.pc) s = some (s', out)) :
    out = [] ∧ s'.sock = s.sock ∧ ∃ j < k, T.Rests old i j s' := by
  cases rests with
  | @waiting _ sock eq =>
      subst eq
      by_cases more : T.recvSeq i < T.count
      · have blocked : chunkRecv T.libs junk sock = .blocked := chunkRecv_of_opened drained opened
        simp [recvStep, recvSys, waiting, more, blocked] at move
      · simp only [recvStep, waiting, more, if_false, Option.some.injEq, Prod.mk.injEq] at move
        obtain ⟨rfl, rfl⟩ := move
        exact ⟨rfl, rfl, 0, Nat.zero_lt_one, .done (by omega) rfl rfl rfl⟩
  | writing next from_start sends carries eq =>
      subst next eq
      cases (recvStep_write from_start sends carries).symm.trans move
      exact ⟨rfl, rfl, 1, Nat.one_lt_two, .waiting rfl⟩
  | done _ returned => simp [recvStep, returned] at move

/-- The checks accept the chunk the receiver waits for, and move the start when it
is the first one of a resumed transfer. -/
theorem recvAccept_carries {sys : RecvSys} {i : Nat} {c : Chunk} {sock sock' : Sock}
    (from_start : T.start ≤ i) (carries : T.Carries i c) (seeks : sys.lseekFails = false) :
    recvAccept sys (T.waiting old i sock) (T.recvSeq i) c sock' = T.accepting old i c sock' := by
  unfold waiting accepting
  by_cases first : i = T.start
  · subst first
    by_cases zero : T.start = 0
    · have none_before : T.offset T.start = 0 := by rw [offset_start, zero, Nat.zero_mul]
      have seq : T.recvSeq T.start = T.start := by rw [recvSeq, if_pos rfl, zero]
      have fresh : ¬ (T.recvSeq T.start = 0 ∧ c.hdr.seq > 0) := by
        rw [carries.seq]
        omega
      have expected : ¬ T.recvSeq T.start ≠ c.hdr.seq := by rw [seq, carries.seq]; exact not_not_intro rfl
      rw [recvAccept, if_neg fresh, if_neg expected, if_pos rfl, seq, none_before]
    · have positive : T.start > 0 := by omega
      have seq : T.recvSeq T.start = 0 := if_pos rfl
      simp [recvAccept, seq, seeks, carries.seq, positive, offT_of_lt T.start_lt]
  · have seq : T.recvSeq i = i := if_neg first
    have positive : ¬ (i = 0 ∧ i > 0) := by omega
    simp [recvAccept, seq, carries.seq, positive, first]

theorem recvSeq_lt {i : Nat} (sends : T.Sends i) : T.recvSeq i < T.count :=
  Nat.lt_of_le_of_lt (recvSeq_le i) sends.1

/-- A chunk message in flight that arrives intact is accepted. -/
theorem recvStep_intact {junk : Junk} {stamp sent : Stamp} {i : Nat} {c : Chunk} {sock : Sock}
    (reaches : T.Reaches i) (sends : T.Sends i) (carries : T.Carries i c)
    (arrived : sock.rx = chunkWire sent c) :
    ∃ sched, recvStep T.libs T.count (T.recvSys junk stamp (T.waiting old i sock).pc)
        (T.waiting old i sock) = some (T.accepting old i c ⟨[], sched, sock.fin⟩, []) := by
  have whole : sock.rx = chunkWire sent c ++ [] := by rw [arrived, List.append_nil]
  have small : c.data.length ≤ CHUNK_SIZE := by
    rw [carries.data]
    exact T.length_segment_le i
  obtain ⟨sched, received⟩ : ∃ sched, chunkRecv T.libs junk sock = _ :=
    chunkRecv_chunkWire carries.fits carries.length small whole
  rw [if_pos carries.checksum.symm] at received
  refine ⟨sched, ?_⟩
  have accepted := @recvAccept_carries T old (T.recvSys junk stamp (.top (T.recvSeq i))) i c sock
    ⟨[], sched, sock.fin⟩ reaches.1 carries rfl
  rw [← accepted]
  simp only [recvStep, recvSys, waiting, if_pos (recvSeq_lt sends), received]

/-- A chunk message whose data have been damaged is asked for again. -/
theorem recvStep_damaged {junk : Junk} {stamp sent : Stamp} {i : Nat} {c d : Chunk}
    {sock : Sock} (sends : T.Sends i) (carries : T.Carries i c)
    (damaged : Damaged T.libs c d) (arrived : sock.rx = chunkWire sent d) :
    ∃ sched, recvStep T.libs T.count (T.recvSys junk stamp (T.waiting old i sock).pc)
        (T.waiting old i sock) =
      some ({ T.waiting old i ⟨[], sched, sock.fin⟩ with pc := .again (T.recvSeq i) }, []) := by
  have whole : sock.rx = chunkWire sent d ++ [] := by rw [arrived, List.append_nil]
  have small : d.data.length ≤ CHUNK_SIZE := by
    rw [damaged.length, carries.data]
    exact T.length_segment_le i
  obtain ⟨sched, received⟩ : ∃ sched, chunkRecv T.libs junk sock = _ :=
    chunkRecv_chunkWire (by rw [damaged.hdr]; exact carries.fits)
      (by rw [damaged.hdr, damaged.length, carries.length]) small whole
  rw [damaged.hdr, if_neg damaged.detected] at received
  refine ⟨sched, ?_⟩
  simp [recvStep, recvSys, waiting, recvSeq_lt sends, received]

end Transfer

end MiniDropbox
