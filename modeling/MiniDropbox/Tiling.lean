/-
The chunks that `file_send` emits.

When every read delivers a full buffer and every chunk is acknowledged, the loop emits the
segments of the file from its start chunk on (`emitted_eq`), as many as `chunk_count` says
and the file has. They cover the file if the count is right, and `tiles_iff` says for which
sizes its float arithmetic makes it right.
-/

import MiniDropbox.Bookings
import MiniDropbox.Listing
import MiniDropbox.ResumedDownload

namespace MiniDropbox

section Sending

variable {libs : Externals} {content : List Byte} {count : Nat}

/-- The chunk that a step sends. -/
def sentChunk (x : SendSys × SendState) : Option Chunk :=
  match x.2.pc with
  | .send _ _ chunk => if x.1.sent = .ok then some chunk else none
  | _ => none

/-- The chunks that the loop of `file_send` sends. -/
def emitted (libs : Externals) (content : List Byte) (count : Nat) (sys : Nat → SendSys) (fuel : Nat)
    (s : SendState) : List Chunk :=
  (Counted.trace (sendStep libs content count) sys fuel s).filterMap sentChunk

/-- Every read delivers a full buffer, up to the end of the file, and every message is sent. -/
structure Smooth (sys : Nat → SendSys) : Prop where
  reads : ∀ j, ∃ k, CHUNK_SIZE - 1 ≤ k ∧ (sys j).read = some k
  sent : ∀ j, (sys j).sent = .ok

/-- Acknowledgements, one behind the other. -/
def acks (replies : List Stamp) : List Byte := replies.flatMap fun stamp => msgWire stamp .chunkOk [] []

/-- The bytes of a chunk in the file. -/
def segmentAt (content : List Byte) (i : Nat) : List Byte := (content.drop (i * CHUNK_SIZE)).take CHUNK_SIZE

/-- The chunk made of them. -/
def chunkAt (libs : Externals) (content : List Byte) (i : Nat) : Chunk :=
  sendChunk libs i (i * CHUNK_SIZE) (segmentAt content i)

/-- The number of chunks that the bytes make up. -/
def chunksOf (size : Nat) : Nat := (size + (CHUNK_SIZE - 1)) / CHUNK_SIZE

/-- The sender at the loop test, about to read chunk `i`. -/
def senderAt (content : List Byte) (i : Nat) (sock : Sock) : SendState :=
  ⟨.top i (min (i * CHUNK_SIZE) content.length), min (i * CHUNK_SIZE) content.length, sock⟩

/-- A step puts on the wire the chunk it sends. -/
theorem sendStep_wire {sys : SendSys} {s next : SendState} {out : List Byte}
    (moves : sendStep libs content count sys s = some (next, out)) :
    out = (sentChunk (sys, s)).elim [] (chunkWire sys.stamp) := by
  cases sendStep_moves moves with
  | done past => rfl
  | starved more empty => rfl
  | filled more reads inside buffer => rfl
  | unsent fails => simp only [sentChunk, if_neg fails, Option.elim_none]
  | sent goes => simp only [sentChunk, if_pos goes, Option.elim_some]
  | unanswered fails => rfl
  | acked received ok => rfl
  | again received other => rfl

/-- What the loop puts on the wire is the chunks it emits. -/
theorem sendLoop_wire {sys : Nat → SendSys} {fuel : Nat} {s : SendState} :
    (sendLoop libs content count sys fuel s).2 = (Counted.trace (sendStep libs content count) sys fuel s).flatMap
      fun x => (sentChunk x).elim [] (chunkWire x.1.stamp) := by
  induction fuel generalizing s with
  | zero => rfl
  | succ fuel ih =>
      rw [sendLoop, Counted.trace]
      cases moves : sendStep libs content count (sys fuel) s with
      | none => rfl
      | some move =>
          obtain ⟨next, out⟩ := move
          have here : out = (sentChunk (sys fuel, s)).elim [] (chunkWire (sys fuel).stamp) := sendStep_wire moves
          simp only [List.flatMap_cons, ih, ← here]

/-- An acknowledgement at the front is received. -/
theorem msgRecv_ack {stamp : Stamp} {rest : List Byte} {sched : List (Option Nat)} {fin : SockEnd} :
    ∃ hdr sched', msgRecv ⟨msgWire stamp .chunkOk [] [] ++ rest, sched, fin⟩ 0 = .ok (hdr, []) ⟨rest, sched', fin⟩ ∧
      hdr.type = MessageType.chunkOk.toNat :=
  @msgRecv_msgWire stamp .chunkOk [] rest ⟨_, sched, fin⟩ 0 rfl (Nat.zero_le _) (by decide)

theorem length_segmentAt (content : List Byte) (i : Nat) :
    (segmentAt content i).length = min CHUNK_SIZE (content.length - i * CHUNK_SIZE) := by
  simp only [segmentAt, List.length_take, List.length_drop]

/-- The next chunk begins where the bytes of this one end. -/
theorem sizeT_next {i : Nat} (small : content.length < 2 ^ 63) (inside : i * CHUNK_SIZE < content.length) :
    sizeT (i + 1) = i + 1 := by
  apply sizeT_of_lt
  simp only [CHUNK_SIZE] at inside
  omega

theorem offset_next {i : Nat} (inside : i * CHUNK_SIZE < content.length) :
    i * CHUNK_SIZE + (segmentAt content i).length = min ((i + 1) * CHUNK_SIZE) content.length := by
  rw [length_segmentAt, Nat.succ_mul]
  omega

/-- One chunk is read, sent and acknowledged in three steps. -/
theorem emitted_chunk {sys : Nat → SendSys} (smooth : Smooth sys) (small : content.length < 2 ^ 63) {i fuel : Nat}
    (below : i < count) (inside : i * CHUNK_SIZE < content.length) {stamp : Stamp} {rest : List Byte}
    {sched : List (Option Nat)} {fin : SockEnd} :
    ∃ sched', emitted libs content count sys (fuel + 3)
        (senderAt content i ⟨msgWire stamp .chunkOk [] [] ++ rest, sched, fin⟩) =
      chunkAt libs content i :: emitted libs content count sys fuel (senderAt content (i + 1) ⟨rest, sched', fin⟩) := by
  obtain ⟨hdr, sched', received, type⟩ := @msgRecv_ack stamp rest sched fin
  refine ⟨sched', ?_⟩
  obtain ⟨sock, arrived⟩ : ∃ sock : Sock, sock = ⟨msgWire stamp .chunkOk [] [] ++ rest, sched, fin⟩ := ⟨_, rfl⟩
  rw [← arrived] at received ⊢
  have here : min (i * CHUNK_SIZE) content.length = i * CHUNK_SIZE := Nat.min_eq_left (Nat.le_of_lt inside)
  have nonempty : segmentAt content i ≠ [] := by
    apply List.ne_nil_of_length_pos
    rw [length_segmentAt]
    simp only [CHUNK_SIZE] at inside ⊢
    omega
  have read : sendStep libs content count (sys (fuel + 2)) (senderAt content i sock) =
      some (⟨.send i (i * CHUNK_SIZE) (chunkAt libs content i), i * CHUNK_SIZE + (segmentAt content i).length, sock⟩, []) := by
    obtain ⟨k, full, reads⟩ := smooth.reads (fuel + 2)
    have width : min (k + 1) CHUNK_SIZE = CHUNK_SIZE := Nat.min_eq_right (Nat.le_add_of_sub_le full)
    have buffer : (content.drop (i * CHUNK_SIZE)).take (min (k + 1) CHUNK_SIZE) = segmentAt content i := by
      rw [width, segmentAt]
    simp only [sendStep, senderAt, here, if_pos below, reads, buffer, if_neg nonempty]
    rfl
  have sent : ∀ off, sendStep libs content count (sys (fuel + 1))
      ⟨.send i (i * CHUNK_SIZE) (chunkAt libs content i), off, sock⟩ =
        some (⟨.await i (i * CHUNK_SIZE) (chunkAt libs content i), off, sock⟩,
          chunkWire (sys (fuel + 1)).stamp (chunkAt libs content i)) := by
    intro off
    simp [sendStep, smooth.sent, SendRet.code]
  have acked : sendStep libs content count (sys fuel)
      ⟨.await i (i * CHUNK_SIZE) (chunkAt libs content i), i * CHUNK_SIZE + (segmentAt content i).length, sock⟩ =
        some (senderAt content (i + 1) ⟨rest, sched', fin⟩, []) := by
    have index := sizeT_next small inside
    have next := offset_next inside
    have bound : sizeT (i * CHUNK_SIZE + (chunkAt libs content i).hdr.length) =
        i * CHUNK_SIZE + (segmentAt content i).length := by
      apply sizeT_of_lt
      rw [show (chunkAt libs content i).hdr.length = (segmentAt content i).length from rfl, next]
      omega
    simp only [sendStep, received, type, if_true, index, bound, senderAt, next]
  have top : sentChunk (sys (fuel + 2), senderAt content i sock) = none := rfl
  have out : ∀ off, sentChunk (sys (fuel + 1), ⟨.send i (i * CHUNK_SIZE) (chunkAt libs content i), off, sock⟩) =
      some (chunkAt libs content i) := by
    intro off
    simp only [sentChunk, smooth.sent, if_true]
  have waits : ∀ off, sentChunk (sys fuel, ⟨.await i (i * CHUNK_SIZE) (chunkAt libs content i), off, sock⟩) = none :=
    fun off => rfl
  simp only [emitted, Counted.trace, read, sent, acked, List.filterMap_cons_none top,
    List.filterMap_cons_some (out _), List.filterMap_cons_none (waits _)]

/-- A sender that has come to the end of the file or of its count sends nothing more. -/
theorem emitted_nil {sys : Nat → SendSys} {i fuel : Nat} {sock : Sock}
    (done : count ≤ i ∨ content.length ≤ i * CHUNK_SIZE) :
    emitted libs content count sys fuel (senderAt content i sock) = [] := by
  cases fuel with
  | zero => rfl
  | succ fuel =>
      obtain ⟨off, here⟩ : ∃ off, off = min (i * CHUNK_SIZE) content.length := ⟨_, rfl⟩
      have returns : ∃ stats, sendStep libs content count (sys fuel) (senderAt content i sock) =
          some (⟨.ret stats, off, sock⟩, []) := by
        by_cases below : i < count
        · have past : content.length ≤ i * CHUNK_SIZE := done.resolve_left (Nat.not_le_of_lt below)
          have buffer : ∀ n, (content.drop off).take n = [] := by
            intro n
            simp only [here, Nat.min_eq_right past, List.drop_length, List.take_nil]
          cases reads : (sys fuel).read with
          | none => exact ⟨⟨sizeT (i + 1), -1⟩, by simp only [sendStep, senderAt, if_pos below, reads, here]⟩
          | some k =>
              exact ⟨⟨sizeT (i + 1), -1⟩, by
                simp only [sendStep, senderAt, if_pos below, reads, ← here, buffer, if_true]⟩
        · exact ⟨⟨i, 0⟩, by simp only [sendStep, senderAt, if_neg below, here]⟩
      obtain ⟨stats, step⟩ := returns
      have stuck : ∀ x, sendStep libs content count x ⟨.ret stats, off, sock⟩ = none := fun x => rfl
      have top : sentChunk (sys fuel, senderAt content i sock) = none := rfl
      simp only [emitted, Counted.trace, step, Counted.trace_of_stuck stuck, List.filterMap_cons_none top,
        List.filterMap_nil]

/-- The loop emits the chunks from its start on, one behind the other. -/
theorem emitted_eq {sys : Nat → SendSys} (smooth : Smooth sys) (small : content.length < 2 ^ 63) {i n fuel : Nat}
    {replies : List Stamp} {sched : List (Option Nat)} {fin : SockEnd} (last : i + n = min count (chunksOf content.length))
    (enough : n ≤ replies.length) (time : 3 * n ≤ fuel) :
    emitted libs content count sys fuel (senderAt content i ⟨acks replies, sched, fin⟩) =
      (List.range' i n).map (chunkAt libs content) := by
  induction n generalizing i fuel replies sched with
  | zero =>
      apply emitted_nil
      simp only [chunksOf, CHUNK_SIZE] at last ⊢
      omega
  | succ n ih =>
      obtain ⟨fuel, rfl⟩ : ∃ more, fuel = more + 3 := ⟨fuel - 3, by omega⟩
      obtain ⟨stamp, replies, rfl⟩ := List.exists_cons_of_ne_nil (List.ne_nil_of_length_pos (Nat.zero_lt_of_lt enough))
      have below : i < count := by omega
      have inside : i * CHUNK_SIZE < content.length := by
        simp only [chunksOf, CHUNK_SIZE] at last ⊢
        omega
      have first : acks (stamp :: replies) = msgWire stamp .chunkOk [] [] ++ acks replies := List.flatMap_cons
      obtain ⟨sched', chunk⟩ := @emitted_chunk libs content count sys smooth small i fuel below inside stamp
        (acks replies) sched fin
      rw [first, chunk, ih (by omega) (Nat.le_of_succ_le_succ enough) (by omega), List.range'_succ, List.map_cons]

end Sending

/-! ### Tilings -/

/-- The chunks tile the content from chunk `s` on: they are numbered on from `s`, each
begins at its number's place and where the one before it ends, and their bytes are those of
the content. -/
structure Tiles (content : List Byte) (s : Nat) (chunks : List Chunk) : Prop where
  seqs : chunks.map (fun c => c.hdr.seq) = List.range' s chunks.length
  startByte : ∀ c ∈ chunks, c.hdr.startByte = c.hdr.seq * CHUNK_SIZE
  endByte : ∀ c ∈ chunks, c.hdr.endByte + 1 = c.hdr.startByte + c.hdr.length
  length : ∀ c ∈ chunks, c.hdr.length = c.data.length
  adjacent : chunks.IsChain fun a b => b.hdr.startByte = a.hdr.startByte + a.hdr.length
  covers : chunks.flatMap (fun c => c.data) = content.drop (s * CHUNK_SIZE)

section Tilings

variable {libs : Externals} {content : List Byte}

theorem chunkAt_startByte (i : Nat) : (chunkAt libs content i).hdr.startByte = i * CHUNK_SIZE := rfl

theorem chunkAt_length (i : Nat) : (chunkAt libs content i).hdr.length = (segmentAt content i).length := rfl

/-- The segments from `s` on, joined, are a stretch of the content. -/
theorem flatMap_segmentAt (s n : Nat) :
    (List.range' s n).flatMap (segmentAt content) = (content.drop (s * CHUNK_SIZE)).take (n * CHUNK_SIZE) := by
  induction n generalizing s with
  | zero => simp
  | succ n ih =>
      rw [List.range'_succ, List.flatMap_cons, ih, segmentAt, Nat.succ_mul n, Nat.add_comm (n * CHUNK_SIZE),
        List.take_add, List.drop_drop, ← Nat.succ_mul]

/-- Chunks of the file that are numbered on tile it if and only if they reach its end. -/
theorem tiles_iff {s n : Nat} (small : content.length < 2 ^ 63) (start : s * CHUNK_SIZE ≤ content.length)
    (inside : ∀ i < s + n, i * CHUNK_SIZE < content.length) :
    Tiles content s ((List.range' s n).map (chunkAt libs content)) ↔ content.length ≤ (s + n) * CHUNK_SIZE := by
  have joined : ((List.range' s n).map (chunkAt libs content)).flatMap (fun c => c.data) =
      (content.drop (s * CHUNK_SIZE)).take (n * CHUNK_SIZE) := by
    rw [List.flatMap_map]
    exact flatMap_segmentAt s n
  constructor
  · intro tiles
    have lengths := congrArg List.length (joined.symm.trans tiles.covers)
    rw [List.length_take, List.length_drop] at lengths
    rw [Nat.add_mul]
    omega
  · intro reaches
    refine ⟨?_, ?_, ?_, ?_, ?_, ?_⟩
    · rw [List.map_map, List.length_map, List.length_range']
      exact List.map_id _
    · intro c sent
      obtain ⟨i, -, rfl⟩ := List.mem_map.mp sent
      rfl
    · intro c sent
      obtain ⟨i, among, rfl⟩ := List.mem_map.mp sent
      have here := inside i (List.mem_range'_1.mp among).2
      have length := length_segmentAt content i
      have last : (chunkAt libs content i).hdr.endByte = sizeT (i * CHUNK_SIZE + (segmentAt content i).length - 1) := rfl
      rw [last, chunkAt_startByte, chunkAt_length, length, sizeT_of_lt]
      · simp only [CHUNK_SIZE] at here ⊢
        omega
      · simp only [CHUNK_SIZE] at here ⊢
        omega
    · intro c sent
      obtain ⟨i, -, rfl⟩ := List.mem_map.mp sent
      rfl
    · rw [List.isChain_iff_getElem]
      intro i next
      rw [List.length_map, List.length_range'] at next
      simp only [List.getElem_map, List.getElem_range', chunkAt_startByte, chunkAt_length]
      have later := inside (s + 1 * (i + 1)) (by omega)
      rw [length_segmentAt]
      simp only [CHUNK_SIZE] at later ⊢
      omega
    · rw [joined, List.take_of_length_le]
      rw [List.length_drop]
      rw [Nat.add_mul] at reaches
      omega

end Tilings

/-! ### `file_send` -/

/-- The chunks that a call of `file_send` emits. -/
def DownloadCall.chunks (libs : Externals) (env : Env) (call : DownloadCall) : List Chunk :=
  match call.source libs env with
  | some (content, count, sys) => emitted libs content count sys call.sock.fuel (sendStart call.startChunk call.sock)
  | none => []

namespace DownloadCall

/-- The file is looked at and opened, it is read in full buffers, and every chunk that is
sent is acknowledged. -/
structure Undisturbed (env : Env) (call : DownloadCall) (content : List Byte) : Prop where
  found : perform env.faults .sendLstat call.filename (call.fs.lstat call.filename) = .ok (.file content)
  opened : perform env.faults .sendOpen call.filename (call.fs.openRead call.filename) = .ok (.file content)
  smooth : Smooth env.send
  acknowledged : ∃ replies, call.sock.rx = acks replies ∧ chunkCount content.length - call.startChunk ≤ replies.length

variable {libs : Externals} {env : Env} {call : DownloadCall} {content : List Byte}

/-- Whether or not the checksum can be taken, the count is that of the size. -/
theorem source_of_found (found : perform env.faults .sendLstat call.filename (call.fs.lstat call.filename) = .ok (.file content))
    (opened : perform env.faults .sendOpen call.filename (call.fs.openRead call.filename) = .ok (.file content)) :
    call.source libs env = some (content, chunkCount content.length, env.send) := by
  rw [source, fileinfoFromFilename, found]
  dsimp only
  cases fileChecksum env.faults libs .sendInfoOpen call.fs call.filename with
  | none => simp [opened]
  | some checksum => simp [opened]

theorem source_eq (undisturbed : call.Undisturbed env content) :
    call.source libs env = some (content, chunkCount content.length, env.send) :=
  source_of_found undisturbed.found undisturbed.opened

/-- The loop starts at the loop test of its start chunk. -/
theorem sendStart_eq {s : Nat} {sock : Sock} (small : content.length < 2 ^ 63) (start : s * CHUNK_SIZE ≤ content.length) :
    sendStart s sock = senderAt content s sock := by
  have within : s * CHUNK_SIZE < 2 ^ 63 := Nat.lt_of_le_of_lt start small
  have offset : min (s * CHUNK_SIZE) content.length = s * CHUNK_SIZE := Nat.min_eq_left start
  rw [sendStart, senderAt, offset, offT_of_lt within, sizeT_of_lt (Nat.lt_trans within (by decide))]
  split_ifs with some
  · rfl
  · obtain rfl : s = 0 := Nat.eq_zero_of_not_pos some
    rw [Nat.zero_mul]

/-- The count never exceeds the chunks that there are, and falls short by at most the last,
incomplete one. -/
theorem chunkCount_bounds {size : Nat} (small : size ≤ 10 ^ 10) :
    size / CHUNK_SIZE ≤ chunkCount size ∧ chunkCount size ≤ chunksOf size := by
  rw [chunkCount_eq small, chunksOf]
  simp only [CHUNK_SIZE]
  split_ifs
  · omega
  · omega

theorem length_acks (replies : List Stamp) : replies.length ≤ (acks replies).length := by
  induction replies with
  | nil => exact Nat.zero_le _
  | cons stamp replies ih =>
      have front : 0 < (msgWire stamp .chunkOk [] []).length := by
        rw [length_msgWire]
        decide
      rw [acks, List.flatMap_cons, List.length_append, List.length_cons, ← acks]
      omega

/-- The chunks emitted are those from the start chunk up to the count. -/
theorem chunks_eq (undisturbed : call.Undisturbed env content) (small : content.length ≤ 10 ^ 10)
    (start : call.startChunk * CHUNK_SIZE ≤ content.length) :
    call.chunks libs env =
      (List.range' call.startChunk (chunkCount content.length - call.startChunk)).map (chunkAt libs content) := by
  obtain ⟨replies, arrived, enough⟩ := undisturbed.acknowledged
  obtain ⟨below, above⟩ := chunkCount_bounds small
  have short : content.length < 2 ^ 63 := Nat.lt_of_le_of_lt small (by decide)
  have first : call.startChunk ≤ chunkCount content.length :=
    Nat.le_trans ((Nat.le_div_iff_mul_le (by decide)).mpr start) below
  have last : call.startChunk + (chunkCount content.length - call.startChunk) =
      min (chunkCount content.length) (chunksOf content.length) := by
    rw [Nat.min_eq_left above, Nat.add_sub_cancel' first]
  have time : 3 * (chunkCount content.length - call.startChunk) ≤ call.sock.fuel := by
    have messages := length_acks replies
    rw [Sock.fuel, arrived]
    omega
  obtain ⟨rx, sched, fin⟩ : Sock := call.sock
  rw [chunks, source_eq undisturbed]
  dsimp only
  rw [sendStart_eq short start]
  have socket : call.sock = ⟨acks replies, call.sock.sched, call.sock.fin⟩ := by rw [← arrived]
  rw [socket] at time ⊢
  exact emitted_eq undisturbed.smooth short last enough time

/-- Which of the sizes are cut short. -/
theorem chunkCount_exact_iff {size : Nat} (small : size ≤ 10 ^ 10) :
    chunkCount size = chunksOf size ↔ ¬ RoundsDown size := by
  rw [chunkCount_eq small, chunksOf]
  split_ifs with down
  · have rest := down.1
    simp only [down, not_true_eq_false, iff_false]
    simp only [CHUNK_SIZE] at rest ⊢
    omega
  · simp only [down, not_false_eq_true]

theorem tiles_chunks_iff (undisturbed : call.Undisturbed env content) (small : content.length ≤ 10 ^ 10)
    (start : call.startChunk * CHUNK_SIZE ≤ content.length) :
    Tiles content call.startChunk (call.chunks libs env) ↔ chunkCount content.length = chunksOf content.length := by
  obtain ⟨below, above⟩ := chunkCount_bounds small
  have short : content.length < 2 ^ 63 := Nat.lt_of_le_of_lt small (by decide)
  have first : call.startChunk ≤ chunkCount content.length :=
    Nat.le_trans ((Nat.le_div_iff_mul_le (by decide)).mpr start) below
  have inside : ∀ i < call.startChunk + (chunkCount content.length - call.startChunk), i * CHUNK_SIZE < content.length := by
    intro i within
    rw [Nat.add_sub_cancel' first] at within
    have numbered := Nat.lt_of_lt_of_le within above
    simp only [chunksOf, CHUNK_SIZE] at numbered ⊢
    omega
  rw [chunks_eq undisturbed small start, tiles_iff short start inside, Nat.add_sub_cancel' first]
  constructor
  · intro reaches
    apply Nat.le_antisymm above
    rw [chunksOf]
    simp only [CHUNK_SIZE] at reaches ⊢
    omega
  · intro exact
    rw [exact, chunksOf]
    simp only [CHUNK_SIZE]
    omega

/-- The chunks tile the file, and the count is the number of its chunks, unless the float
nearest to the size is the multiple of the chunk size below it. -/
theorem tiles_iff_exact (undisturbed : call.Undisturbed env content) (small : content.length ≤ 10 ^ 10)
    (start : call.startChunk * CHUNK_SIZE ≤ content.length) (info : FileInfo) :
    (Tiles content call.startChunk (call.chunks libs env) ↔ ¬ RoundsDown content.length) ∧
      ((fileinfoFromFilename env.faults libs .sendLstat .sendInfoOpen call.fs call.filename info).2.chunkCount =
        chunksOf content.length ↔ ¬ RoundsDown content.length) := by
  have counted : (fileinfoFromFilename env.faults libs .sendLstat .sendInfoOpen call.fs call.filename info).2.chunkCount =
      chunkCount content.length := by
    rw [fileinfoFromFilename, undisturbed.found]
    dsimp only
    cases fileChecksum env.faults libs .sendInfoOpen call.fs call.filename with
    | none => rfl
    | some checksum => rfl
  rw [tiles_chunks_iff undisturbed small start, counted]
  exact ⟨chunkCount_exact_iff small, chunkCount_exact_iff small⟩

end DownloadCall

/-- A call for a file of that user, with every chunk acknowledged. -/
def serving (bytes : List Byte) : DownloadCall :=
  ⟨(holding bytes).fs, filePath, 0, ⟨acks (List.replicate (chunkCount bytes.length) default), [], .opened⟩⟩

theorem serving_undisturbed {bytes : List Byte}
    (resolved : (holding bytes).fs.resolve false filePath = .ok (userPlace libraries someToken ++ [cstr "f"])) :
    (serving bytes).Undisturbed default bytes where
  found := holding_lstat resolved
  opened := openRead_of_lstat (holding_lstat resolved)
  smooth := ⟨fun _ => ⟨CHUNK_SIZE - 1, Nat.le_refl _, rfl⟩, fun _ => rfl⟩
  acknowledged := ⟨_, rfl, by rw [List.length_replicate]; exact Nat.sub_le _ _⟩

/-- A file of five bytes is tiled by its one chunk. -/
theorem tiles_iff_exact_hello :
    (Tiles (cstr "hello") 0 ((serving (cstr "hello")).chunks libraries default) ↔ ¬ RoundsDown (cstr "hello").length) ∧
      ((fileinfoFromFilename (default : Env).faults libraries .sendLstat .sendInfoOpen (holding (cstr "hello")).fs filePath
        FileInfo.zero).2.chunkCount = chunksOf (cstr "hello").length ↔ ¬ RoundsDown (cstr "hello").length) :=
  @DownloadCall.tiles_iff_exact libraries default (serving (cstr "hello")) (cstr "hello")
    (serving_undisturbed (by decide)) (by decide) (Nat.zero_le _) FileInfo.zero

/-- The last byte of a file of one byte more than `2 ^ 24` is not sent. -/
theorem not_tiles_serving {bytes : List Byte} (size : bytes.length = 2 ^ 24 + 1)
    (resolved : (holding bytes).fs.resolve false filePath = .ok (userPlace libraries someToken ++ [cstr "f"])) :
    ¬ Tiles bytes 0 ((serving bytes).chunks libraries default) := by
  intro tiles
  have small : bytes.length ≤ 10 ^ 10 := by
    rw [size]
    decide
  have start : (serving bytes).startChunk * CHUNK_SIZE ≤ bytes.length := by
    rw [serving, Nat.zero_mul]
    exact Nat.zero_le _
  have exact := (DownloadCall.tiles_chunks_iff (serving_undisturbed resolved) small start).mp tiles
  rw [size] at exact
  exact absurd exact (by decide)

theorem tiles_lacking :
    ¬ Tiles (List.replicate (2 ^ 24 + 1) 7) 0 ((serving (List.replicate (2 ^ 24 + 1) 7)).chunks libraries default) :=
  not_tiles_serving List.length_replicate (by decide)

end MiniDropbox
