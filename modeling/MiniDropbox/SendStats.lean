/-
Where `file_send` says it has stopped.

`handle_download` keeps the `last_chunk_sent` of a failed transfer, and the chunk after it
is the one to go on with. The exits after a failed send or receive count one back from the
chunk they stand at, which is right at chunk 0 too, where the counter wraps. The exit after
a read that fails or finds nothing counts one forward, and a file that cannot be opened
gives 0, whatever the start chunk (`sendStats_resume_iff`).
-/

import MiniDropbox.Tiling

namespace MiniDropbox

/-! ### The loop -/

section Sending

variable {libs : Externals} {content : List Byte} {count : Nat}

/-- A chunk is due and there is nothing to read. -/
def Starves (content : List Byte) (count : Nat) (x : SendSys × SendState) : Prop :=
  ∃ seq start, x.2.pc = .top seq start ∧ seq < count ∧ (x.1.read = none ∨ content.length ≤ x.2.off)

/-- The step receives the acknowledgement of a chunk. -/
def acknowledges (x : SendSys × SendState) : Bool :=
  match x.2.pc, msgRecv x.2.sock 0 with
  | .await _ _ _, .ok msg _ => decide (msg.1.type = MessageType.chunkOk.toNat)
  | _, _ => false

/-- The statistics that the loop returns from chunk `i` when it fails there. -/
inductive ExitAt (i : Nat) : FileSendStats → Prop where
  | starved : ExitAt i ⟨sizeT (i + 1), -1⟩
  | unsent : ExitAt i ⟨sizeT (i + (2 ^ 64 - 1)), -5⟩
  | unanswered : ExitAt i ⟨sizeT (i + (2 ^ 64 - 1)), -6⟩

/-- The loop is at chunk `i`, or has returned from there. -/
def SendAt (count i : Nat) (s : SendState) : Prop :=
  match s.pc with
  | .top seq _ => seq = i ∧ i < 2 ^ 64
  | .send seq _ _ | .await seq _ _ => seq = i ∧ i < count
  | .ret stats => stats.errorCode < 0 → i < count ∧ ExitAt i stats

/-- The exits after a send or a receive are right: one back, and the session's one forward. -/
theorem ExitAt.resumes_iff {i : Nat} {stats : FileSendStats} (exit : ExitAt i stats) (small : i < 2 ^ 64) :
    sizeT (stats.lastChunkSent + 1) = i ↔ stats.errorCode ≠ -1 := by
  cases exit with
  | starved =>
      simp only [sizeT]
      omega
  | unsent =>
      simp only [sizeT]
      omega
  | unanswered =>
      simp only [sizeT]
      omega

theorem sendAt_start {startChunk : Nat} {sock : Sock} (small : startChunk < 2 ^ 64) :
    SendAt count startChunk (sendStart startChunk sock) := by
  unfold sendStart
  split_ifs with some
  · exact ⟨rfl, small⟩
  · exact ⟨(Nat.eq_zero_of_not_pos some).symm, small⟩

/-- The loop goes on to the next chunk when it is acknowledged, and only then. -/
theorem sendAt_step {sys : SendSys} {i : Nat} {s next : SendState} {out : List Byte} (small : count < 2 ^ 64)
    (stands : SendAt count i s) (moves : SendMoves libs content count sys s next out) :
    SendAt count (i + if acknowledges (sys, s) then 1 else 0) next := by
  cases moves with
  | done past => exact fun failed => absurd failed (Int.lt_irrefl 0)
  | starved more empty =>
      obtain ⟨rfl, -⟩ := stands
      exact fun _ => ⟨more, .starved⟩
  | filled more reads inside buffer => exact ⟨stands.1, stands.1 ▸ more⟩
  | unsent fails =>
      obtain ⟨rfl, more⟩ := stands
      exact fun _ => ⟨more, .unsent⟩
  | sent goes => exact stands
  | @unanswered seq start off chunk sock rest ret fails =>
      obtain ⟨rfl, more⟩ := stands
      have counted : acknowledges (sys, ⟨.await seq start chunk, off, sock⟩) = false := by
        rw [acknowledges, fails]
      rw [counted]
      exact fun _ => ⟨more, .unanswered⟩
  | @acked seq start off chunk sock rest msg received ok =>
      obtain ⟨rfl, more⟩ := stands
      have counted : acknowledges (sys, ⟨.await seq start chunk, off, sock⟩) = true := by
        rw [acknowledges, received]
        exact decide_eq_true ok
      have below : seq + 1 < 2 ^ 64 := Nat.lt_of_le_of_lt more small
      rw [counted, if_pos rfl]
      exact ⟨sizeT_of_lt below, below⟩
  | @again seq start off chunk sock rest msg received other =>
      have counted : acknowledges (sys, ⟨.await seq start chunk, off, sock⟩) = false := by
        rw [acknowledges, received]
        exact decide_eq_false other
      rw [counted]
      exact stands

/-- A read that fails or finds nothing is what the code `-1` of the loop means. -/
theorem sendStep_starves {sys : SendSys} {s : SendState} : Starves content count (sys, s) ↔
    ∃ next out, sendStep libs content count sys s = some (next, out) ∧ ∃ stats, next.pc = .ret stats ∧ stats.errorCode = -1 := by
  constructor
  · obtain ⟨pc, off, sock⟩ := s
    rintro ⟨seq, start, here, more, empty⟩
    obtain rfl : pc = .top seq start := here
    refine ⟨⟨.ret ⟨sizeT (seq + 1), -1⟩, off, sock⟩, [], ?_, _, rfl, rfl⟩
    cases reads : sys.read with
    | none => simp only [sendStep, if_pos more, reads]
    | some k =>
        have ended : content.length ≤ off := empty.resolve_left fun fails => by
          cases reads.symm.trans fails
        simp only [sendStep, if_pos more, reads, if_pos (buffer_nil.mpr ended)]
  · rintro ⟨next, out, moves, stats, returned, code⟩
    cases sendStep_moves moves with
    | done past =>
        obtain rfl := SendPc.ret.inj returned
        exact absurd code (show (0 : Int) ≠ -1 by decide)
    | starved more empty => exact ⟨_, _, rfl, more, empty⟩
    | filled more reads inside buffer => cases returned
    | unsent fails =>
        obtain rfl := SendPc.ret.inj returned
        exact absurd code (show (-5 : Int) ≠ -1 by decide)
    | sent goes => cases returned
    | unanswered fails =>
        obtain rfl := SendPc.ret.inj returned
        exact absurd code (show (-6 : Int) ≠ -1 by decide)
    | acked received ok => cases returned
    | again received other => cases returned

theorem sendLoop_starves {sys : Nat → SendSys} {fuel : Nat} {s : SendState} (running : ∀ stats, s.pc ≠ .ret stats) :
    (∃ stats, (sendLoop libs content count sys fuel s).1.pc = .ret stats ∧ stats.errorCode = -1) ↔
      ∃ x ∈ Counted.trace (sendStep libs content count) sys fuel s, Starves content count x := by
  have stuck : ∀ s : SendState, (∃ stats, s.pc = .ret stats ∧ stats.errorCode = -1) →
      ∀ i, sendStep libs content count i s = none := by
    rintro s ⟨stats, returned, -⟩ i
    rw [sendStep, returned]
  have unstarved : ¬ ∃ stats, s.pc = .ret stats ∧ stats.errorCode = -1 := by
    rintro ⟨stats, returned, -⟩
    exact running stats returned
  rw [sendLoop_final]
  exact Counted.final_iff stuck (fun sys s => sendStep_starves) unstarved

/-- The descriptor is at or before the place of the chunk that is due. -/
def Behind (s : SendState) : Prop :=
  match s.pc with
  | .top seq _ => s.off ≤ seq * CHUNK_SIZE
  | .send seq _ _ | .await seq _ _ => seq < 2 ^ 64 - 1 ∧ s.off ≤ (seq + 1) * CHUNK_SIZE
  | .ret _ => True

theorem behind_start {startChunk : Nat} {sock : Sock} : Behind (sendStart startChunk sock) := by
  unfold sendStart
  split_ifs with some
  · have place : (offT (startChunk * CHUNK_SIZE)).getD 0 ≤ startChunk * CHUNK_SIZE := by
      rw [offT]
      split_ifs
      · exact Nat.mod_le _ _
      · exact Nat.zero_le _
    exact place
  · exact Nat.zero_le _

/-- A read delivers one buffer at most. -/
theorem behind_step {sys : SendSys} {s next : SendState} {out : List Byte} (small : count < 2 ^ 64) (behind : Behind s)
    (moves : SendMoves libs content count sys s next out) : Behind next := by
  cases moves with
  | done past => trivial
  | starved more empty => trivial
  | @filled seq start off k sock buf more reads inside buffer =>
      have width : buf.length ≤ CHUNK_SIZE := by
        rw [buffer]
        exact Nat.le_trans (List.length_take_le _ _) (Nat.min_le_right _ _)
      refine ⟨by omega, ?_⟩
      rw [Nat.succ_mul]
      exact Nat.add_le_add behind width
  | unsent fails => trivial
  | sent goes => exact behind
  | unanswered fails => trivial
  | acked received ok =>
      obtain ⟨below, off⟩ := behind
      rw [Behind, sizeT_of_lt (by omega)]
      exact off
  | again received other => exact behind

/-- A file of which no read fails, and which has the chunks it is said to have, is never at
its end while a chunk is due, however little the reads deliver. -/
theorem not_starved {sys : Nat → SendSys} {fuel startChunk : Nat} {sock : Sock} (small : count < 2 ^ 64)
    (enough : count ≤ chunksOf content.length) (reads : ∀ k, (sys k).read ≠ none) :
    ∀ x ∈ Counted.trace (sendStep libs content count) sys fuel (sendStart startChunk sock), ¬ Starves content count x := by
  rintro x met ⟨seq, start, here, more, empty⟩
  have behind : Behind x.2 := Counted.trace_invariant
    (fun i s next out behind moves => behind_step small behind (sendStep_moves moves)) behind_start x met
  obtain ⟨k, given⟩ := Counted.trace_input met
  rw [Behind, here] at behind
  have inside : seq * CHUNK_SIZE < content.length := by
    have numbered := Nat.lt_of_lt_of_le more enough
    simp only [chunksOf, CHUNK_SIZE] at numbered ⊢
    omega
  rcases empty with fails | ended
  · exact reads k (given ▸ fails)
  · exact Nat.not_le_of_lt inside (Nat.le_trans ended behind)

/-- How many steps the loop can still take. -/
def sendRank (s : SendState) : Nat :=
  match s.pc with
  | .top _ _ => 4 * s.sock.rx.length + 3
  | .send _ _ _ => 4 * s.sock.rx.length + 2
  | .await _ _ _ => 4 * s.sock.rx.length + 1
  | .ret _ => 0

/-- A message takes its header off the stream. -/
theorem msgRecv_shorter {sock rest : Sock} {msg : MessageHdr × List Byte} (received : msgRecv sock 0 = .ok msg rest) :
    rest.rx.length < sock.rx.length := by
  by_cases short : sock.rx.length < sizeofMessageHdr
  · obtain ⟨sched, header⟩ := msgRecvHeader_of_lt short
    rw [msgRecv, header] at received
    cases fin : sock.fin <;> rw [fin] at received <;> cases received
  · have enough := Nat.le_of_not_lt short
    obtain ⟨sched, header⟩ := recvAll_of_le enough
    rw [msgRecv, msgRecvHeader, header] at received
    dsimp only at received
    rw [msgRecvPayload] at received
    split_ifs at received with large
    · cases received
      rw [List.length_drop]
      simp only [sizeofMessageHdr] at enough ⊢
      omega

theorem sendRank_lt {sys : SendSys} {s next : SendState} {out : List Byte}
    (moves : SendMoves libs content count sys s next out) : sendRank next < sendRank s := by
  cases moves with
  | done past => exact Nat.succ_pos _
  | starved more empty => exact Nat.succ_pos _
  | filled more reads inside buffer => exact Nat.lt_succ_self _
  | unsent fails => exact Nat.succ_pos _
  | sent goes => exact Nat.lt_succ_self _
  | unanswered fails => exact Nat.succ_pos _
  | acked received ok =>
      have shorter := msgRecv_shorter received
      simp only [sendRank]
      omega
  | again received other =>
      have shorter := msgRecv_shorter received
      simp only [sendRank]
      omega

/-- Only a sender that has returned, or waits for an answer, takes no step. -/
theorem sendStep_none {sys : SendSys} {s : SendState} (stuck : sendStep libs content count sys s = none) :
    (∃ stats, s.pc = .ret stats) ∨ (∃ seq start chunk, s.pc = .await seq start chunk) ∧ msgRecv s.sock 0 = .blocked := by
  obtain ⟨pc, off, sock⟩ := s
  cases pc with
  | top seq start =>
      rw [sendStep] at stuck
      dsimp only at stuck
      split_ifs at stuck
      cases reads : sys.read with
      | none =>
          rw [reads] at stuck
          cases stuck
      | some k =>
          rw [reads] at stuck
          dsimp only at stuck
          split_ifs at stuck
  | send seq start chunk =>
      rw [sendStep] at stuck
      dsimp only at stuck
      split_ifs at stuck
  | await seq start chunk =>
      refine .inr ⟨⟨seq, start, chunk, rfl⟩, ?_⟩
      rw [sendStep] at stuck
      dsimp only at stuck
      cases received : msgRecv sock 0 with
      | blocked => rfl
      | fail ret rest =>
          rw [received] at stuck
          cases stuck
      | ok msg rest =>
          rw [received] at stuck
          dsimp only at stuck
          split_ifs at stuck
  | ret stats => exact .inl ⟨stats, rfl⟩

/-- The loop returns, or waits for an answer for ever: the steps suffice for what has arrived. -/
theorem sendLoop_stops {sys : Nat → SendSys} {startChunk : Nat} {sock : Sock} :
    let s := (sendLoop libs content count sys sock.fuel (sendStart startChunk sock)).1
    (∃ stats, s.pc = .ret stats) ∨ (∃ seq start chunk, s.pc = .await seq start chunk) ∧ msgRecv s.sock 0 = .blocked := by
  have blind : ∀ sys s, sendStep libs content count sys s = none → ∀ other, sendStep libs content count other s = none := by
    intro sys s stuck other
    rcases sendStep_none stuck with ⟨stats, returned⟩ | ⟨⟨seq, start, chunk, waits⟩, blocked⟩
    · simp only [sendStep, returned]
    · simp only [sendStep, waits, blocked]
  have enough : sendRank (sendStart startChunk sock) ≤ sock.fuel := by
    unfold sendStart
    split_ifs <;> exact Nat.le_refl _
  dsimp only
  rw [sendLoop_final]
  exact sendStep_none (Counted.final_stuck blind (fun sys s next out moves => sendRank_lt (sendStep_moves moves))
    enough (sys 0))

end Sending

/-! ### `file_send` -/

namespace DownloadCall

section Calls

variable (libs : Externals) (env : Env) (call : DownloadCall)

/-- The steps of the loop of the call, if it comes to the loop. -/
def sendTrace : List (SendSys × SendState) :=
  match call.source libs env with
  | some (content, count, sys) =>
      Counted.trace (sendStep libs content count) sys call.sock.fuel (sendStart call.startChunk call.sock)
  | none => []

/-- How many chunks are acknowledged during the call. -/
def acknowledged : Nat := (call.sendTrace libs env).countP acknowledges

/-- The start chunk and the chunk count are of type `size_t`. -/
structure Sized : Prop where
  start : call.startChunk < 2 ^ 64
  count : ∀ file ∈ call.source libs env, file.2.1 < 2 ^ 64

/-- Where a chunk is due, `read` finds bytes; and the call that cannot look at its file or
open it is for chunk 1. -/
def Fed : Prop :=
  match call.source libs env with
  | some (content, count, _) => ∀ x ∈ call.sendTrace libs env, ¬ Starves content count x
  | none => call.startChunk = 1

variable {libs env call} {stats : FileSendStats} {content : List Byte}

/-- A file that is read without failure and has the chunks its size is given is enough. -/
theorem fed_of_found (found : perform env.faults .sendLstat call.filename (call.fs.lstat call.filename) = .ok (.file content))
    (opened : perform env.faults .sendOpen call.filename (call.fs.openRead call.filename) = .ok (.file content))
    (small : content.length ≤ 10 ^ 10) (reads : ∀ k, (env.send k).read ≠ none) : call.Fed libs env := by
  have above := (chunkCount_bounds small).2
  have bound : chunkCount content.length < 2 ^ 64 := by
    simp only [chunksOf, CHUNK_SIZE] at above
    omega
  unfold Fed sendTrace
  rw [source_of_found found opened]
  exact not_starved bound above reads

/-- A call that does not return waits for an answer. -/
theorem sent_isSome_or : (∃ stats, call.sent libs env = some stats) ∨ ∃ s : SendState,
    (∃ seq start chunk, s.pc = .await seq start chunk) ∧ msgRecv s.sock 0 = .blocked := by
  cases opened : call.source libs env with
  | none => exact .inl ⟨_, sent_of_closed opened⟩
  | some file =>
      obtain ⟨content, count, sys⟩ := file
      rcases @sendLoop_stops libs content count sys call.startChunk call.sock with ⟨stats, returned⟩ | waits
      · exact .inl ⟨stats, by rw [sent_of_open opened, returned]⟩
      · exact .inr ⟨_, waits⟩

/-- Where a failed transfer says it has stopped: the chunk after `last_chunk_sent` is the
first one not acknowledged if and only if the reads have found what they are due to find. -/
theorem sendStats_resume_iff (sized : call.Sized libs env) (returned : call.sent libs env = some stats)
    (failed : stats.errorCode < 0) :
    sizeT (stats.lastChunkSent + 1) = call.startChunk + call.acknowledged libs env ↔ call.Fed libs env := by
  unfold acknowledged Fed sendTrace
  cases opened : call.source libs env with
  | none =>
      obtain rfl : ⟨0, -1⟩ = stats := Option.some.inj ((sent_of_closed opened).symm.trans returned)
      exact eq_comm
  | some file =>
      obtain ⟨content, count, sys⟩ := file
      have small : count < 2 ^ 64 := sized.count _ opened
      have running : ∀ stats, (sendStart call.startChunk call.sock).pc ≠ .ret stats := by
        intro stats
        unfold sendStart
        split_ifs <;> exact fun same => by cases same
      obtain ⟨s, final⟩ : ∃ s, s = (sendLoop libs content count sys call.sock.fuel (sendStart call.startChunk call.sock)).1 :=
        ⟨_, rfl⟩
      have starves := @sendLoop_starves libs content count sys call.sock.fuel _ running
      have stands : SendAt count (call.startChunk + (Counted.trace (sendStep libs content count) sys call.sock.fuel
          (sendStart call.startChunk call.sock)).countP acknowledges)
          (Counted.final (sendStep libs content count) sys call.sock.fuel (sendStart call.startChunk call.sock)) :=
        Counted.final_counted (fun i sys s next out stands moves => sendAt_step small stands (sendStep_moves moves))
          (sendAt_start sized.start)
      rw [sent_of_open opened] at returned
      rw [← sendLoop_final, ← final] at stands
      rw [← final] at starves returned
      dsimp only
      cases pc : s.pc with
      | ret found =>
          rw [pc] at returned starves
          obtain rfl := Option.some.inj returned
          rw [SendAt, pc] at stands
          obtain ⟨below, exit⟩ := stands failed
          rw [exit.resumes_iff (Nat.lt_trans below small)]
          constructor
          · intro other x met empty
            obtain ⟨stats, same, code⟩ := starves.mpr ⟨x, met, empty⟩
            obtain rfl := SendPc.ret.inj same
            exact other code
          · intro fed code
            obtain ⟨x, met, empty⟩ := starves.mp ⟨found, rfl, code⟩
            exact fed x met empty
      | top seq start => rw [pc] at returned; cases returned
      | send seq start chunk => rw [pc] at returned; cases returned
      | await seq start chunk => rw [pc] at returned; cases returned

end Calls

end DownloadCall

/-- The peer is gone before the first chunk. -/
def unreachable : Env :=
  { (default : Env) with send := fun k => { (default : Env).send k with sent := .disconnected } }

/-- The first chunk is not sent: the counter wraps, and the chunk after it is chunk 0. -/
theorem sendStats_resume_hello : sizeT (2 ^ 64 - 1 + 1) =
    (serving (cstr "hello")).startChunk + (serving (cstr "hello")).acknowledged libraries unreachable := by
  have sized : (serving (cstr "hello")).Sized libraries unreachable := ⟨by decide, by decide⟩
  have returned : (serving (cstr "hello")).sent libraries unreachable = some ⟨2 ^ 64 - 1, -5⟩ := by decide
  have resolved : (holding (cstr "hello")).fs.resolve false filePath = .ok (userPlace libraries someToken ++ [cstr "f"]) := by
    decide
  exact (DownloadCall.sendStats_resume_iff sized returned (by decide)).mpr
    (DownloadCall.fed_of_found (holding_lstat resolved) (openRead_of_lstat (holding_lstat resolved)) (by decide)
      fun _ => Option.some_ne_none _)

/-- The disk fails. -/
def unreadable : Env :=
  { (default : Env) with send := fun k => { (default : Env).send k with read := none } }

/-- The first chunk cannot be read, and the transfer says that it is sent. -/
theorem not_resume_unread : (serving (cstr "hello")).sent libraries unreadable = some ⟨1, -1⟩ ∧
    sizeT (1 + 1) ≠ (serving (cstr "hello")).startChunk + (serving (cstr "hello")).acknowledged libraries unreadable := by
  decide

end MiniDropbox
