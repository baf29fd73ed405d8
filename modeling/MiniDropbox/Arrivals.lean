/-
What `file_recv` makes of the chunks a peer sends.

The first chunk may move the start forward as far as it likes; after that the numbers have
to go up one by one, and nothing else of the headers is looked at. `took_iff` says which
chunks it takes, and where it writes them: each behind the one before, whatever start byte
it claims. `receivedSoundly_iff` says for which chunks this is what the peer asked for.
-/

import MiniDropbox.UploadOutcome

namespace MiniDropbox

/-! ### The peer -/

/-- A chunk as `file_send` makes one, except that its number and its start byte are arbitrary
and that it may be short. -/
structure Chunk.Valid (libs : Externals) (c : Chunk) : Prop where
  fits : c.hdr.Fits
  length : c.hdr.length = c.data.length
  positive : 0 < c.data.length
  small : c.data.length ≤ CHUNK_SIZE
  checksum : libs.checksum c.data = c.hdr.checksum

/-- Chunks on the wire, one behind the other. -/
def peerWire (peer : List (Stamp × Chunk)) : List Byte := peer.flatMap fun x => chunkWire x.1 x.2

theorem peerWire_cons (x : Stamp × Chunk) (peer : List (Stamp × Chunk)) :
    peerWire (x :: peer) = chunkWire x.1 x.2 ++ peerWire peer :=
  @List.flatMap_cons _ _ x peer fun x => chunkWire x.1 x.2

theorem chunkWire_pos {stamp : Stamp} {chunk : Chunk} : 0 < (chunkWire stamp chunk).length := by
  rw [chunkWire, length_msgWire, sizeofMessageHdr]
  omega

/-- A chunk, and what the system does while it is received, acknowledged and written. -/
structure Intake where
  chunk : Chunk
  lseekFails : Bool
  sent : SendRet
  lost : Nat

/-- The intake of each chunk, which takes three steps. -/
def intakes (sys : Nat → RecvSys) : Nat → List (Stamp × Chunk) → List Intake
  | _, [] => []
  | fuel, x :: peer =>
      ⟨x.2, (sys (fuel - 1)).lseekFails, (sys (fuel - 2)).sent, (sys (fuel - 3)).lost⟩ :: intakes sys (fuel - 3) peer

namespace Intake

variable (t : Intake)

def seq : Nat := t.chunk.hdr.seq

/-- How many bytes of the chunk are written. -/
def kept : Nat := t.chunk.data.length - t.lost

/-- The place the first chunk moves the start to. -/
def startPos : Nat := (offT (t.seq * CHUNK_SIZE)).getD 0

/-- The receiver can start at the chunk. -/
def Starts : Prop := 0 < t.seq → t.lseekFails = false ∧ offT (t.seq * CHUNK_SIZE) ≠ none

end Intake

/-- The next `m` chunks are numbered on from `s`, and are acknowledged. -/
def Continues : Nat → Nat → List Intake → Prop
  | _, 0, _ => True
  | _, _ + 1, [] => False
  | s, m + 1, t :: rest => t.seq = s ∧ t.sent = .ok ∧ Continues (s + 1) m rest

/-- The chunks lead to the count: the receiver can start at the first one, the others are
numbered on from it as far as the count goes, and all of them are acknowledged. -/
def Accepted (count : Nat) : List Intake → Prop
  | [] => False
  | t :: rest => t.Starts ∧ t.sent = .ok ∧ Continues (t.seq + 1) (count - (t.seq + 1)) rest

/-- The chunks from number `r` on claim the place where the bytes before them end, and are
written whole. -/
def InPlace (r : Nat) : Nat → List Intake → Prop
  | _, [] => True
  | pos, t :: rest => (r ≤ t.seq → t.chunk.hdr.startByte = pos ∧ t.lost = 0) ∧ InPlace r (pos + t.kept) rest

/-- The first chunk lies below the count and not beyond the resume point, and those that are
taken are in place. -/
def Agreed (count r : Nat) : List Intake → Prop
  | [] => True
  | t :: rest => t.seq ≤ r ∧ t.seq < count ∧ InPlace r t.startPos (t :: rest.take (count - (t.seq + 1)))

/-! ### The writes -/

/-- A call of `write`: the chunk, the offset, and the bytes that it stores. -/
structure Write where
  chunk : Chunk
  pos : Nat
  stored : List Byte

def writeOf (x : RecvSys × RecvState) : Option Write :=
  match x.2.pc with
  | .write _ chunk => some ⟨chunk, x.2.pos, chunk.data.take (chunk.data.length - x.1.lost)⟩
  | _ => none

theorem mem_intakes {sys : Nat → RecvSys} {fuel : Nat} {peer : List (Stamp × Chunk)} {t : Intake}
    (among : t ∈ intakes sys fuel peer) : ∃ x ∈ peer, t.chunk = x.2 := by
  induction peer generalizing fuel with
  | nil => cases among
  | cons x peer ih =>
      rcases List.mem_cons.mp among with rfl | later
      · exact ⟨x, List.mem_cons_self, rfl⟩
      · obtain ⟨y, sent, chunk⟩ := ih later
        exact ⟨y, List.mem_cons_of_mem _ sent, chunk⟩

/-- The writes of the chunks, one behind the other. -/
def laid : Nat → List Intake → List Write
  | _, [] => []
  | pos, t :: rest => ⟨t.chunk, pos, t.chunk.data.take t.kept⟩ :: laid (pos + t.kept) rest

/-- Every write begins within what is stored when it is made, first the bytes below `reach`. -/
def Gapless : Nat → List Write → Prop
  | _, [] => True
  | reach, w :: rest => w.pos ≤ reach ∧ Gapless (max reach (w.pos + w.stored.length)) rest

/-- What a receiver that resumes at chunk `r` has to have done when it returns 0 with the
number `n`: each chunk up to the count has come once and has been written at its start
byte, and no gap is left. -/
structure SoundlyStored (count r n : Nat) (ws : List Write) : Prop where
  last : n = count
  once : ∀ i, r ≤ i → i < count → (ws.map fun w => w.chunk.hdr.seq).count i = 1
  placed : ∀ w ∈ ws, r ≤ w.chunk.hdr.seq → w.pos = w.chunk.hdr.startByte ∧ w.stored = w.chunk.data
  gapless : Gapless (r * CHUNK_SIZE) ws

section Receiving

variable {libs : Externals} {count : Nat} {sys : Nat → RecvSys} {n : Nat} {ws : List Write} {fuel : Nat}

/-- The run from a state returns 0 with the number `n`, after those writes. -/
def Took (libs : Externals) (count : Nat) (sys : Nat → RecvSys) (n : Nat) (ws : List Write) (fuel : Nat)
    (s : RecvState) : Prop :=
  (Counted.final (recvStep libs count) sys fuel s).pc = .ret ⟨n, 0⟩ ∧
    (Counted.trace (recvStep libs count) sys fuel s).filterMap writeOf = ws

theorem took_ret {stats : FileRecvStats} {pos : Nat} {file : List Byte} {writes : List (Nat × List Byte)} {sock : Sock} :
    Took libs count sys n ws fuel ⟨.ret stats, pos, file, writes, sock⟩ ↔ stats = ⟨n, 0⟩ ∧ ws = [] := by
  have stuck : ∀ x, recvStep libs count x ⟨.ret stats, pos, file, writes, sock⟩ = none := fun x => rfl
  rw [Took, Counted.final_of_stuck stuck, Counted.trace_of_stuck stuck, RecvPc.ret.injEq, List.filterMap_nil,
    eq_comm (a := ws)]

/-- A step that writes nothing. -/
theorem took_step {s next : RecvState} {out : List Byte} (step : recvStep libs count (sys fuel) s = some (next, out))
    (quiet : writeOf (sys fuel, s) = none) :
    Took libs count sys n ws (fuel + 1) s ↔ Took libs count sys n ws fuel next := by
  simp only [Took, Counted.final, Counted.trace, step, List.filterMap_cons_none quiet]

/-- At the count the loop returns. -/
theorem took_end {s pos : Nat} {file : List Byte} {writes : List (Nat × List Byte)} {sock : Sock} (ends : count ≤ s) :
    Took libs count sys n ws (fuel + 1) ⟨.top s, pos, file, writes, sock⟩ ↔ n = s ∧ ws = [] := by
  have step : recvStep libs count (sys fuel) ⟨.top s, pos, file, writes, sock⟩ =
      some (⟨.ret ⟨s, 0⟩, pos, file, writes, sock⟩, []) := by
    simp only [recvStep, if_neg (Nat.not_lt_of_le ends)]
  rw [took_step step rfl, took_ret, FileRecvStats.mk.injEq, eq_comm (a := n)]
  simp only [and_true]

/-- Before the count it does not return without a chunk. -/
theorem not_took_empty {s pos : Nat} {file : List Byte} {writes : List (Nat × List Byte)} {sock : Sock} (more : s < count)
    (drained : sock.rx = []) : ¬ Took libs count sys n ws fuel ⟨.top s, pos, file, writes, sock⟩ := by
  cases fuel with
  | zero => exact fun took => nomatch took.1
  | succ fuel =>
      have short : sock.rx.length < sizeofMessageHdr := by
        rw [drained]
        decide
      obtain ⟨sched, header⟩ := msgRecvHeader_of_lt short
      intro took
      cases received : chunkRecv libs (sys fuel).junk sock with
      | blocked =>
          have step : recvStep libs count (sys fuel) ⟨.top s, pos, file, writes, sock⟩ = none := by
            simp only [recvStep, if_pos more, received]
          have final := took.1
          rw [Counted.final, step] at final
          cases final
      | fault =>
          rw [chunkRecv, header] at received
          cases fin : sock.fin <;> rw [fin] at received <;> cases received
      | ok nbytes chunk rest =>
          rw [chunkRecv, header] at received
          cases fin : sock.fin <;> rw [fin] at received <;> cases received
      | fail ret rest =>
          have code : ret = -1 ∨ ret = -2 := by
            rcases chunkRecv_fail received with again | ⟨-, hdr, rest', whole, -⟩ | ⟨code, -⟩
            · rw [chunkRecv, header] at received
              cases fin : sock.fin <;> rw [fin] at received <;> cases received <;> cases again
            · rw [header] at whole
              cases fin : sock.fin <;> rw [fin] at whole <;> cases whole
            · exact code
          have other : ret ≠ -3 := by
            rcases code with rfl | rfl <;> decide
          have step : recvStep libs count (sys fuel) ⟨.top s, pos, file, writes, sock⟩ =
              some (⟨.ret ⟨s, ret⟩, pos, file, writes, rest⟩, []) := by
            simp only [recvStep, if_pos more, received, if_neg other]
          obtain ⟨stats, -⟩ := took_ret.mp ((took_step step rfl).mp took)
          cases stats
          rcases code with zero | zero <;> cases zero

/-- A chunk that has been accepted is acknowledged and written. -/
theorem took_ok {f pos : Nat} {chunk : Chunk} {file : List Byte} {writes : List (Nat × List Byte)} {sock : Sock} :
    Took libs count sys n ws (fuel + 2) ⟨.ok f chunk, pos, file, writes, sock⟩ ↔
      (sys (fuel + 1)).sent = .ok ∧ ∃ later, ws = ⟨chunk, pos, chunk.data.take (chunk.data.length - (sys fuel).lost)⟩ :: later ∧
        Took libs count sys n later fuel
          ⟨.top (sizeT (f + 1)), pos + (chunk.data.length - (sys fuel).lost),
            Splice.splice 0 file pos (chunk.data.take (chunk.data.length - (sys fuel).lost)),
            writes ++ [(pos, chunk.data)], sock⟩ := by
  by_cases sent : (sys (fuel + 1)).sent = .ok
  · have acks : recvStep libs count (sys (fuel + 1)) ⟨.ok f chunk, pos, file, writes, sock⟩ =
        some (⟨.write f chunk, pos, file, writes, sock⟩, msgWire (sys (fuel + 1)).stamp .chunkOk [] []) := by
      simp [recvStep, sent, SendRet.code]
    have stores : recvStep libs count (sys fuel) ⟨.write f chunk, pos, file, writes, sock⟩ =
        some (⟨.top (sizeT (f + 1)), pos + (chunk.data.length - (sys fuel).lost),
          Splice.splice 0 file pos (chunk.data.take (chunk.data.length - (sys fuel).lost)),
          writes ++ [(pos, chunk.data)], sock⟩, []) := by
      simp only [recvStep, List.length_take_of_le (Nat.sub_le chunk.data.length (sys fuel).lost)]
    have write : writeOf (sys fuel, ⟨.write f chunk, pos, file, writes, sock⟩) =
        some ⟨chunk, pos, chunk.data.take (chunk.data.length - (sys fuel).lost)⟩ := rfl
    rw [took_step acks rfl, Took, Counted.final, Counted.trace, stores]
    simp only [List.filterMap_cons_some write, sent, true_and]
    constructor
    · rintro ⟨returned, rfl⟩
      exact ⟨_, rfl, returned, rfl⟩
    · rintro ⟨later, rfl, returned, rfl⟩
      exact ⟨returned, rfl⟩
  · have fails : recvStep libs count (sys (fuel + 1)) ⟨.ok f chunk, pos, file, writes, sock⟩ =
        some (⟨.ret ⟨f, (sys (fuel + 1)).sent.code⟩, pos, file, writes, sock⟩, []) := by
      cases ret : (sys (fuel + 1)).sent with
      | ok => exact absurd ret sent
      | error => simp [recvStep, ret, SendRet.code]
      | disconnected => simp [recvStep, ret, SendRet.code]
    rw [took_step fails rfl, took_ret, FileRecvStats.mk.injEq]
    simp only [sent, false_and, iff_false, not_and]
    rintro ⟨-, zero⟩
    cases ret : (sys (fuel + 1)).sent with
    | ok => exact absurd ret sent
    | error => rw [ret] at zero; cases zero
    | disconnected => rw [ret] at zero; cases zero

/-- A chunk at the front comes to the checks. -/
theorem took_top {s pos : Nat} {x : Stamp × Chunk} {file : List Byte} {writes : List (Nat × List Byte)}
    {peer : List (Stamp × Chunk)} {sched : List (Option Nat)} {fin : SockEnd} (more : s < count) (valid : x.2.Valid libs) :
    ∃ sched', Took libs count sys n ws (fuel + 1) ⟨.top s, pos, file, writes, ⟨peerWire (x :: peer), sched, fin⟩⟩ ↔
      Took libs count sys n ws fuel
        (recvAccept (sys fuel) ⟨.top s, pos, file, writes, ⟨peerWire (x :: peer), sched, fin⟩⟩ s x.2
          ⟨peerWire peer, sched', fin⟩) := by
  obtain ⟨sock, here⟩ : ∃ sock : Sock, sock = ⟨peerWire (x :: peer), sched, fin⟩ := ⟨_, rfl⟩
  have arrived : sock.rx = chunkWire x.1 x.2 ++ peerWire peer := by
    rw [here, ← peerWire_cons]
  have ends : sock.fin = fin := by rw [here]
  obtain ⟨sched', received⟩ := @chunkRecv_chunkWire libs (sys fuel).junk _ _ _ _ valid.fits valid.length valid.small arrived
  rw [if_pos valid.checksum, ends] at received
  have step : recvStep libs count (sys fuel) ⟨.top s, pos, file, writes, sock⟩ =
      some (recvAccept (sys fuel) ⟨.top s, pos, file, writes, sock⟩ s x.2 ⟨peerWire peer, sched', fin⟩, []) := by
    simp only [recvStep, if_pos more, received]
  rw [← here]
  exact ⟨sched', took_step step rfl⟩

/-- From the second chunk on, the chunks are taken that are numbered on up to the count. -/
theorem took_rest {peer : List (Stamp × Chunk)} (valid : ∀ x ∈ peer, x.2.Valid libs) (bounded : count < 2 ^ 64) {s pos : Nat}
    {file : List Byte} {writes : List (Nat × List Byte)} {sched : List (Option Nat)} {fin : SockEnd} (positive : 0 < s)
    (upTo : s ≤ count) (time : 3 * peer.length < fuel) :
    Took libs count sys n ws fuel ⟨.top s, pos, file, writes, ⟨peerWire peer, sched, fin⟩⟩ ↔
      n = count ∧ Continues s (count - s) (intakes sys fuel peer) ∧
        ws = laid pos ((intakes sys fuel peer).take (count - s)) := by
  induction peer generalizing s pos file writes sched fuel ws with
  | nil =>
      obtain ⟨fuel, rfl⟩ : ∃ k, fuel = k + 1 := ⟨fuel - 1, by omega⟩
      by_cases more : s < count
      · have left : count - s = count - s - 1 + 1 := by omega
        have impossible := @not_took_empty libs count sys n ws (fuel + 1) s pos file writes ⟨peerWire [], sched, fin⟩ more rfl
        rw [left]
        simp only [impossible, intakes, Continues, false_and, and_false]
      · obtain rfl : s = count := Nat.le_antisymm upTo (Nat.le_of_not_lt more)
        rw [took_end (Nat.le_refl s), Nat.sub_self]
        simp only [Continues, List.take_zero, laid, true_and]
  | cons x peer ih =>
      obtain ⟨fuel, rfl⟩ : ∃ k, fuel = k + 3 := ⟨fuel - 3, by rw [List.length_cons] at time; omega⟩
      by_cases more : s < count
      · obtain ⟨sched', accepts⟩ := @took_top libs count sys n ws (fuel + 2) s pos x file writes peer sched fin more
          (valid x List.mem_cons_self)
        have left : count - s = count - (s + 1) + 1 := by omega
        have next : sizeT (s + 1) = s + 1 := sizeT_of_lt (by omega)
        rw [accepts, recvAccept, if_neg (by omega), left]
        simp only [intakes, Continues, List.take_succ_cons, laid, Intake.seq, Intake.kept]
        by_cases expected : x.2.hdr.seq = s
        · have others : ∀ y ∈ peer, y.2.Valid libs := fun y among => valid y (List.mem_cons_of_mem _ among)
          have enough : 3 * peer.length < fuel := by
            rw [List.length_cons] at time
            omega
          have later : ∀ {ws pos file writes}, Took libs count sys n ws fuel
              ⟨.top (s + 1), pos, file, writes, ⟨peerWire peer, sched', fin⟩⟩ ↔
                n = count ∧ Continues (s + 1) (count - (s + 1)) (intakes sys fuel peer) ∧
                  ws = laid pos ((intakes sys fuel peer).take (count - (s + 1))) :=
            ih others (Nat.succ_pos s) more enough
          rw [if_neg (fun other => other expected.symm), took_ok, next]
          simp only [later, expected, true_and]
          constructor
          · rintro ⟨sent, _, rfl, rfl, onward, rfl⟩
            exact ⟨rfl, ⟨sent, onward⟩, rfl⟩
          · rintro ⟨rfl, ⟨sent, onward⟩, rfl⟩
            exact ⟨sent, _, rfl, rfl, onward, rfl⟩
        · rw [if_pos (fun same => expected same.symm), took_ret]
          simp [expected]
      · obtain rfl : s = count := Nat.le_antisymm upTo (Nat.le_of_not_lt more)
        rw [took_end (Nat.le_refl s), Nat.sub_self]
        simp only [Continues, List.take_zero, laid, true_and]

/-- A start beyond the highest offset is refused. -/
theorem succ_lt_of_starts {t : Intake} (fits : t.seq < 2 ^ 64) (starts : t.Starts) : t.seq + 1 < 2 ^ 64 := by
  by_contra exceeds
  have highest : t.seq = 2 ^ 64 - 1 := by omega
  have place := (starts (by rw [highest]; decide)).2
  rw [highest] at place
  exact place (by decide)

/-- The first chunk is accepted if the receiver can start there. -/
theorem recvAccept_first {sys : RecvSys} {t : Intake} {file : List Byte} {before sock : Sock}
    (seek : t.lseekFails = sys.lseekFails) :
    (t.Starts → recvAccept sys ⟨.top 0, 0, file, [], before⟩ 0 t.chunk sock =
      ⟨.ok t.seq t.chunk, t.startPos, file, [], sock⟩) ∧
    (¬ t.Starts → recvAccept sys ⟨.top 0, 0, file, [], before⟩ 0 t.chunk sock =
      ⟨.ret ⟨t.seq, -3⟩, 0, file, [], sock⟩) := by
  by_cases moves : 0 < t.chunk.hdr.seq
  · rw [recvAccept, if_pos ⟨rfl, moves⟩, ← seek]
    constructor
    · intro starts
      obtain ⟨works, place⟩ := starts moves
      obtain ⟨pos, here⟩ := Option.ne_none_iff_exists'.mp place
      rw [Intake.seq] at here
      simp [here, Intake.seq, Intake.startPos, works]
    · intro stays
      by_cases works : t.lseekFails = true
      · simp [works, Intake.seq]
      · have nowhere : offT (t.chunk.hdr.seq * CHUNK_SIZE) = none := by
          by_contra place
          exact stays fun _ => ⟨Bool.eq_false_of_not_eq_true works, place⟩
        simp [works, nowhere, Intake.seq]
  · have zero : t.chunk.hdr.seq = 0 := Nat.eq_zero_of_not_pos moves
    constructor
    · intro starts
      have start : (offT 0).getD 0 = 0 := by decide
      simp [recvAccept, zero, Intake.seq, Intake.startPos, start]
    · intro stays
      exact absurd (fun positive => absurd positive moves) stays

/-- Once a chunk is accepted, it is written, and those that are numbered on from it are. -/
theorem took_accepted {peer : List (Stamp × Chunk)} (valid : ∀ x ∈ peer, x.2.Valid libs) (bounded : count < 2 ^ 64)
    {f pos : Nat} {chunk : Chunk} {file : List Byte} {writes : List (Nat × List Byte)} {sched : List (Option Nat)}
    {fin : SockEnd} (small : f + 1 < 2 ^ 64) (time : 3 * peer.length < fuel) :
    Took libs count sys n ws (fuel + 2) ⟨.ok f chunk, pos, file, writes, ⟨peerWire peer, sched, fin⟩⟩ ↔
      (sys (fuel + 1)).sent = .ok ∧ Continues (f + 1) (count - (f + 1)) (intakes sys fuel peer) ∧ n = max count (f + 1) ∧
        ws = ⟨chunk, pos, chunk.data.take (chunk.data.length - (sys fuel).lost)⟩ ::
          laid (pos + (chunk.data.length - (sys fuel).lost)) ((intakes sys fuel peer).take (count - (f + 1))) := by
  rw [took_ok, sizeT_of_lt small]
  by_cases within : f + 1 ≤ count
  · simp only [took_rest valid bounded (Nat.succ_pos f) within time, Nat.max_eq_left within]
    constructor
    · rintro ⟨sent, _, rfl, rfl, onward, rfl⟩
      exact ⟨sent, onward, rfl, rfl⟩
    · rintro ⟨sent, onward, rfl, rfl⟩
      exact ⟨sent, _, rfl, rfl, onward, rfl⟩
  · have beyond : count ≤ f + 1 := Nat.le_of_not_le within
    obtain ⟨fuel, rfl⟩ : ∃ k, fuel = k + 1 := ⟨fuel - 1, by omega⟩
    simp only [took_end beyond, Nat.max_eq_right beyond, Nat.sub_eq_zero_of_le beyond, Continues, List.take_zero, laid,
      true_and]
    constructor
    · rintro ⟨sent, _, rfl, rfl, rfl⟩
      exact ⟨sent, rfl, rfl⟩
    · rintro ⟨sent, rfl, rfl⟩
      exact ⟨sent, _, rfl, rfl, rfl⟩

/-- Which chunks `file_recv` takes, and where it writes them. -/
theorem took_iff {peer : List (Stamp × Chunk)} (valid : ∀ x ∈ peer, x.2.Valid libs) (some : 0 < count)
    (bounded : count < 2 ^ 64) {file : List Byte} {sched : List (Option Nat)} {fin : SockEnd}
    (time : 3 * peer.length < fuel) :
    Took libs count sys n ws fuel (recvStart file ⟨peerWire peer, sched, fin⟩) ↔
      ∃ t rest, intakes sys fuel peer = t :: rest ∧ Accepted count (t :: rest) ∧ n = max count (t.seq + 1) ∧
        ws = laid t.startPos (t :: rest.take (count - (t.seq + 1))) := by
  cases peer with
  | nil =>
      have impossible := @not_took_empty libs count sys n ws fuel 0 0 file [] ⟨peerWire [], sched, fin⟩ some rfl
      simp only [recvStart, impossible, intakes, List.nil_eq, reduceCtorEq, false_and, exists_false]
  | cons x peer =>
      obtain ⟨fuel, rfl⟩ : ∃ k, fuel = k + 3 := ⟨fuel - 3, by rw [List.length_cons] at time; omega⟩
      obtain ⟨sched', accepts⟩ := @took_top libs count sys n ws (fuel + 2) 0 0 x file [] peer sched fin some
        (valid x List.mem_cons_self)
      have others : ∀ y ∈ peer, y.2.Valid libs := fun y among => valid y (List.mem_cons_of_mem _ among)
      have enough : 3 * peer.length < fuel := by
        rw [List.length_cons] at time
        omega
      obtain ⟨t, turn⟩ : ∃ t : Intake, t = ⟨x.2, (sys (fuel + 2)).lseekFails, (sys (fuel + 1)).sent, (sys fuel).lost⟩ := ⟨_, rfl⟩
      have first : intakes sys (fuel + 3) (x :: peer) = t :: intakes sys fuel peer := by
        rw [turn]
        rfl
      rw [recvStart, accepts, first]
      have goes := @recvAccept_first (sys (fuel + 2)) t file ⟨peerWire (x :: peer), sched, fin⟩ ⟨peerWire peer, sched', fin⟩
        (by rw [turn])
      have chunk : t.chunk = x.2 := by rw [turn]
      have fits : t.seq < 2 ^ 64 := by
        rw [Intake.seq, chunk]
        exact (valid x List.mem_cons_self).fits.seq
      rw [chunk] at goes
      by_cases starts : t.Starts
      · have sent : (sys (fuel + 1)).sent = t.sent := by rw [turn]
        have kept : x.2.data.length - (sys fuel).lost = t.kept := by rw [turn]; rfl
        rw [goes.1 starts, took_accepted others bounded (succ_lt_of_starts fits starts) enough, sent, kept, ← chunk]
        constructor
        · rintro ⟨acked, onward, last, written⟩
          exact ⟨t, _, rfl, ⟨starts, acked, onward⟩, last, written⟩
        · rintro ⟨_, _, same, ⟨-, acked, onward⟩, last, written⟩
          cases same
          exact ⟨acked, onward, last, written⟩
      · rw [goes.2 starts, took_ret]
        constructor
        · rintro ⟨failed, -⟩
          cases failed
        · rintro ⟨_, _, same, ⟨going, -⟩, -⟩
          cases same
          exact absurd going starts

/-! ### Which of the chunks taken are as they should be -/

/-- Writes that follow one another from within what is stored leave no gap. -/
theorem gapless_laid {ts : List Intake} {pos reach : Nat} (within : pos ≤ reach) : Gapless reach (laid pos ts) := by
  induction ts generalizing pos reach with
  | nil => trivial
  | cons t rest ih =>
      refine ⟨within, ih ?_⟩
      have stored : (t.chunk.data.take t.kept).length = t.kept := List.length_take_of_le (Nat.sub_le _ _)
      dsimp only
      rw [stored]
      exact Nat.le_max_right _ _

theorem seqs_laid (ts : List Intake) (pos : Nat) :
    (laid pos ts).map (fun w => w.chunk.hdr.seq) = ts.map Intake.seq := by
  induction ts generalizing pos with
  | nil => rfl
  | cons t rest ih => rw [laid, List.map_cons, List.map_cons, ih, Intake.seq]

theorem seqs_of_continues {ts : List Intake} {s m : Nat} (onward : Continues s m ts) :
    (ts.take m).map Intake.seq = List.range' s m := by
  induction m generalizing s ts with
  | zero => rw [List.take_zero, List.map_nil, List.range'_zero]
  | succ m ih =>
      cases ts with
      | nil => exact absurd onward id
      | cons t rest =>
          obtain ⟨here, -, later⟩ := onward
          rw [List.take_succ_cons, List.map_cons, List.range'_succ, here, ih later]

/-- The bytes of a chunk are written whole if none is lost. -/
theorem take_kept_eq_iff {t : Intake} (positive : 0 < t.chunk.data.length) :
    t.chunk.data.take t.kept = t.chunk.data ↔ t.lost = 0 := by
  constructor
  · intro whole
    have lengths := congrArg List.length whole
    rw [List.length_take, Intake.kept] at lengths
    omega
  · intro nothing
    rw [Intake.kept, nothing, Nat.sub_zero, List.take_length]

/-- Being in place is a matter of the writes. -/
theorem placed_laid_iff {r : Nat} {ts : List Intake} (positive : ∀ t ∈ ts, 0 < t.chunk.data.length) {pos : Nat} :
    (∀ w ∈ laid pos ts, r ≤ w.chunk.hdr.seq → w.pos = w.chunk.hdr.startByte ∧ w.stored = w.chunk.data) ↔
      InPlace r pos ts := by
  induction ts generalizing pos with
  | nil => simp only [laid, List.not_mem_nil, InPlace, false_imp_iff, implies_true]
  | cons t rest ih =>
      have whole := take_kept_eq_iff (positive t List.mem_cons_self)
      rw [laid, InPlace, List.forall_mem_cons, ih fun u among => positive u (List.mem_cons_of_mem _ among)]
      simp only [whole, Intake.seq, eq_comm (a := pos)]

/-- The chunks taken are stored soundly exactly when they agree with the resume point. -/
theorem soundlyStored_iff {r : Nat} {t : Intake} {rest : List Intake} (positive : ∀ u ∈ t :: rest, 0 < u.chunk.data.length)
    (accepted : Accepted count (t :: rest)) :
    SoundlyStored count r (max count (t.seq + 1)) (laid t.startPos (t :: rest.take (count - (t.seq + 1)))) ↔
      Agreed count r (t :: rest) := by
  have seqs : (laid t.startPos (t :: rest.take (count - (t.seq + 1)))).map (fun w => w.chunk.hdr.seq) =
      List.range' t.seq (count - (t.seq + 1) + 1) := by
    rw [seqs_laid, List.map_cons, seqs_of_continues accepted.2.2, List.range'_succ]
  have placed := @placed_laid_iff r (t :: rest.take (count - (t.seq + 1)))
    (fun u among => positive u (by
      rcases List.mem_cons.mp among with rfl | later
      · exact List.mem_cons_self
      · exact List.mem_cons_of_mem _ (List.mem_of_mem_take later))) t.startPos
  constructor
  · intro sound
    have below : t.seq < count := by
      have last := sound.last
      omega
    refine ⟨?_, below, placed.mp sound.placed⟩
    by_contra beyond
    have missing := sound.once r (Nat.le_refl r) (by omega)
    rw [seqs, List.count_eq_zero_of_not_mem] at missing
    · cases missing
    · intro among
      exact beyond (List.mem_range'_1.mp among).1
  · rintro ⟨resumes, below, inPlace⟩
    refine ⟨by omega, ?_, placed.mpr inPlace, gapless_laid ?_⟩
    · intro i from_ upTo
      rw [seqs]
      exact List.count_eq_one_of_mem List.nodup_range' (List.mem_range'_1.mpr (by omega))
    · have start : t.startPos ≤ t.seq * CHUNK_SIZE := by
        rw [Intake.startPos, offT]
        split_ifs
        · exact Nat.mod_le _ _
        · exact Nat.zero_le _
      exact Nat.le_trans start (Nat.mul_le_mul_right _ resumes)

end Receiving

/-! ### `file_recv` -/

namespace UploadCall

/-- The writes of the call. -/
def writes (libs : Externals) (env : Env) (call : UploadCall) : List Write :=
  ((call.steps libs env).getD []).filterMap writeOf

/-- Whenever the call returns 0, the chunks from `r` on are stored soundly. -/
def ReceivedSoundly (libs : Externals) (env : Env) (call : UploadCall) (r : Nat) : Prop :=
  ∀ stats ∈ call.received libs env, stats.errorCode = 0 →
    SoundlyStored call.info.chunkCount r stats.lastChunkRecvd (call.writes libs env)

/-- If the file can be opened and the chunks of the peer lead to the count, they agree with
the resume point. -/
def Agrees (env : Env) (call : UploadCall) (peer : List (Stamp × Chunk)) (r : Nat) : Prop :=
  (∃ target, perform env.faults .recvOpen call.info.filename (call.fs.openCreate call.info.filename) = .ok target) →
    0 < call.info.chunkCount → Accepted call.info.chunkCount (intakes env.recv call.sock.fuel peer) →
      Agreed call.info.chunkCount r (intakes env.recv call.sock.fuel peer)

variable {libs : Externals} {env : Env} {call : UploadCall}

/-- The steps of a call whose file is opened are those of its loop. -/
theorem receivedSoundly_of_open {fs : Fs} {place : Place} {bytes : List Byte} {r : Nat}
    (opened : perform env.faults .recvOpen call.info.filename (call.fs.openCreate call.info.filename) =
      .ok (fs, place, bytes)) :
    call.ReceivedSoundly libs env r ↔ ∀ n ws, Took libs call.info.chunkCount env.recv n ws call.sock.fuel
      (recvStart bytes call.sock) → SoundlyStored call.info.chunkCount r n ws := by
  have received : call.received libs env =
      match (recvLoop libs call.info.chunkCount env.recv call.sock.fuel (recvStart bytes call.sock)).1.pc with
      | .ret stats => some stats
      | _ => none := by
    rw [UploadCall.received, fileRecv, opened]
    dsimp only
    cases (recvLoop libs call.info.chunkCount env.recv call.sock.fuel (recvStart bytes call.sock)).1.pc <;> rfl
  have written : call.writes libs env =
      (Counted.trace (recvStep libs call.info.chunkCount) env.recv call.sock.fuel (recvStart bytes call.sock)).filterMap
        writeOf := by
    rw [writes, UploadCall.steps, opened]
    dsimp only
    rw [Option.getD_some, recvTrace_eq]
  rw [recvLoop_final] at received
  rw [ReceivedSoundly, received, written]
  constructor
  · rintro sound n ws ⟨returned, rfl⟩
    exact sound ⟨n, 0⟩ (by rw [returned]; rfl) rfl
  · intro sound stats given zero
    obtain ⟨n, code⟩ := stats
    obtain rfl : code = 0 := zero
    refine sound n _ ⟨?_, rfl⟩
    cases ended : (Counted.final (recvStep libs call.info.chunkCount) env.recv call.sock.fuel
        (recvStart bytes call.sock)).pc with
    | ret stats =>
        rw [ended] at given
        cases given
        rfl
    | top seq => rw [ended] at given; cases given
    | again seq => rw [ended] at given; cases given
    | ok seq chunk => rw [ended] at given; cases given
    | write seq chunk => rw [ended] at given; cases given
    | fault => rw [ended] at given; cases given

/-- The fuel of a socket suffices for the chunks it holds. -/
theorem fuel_enough {peer : List (Stamp × Chunk)} {sock : Sock} (arrived : sock.rx = peerWire peer) :
    3 * peer.length < sock.fuel := by
  have front : peer.length ≤ (peerWire peer).length := by
    clear arrived
    induction peer with
    | nil => exact Nat.zero_le _
    | cons x peer ih =>
        have message := @chunkWire_pos x.1 x.2
        rw [peerWire_cons, List.length_append, List.length_cons]
        omega
  rw [Sock.fuel, arrived]
  omega

/-- Against which peers the success of `file_recv` can be relied on: for every file and every
file information, every resume point, and every sequence of valid chunks. -/
theorem receivedSoundly_iff (call : UploadCall) {peer : List (Stamp × Chunk)} (valid : ∀ x ∈ peer, x.2.Valid libs)
    (arrived : call.sock.rx = peerWire peer) (bounded : call.info.chunkCount < 2 ^ 64) (r : Nat) :
    call.ReceivedSoundly libs env r ↔ call.Agrees env peer r := by
  have time := fuel_enough arrived
  cases opens : perform env.faults .recvOpen call.info.filename (call.fs.openCreate call.info.filename) with
  | error errno =>
      have closed : call.steps libs env = none := by rw [UploadCall.steps, opens]
      simp [ReceivedSoundly, Agrees, opens, received_of_closed closed]
  | ok target =>
      obtain ⟨fs, place, bytes⟩ := target
      obtain ⟨sched, fin, socket⟩ : ∃ sched fin, call.sock = ⟨peerWire peer, sched, fin⟩ :=
        ⟨call.sock.sched, call.sock.fin, by rw [← arrived]⟩
      rw [receivedSoundly_of_open opens, Agrees]
      simp only [opens, Except.ok.injEq, exists_eq', true_imp_iff]
      generalize call.sock.fuel = fuel at time ⊢
      rw [socket]
      by_cases some : 0 < call.info.chunkCount
      · simp only [some, true_imp_iff]
        have positive : ∀ t ∈ intakes env.recv fuel peer, 0 < t.chunk.data.length := by
          intro t among
          obtain ⟨x, sent, chunk⟩ := mem_intakes among
          rw [chunk]
          exact (valid x sent).positive
        constructor
        · intro sound accepted
          cases list : intakes env.recv fuel peer with
          | nil => trivial
          | cons t rest =>
              rw [list] at accepted positive
              exact (soundlyStored_iff positive accepted).mp (sound _ _
                ((took_iff valid some bounded time).mpr ⟨t, rest, list, accepted, rfl, rfl⟩))
        · intro agrees n ws took
          obtain ⟨t, rest, list, accepted, rfl, rfl⟩ := (took_iff valid some bounded time).mp took
          rw [list] at agrees positive
          exact (soundlyStored_iff positive accepted).mpr (agrees accepted)
      · obtain ⟨fuel, rfl⟩ : ∃ k, fuel = k + 1 := ⟨fuel - 1, by omega⟩
        have none : call.info.chunkCount ≤ 0 := Nat.le_of_not_lt some
        simp only [some, false_imp_iff, iff_true]
        intro n ws took
        obtain ⟨rfl, rfl⟩ := (took_end none).mp took
        exact ⟨(Nat.le_zero.mp none).symm, fun i _ below => absurd (Nat.lt_of_lt_of_le below none) (Nat.not_lt_zero i),
          nofun, trivial⟩

end UploadCall

/-- A call for a file of that many chunks, with what the peer sends. -/
def receiving (count : Nat) (peer : List (Stamp × Chunk)) : UploadCall :=
  ⟨⟨[], []⟩, ⟨0, count, ⟨List.replicate 32 0, length_zeroed⟩, cstr "/f"⟩, ⟨peerWire peer, [], .opened⟩⟩

theorem valid_hello {seq start : Nat} (small : seq < 2 ^ 64) (low : start < 2 ^ 64) :
    (sendChunk libraries seq start (cstr "hello")).Valid libraries := by
  have five : (cstr "hello").length = 5 := by decide
  refine ⟨⟨small, low, Nat.mod_lt _ (Nat.two_pow_pos 64), ?_⟩, rfl, ?_, ?_, rfl⟩
  · simp only [sendChunk, chunkInit, five]
    decide
  · simp only [sendChunk, chunkInit, five]
    decide
  · simp only [sendChunk, chunkInit, five]
    decide

/-- The second and the third of three chunks. -/
def lastChunks : List (Stamp × Chunk) :=
  [(default, sendChunk libraries 1 CHUNK_SIZE (cstr "hello")), (default, sendChunk libraries 2 (CHUNK_SIZE + 5) (cstr "hello"))]

/-- A transfer that is resumed at the second chunk, and takes two. -/
theorem receivedSoundly_two :
    (receiving 3 lastChunks).received libraries default = some ⟨3, 0⟩ ∧
      (receiving 3 lastChunks).ReceivedSoundly libraries default 1 := by
  have valid : ∀ x ∈ lastChunks, x.2.Valid libraries := by
    simp only [lastChunks, List.forall_mem_cons]
    exact ⟨valid_hello (by decide) (by decide), valid_hello (by decide) (by decide), List.forall_mem_nil _⟩
  refine ⟨by decide +kernel,
    (UploadCall.receivedSoundly_iff (receiving 3 lastChunks) valid rfl (by decide) 1).mpr fun _ _ _ => ?_⟩
  exact ⟨Nat.le_refl 1, (by decide : 1 < 3), fun _ => ⟨by decide, rfl⟩, fun _ => ⟨by decide, rfl⟩, trivial⟩

/-- A peer that begins with the second of two chunks is told that all is well. -/
theorem receivedSoundly_skipped :
    ¬ (receiving 2 [(default, sendChunk libraries 1 0 (cstr "hello"))]).ReceivedSoundly libraries default 0 := by
  intro sound
  have valid : ∀ x ∈ [((default : Stamp), sendChunk libraries 1 0 (cstr "hello"))], x.2.Valid libraries :=
    List.forall_mem_singleton.mpr (valid_hello (by decide) (by decide))
  rw [UploadCall.receivedSoundly_of_open rfl] at sound
  have stored := sound 2 _ ((took_iff valid (by decide) (by decide) (UploadCall.fuel_enough rfl)).mpr
    ⟨_, [], rfl, ⟨fun _ => ⟨rfl, by decide⟩, rfl, trivial⟩, rfl, rfl⟩)
  have missing := stored.once 0 (Nat.le_refl 0) (by decide)
  revert missing
  decide

end MiniDropbox
