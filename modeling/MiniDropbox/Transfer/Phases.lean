/-
The runs of a transfer.

The transfer of one chunk goes through the `Phase`s below, whatever the order in
which the two sides move; the receiver's pending write is the only step that the
other side does not wait for, and `Rests` keeps track of it.

* `phases_step` — every step keeps the transfer in one of its phases and brings
  it nearer to the end.
* `transfer_endsIn` — every run is finite and ends in an `Outcome`: the chunks
  the sender could read have been written once each, in order, and both sides
  have returned, or the receiver waits for a chunk that will not come.
* `done_of_reachable` — whenever the receiver has returned 0, the file is the old
  one with those chunks written into it.
-/

import MiniDropbox.Lib.Transition
import MiniDropbox.Transfer

namespace MiniDropbox

open Transition

namespace Transfer

variable {T : Transfer} {old : List Byte}

/-! ### Phases -/

/-- What is in flight in each direction, on connections that are open. -/
structure Wires (l : Link) (toSnd toRcv : List Byte) : Prop where
  toSnd : l.snd.sock.rx = toSnd
  toRcv : l.rcv.sock.rx = toRcv
  sndOpen : l.snd.sock.fin = .opened
  rcvOpen : l.rcv.sock.fin = .opened

/-- The phases of the transfer of chunk `i`, each with the number of steps it takes
at most until the next chunk, if no further chunk is damaged. -/
inductive Phase (T : Transfer) (old : List Byte) (i : Nat) : Nat → Link → Prop where
  | turn {l : Link} {r : Nat} : T.SenderAt i l.snd → T.Rests old i r l.rcv → Wires l [] [] →
      Phase T old i (10 + r) l
  | sending {l : Link} {r : Nat} : T.Sends i → T.Holds i l.snd (.send i) → T.Rests old i r l.rcv →
      Wires l [] [] → Phase T old i (9 + r) l
  | flying {l : Link} {r : Nat} {stamp : Stamp} {c : Chunk} : T.Sends i →
      T.Holds i l.snd (.await i) → T.Rests old i r l.rcv → T.Carries i c →
        Wires l [] (chunkWire stamp c) → Phase T old i (7 + r) l
  | spoiled {l : Link} {r : Nat} {stamp : Stamp} {c d : Chunk} : T.Sends i →
      T.Holds i l.snd (.await i) → T.Rests old i r l.rcv → T.Carries i c → Damaged T.libs c d →
        Wires l [] (chunkWire stamp d) → Phase T old i (12 + r) l
  | again {l : Link} {sock : Sock} : T.Sends i → T.Holds i l.snd (.await i) →
      l.rcv = { T.waiting old i sock with pc := .again (T.recvSeq i) } → Wires l [] [] →
        Phase T old i 12 l
  | asked {l : Link} {r : Nat} {stamp : Stamp} : T.Sends i → T.Holds i l.snd (.await i) →
      T.Rests old i r l.rcv → Wires l (msgWire stamp .chunkAgain [] []) [] →
        Phase T old i (10 + r) l
  | accepted {l : Link} {c : Chunk} {sock : Sock} : T.Sends i → T.Holds i l.snd (.await i) →
      T.Carries i c → l.rcv = T.accepting old i c sock → Wires l [] [] → Phase T old i 7 l
  | acked {l : Link} {r : Nat} {stamp : Stamp} : T.Sends i → T.Holds i l.snd (.await i) →
      T.Rests old (i + 1) r l.rcv → Wires l (msgWire stamp .chunkOk [] []) [] →
        Phase T old i (4 + r) l
  | halted {l : Link} {r : Nat} : ¬ T.Sends i → l.snd.pc = .ret (T.sendStats i) →
      T.Rests old i r l.rcv → Wires l [] [] → Phase T old i (2 + r) l
  | closed {l : Link} {r : Nat} {stamp : Stamp} : T.hangup = true → ¬ T.Sends i →
      l.snd.pc = .ret (T.sendStats i) → T.Rests old i r l.rcv →
        l.rcv.sock.rx = goodbye stamp (T.sendStats i) → l.rcv.sock.fin = .closed → Phase T old i r l
  | cut {l : Link} : T.hangup = true → ¬ T.Sends i → l.snd.pc = .ret (T.sendStats i) →
      T.recvSeq i < T.count →
        l.rcv.pc = .ret ⟨T.recvSeq i, if T.count ≤ i then -2 else -4⟩ →
          l.rcv.file = T.fileAt old i → l.rcv.writes = T.writes i → l.rcv.sock.fin = .closed →
            Phase T old i 0 l

/-- The transfer has come to chunk `i`, with at most `n` steps still to go. -/
def Ranked (T : Transfer) (old : List Byte) (n : Nat) (l : Link) : Prop :=
  ∃ i k, T.Reaches i ∧ T.Phase old i k l ∧
    n = 20 * l.budget + 20 * (max T.start T.count - i) + k

theorem ranked_of_phase {i k n budget : Nat} {snd : SendState} {rcv : RecvState}
    (reaches : T.Reaches i) (phase : T.Phase old i k ⟨snd, rcv, budget⟩)
    (lower : 20 * budget + 20 * (max T.start T.count - i) + k < n) :
    ∃ m < n, T.Ranked old m ⟨snd, rcv, budget⟩ :=
  ⟨_, lower, i, k, reaches, phase, rfl⟩

theorem Rests.sock {i r : Nat} {s : RecvState} (rests : T.Rests old i r s) (sock : Sock) :
    T.Rests old i r { s with sock := sock } := by
  cases rests with
  | waiting eq => exact .waiting (by rw [eq]; rfl)
  | writing next from_start sends carries eq =>
      exact .writing next from_start sends carries (by rw [eq]; rfl)
  | done finished returned file writes => exact .done finished returned file writes

theorem Rests.deliver {i r : Nat} {s : RecvState} (rests : T.Rests old i r s) (bytes : List Byte) :
    T.Rests old i r (s.deliver bytes) := rests.sock _

/-- The wires after a step of the sender. -/
theorem Wires.sent {l : Link} {toSnd toRcv : List Byte} (wires : Wires l toSnd toRcv)
    (snd : SendState) {left : List Byte} (rest : snd.sock.rx = left) (opened : snd.sock.fin = .opened)
    (out : List Byte) (budget : Nat) :
    Wires ⟨snd, l.rcv.deliver out, budget⟩ left (toRcv ++ out) where
  toSnd := rest
  toRcv := by rw [← wires.toRcv]; rfl
  sndOpen := opened
  rcvOpen := wires.rcvOpen

/-- The wires after a step of the receiver. -/
theorem Wires.received {l : Link} {toSnd toRcv : List Byte} (wires : Wires l toSnd toRcv)
    (rcv : RecvState) {left : List Byte} (rest : rcv.sock.rx = left)
    (opened : rcv.sock.fin = .opened) (out : List Byte) :
    Wires ⟨l.snd.deliver out, rcv, l.budget⟩ (toSnd ++ out) left where
  toSnd := by rw [← wires.toSnd]; rfl
  toRcv := rest
  sndOpen := wires.sndOpen
  rcvOpen := opened

/-- The sender's moves: from the loop test to the next chunk or to the end, from a
chunk in hand to waiting, from the answer back to that chunk or on to the next. -/
theorem phases_send {i k : Nat} {l : Link} {stamp : Stamp} {snd : SendState} {out : List Byte}
    (reaches : T.Reaches i) (phase : T.Phase old i k l)
    (move : sendStep T.libs T.content T.count (T.sendSys stamp l.snd.pc) l.snd = some (snd, out)) :
    ∃ n < 20 * l.budget + 20 * (max T.start T.count - i) + k,
      T.Ranked old n ⟨snd, l.rcv.deliver out, l.budget⟩ := by
  cases phase with
  | turn at_i rests wires =>
      by_cases sends : T.Sends i
      · obtain ⟨s', step, sock, holds⟩ := sendStep_top at_i sends
        rw [step, Option.some.injEq, Prod.mk.injEq] at move
        obtain ⟨rfl, rfl⟩ := move
        exact ranked_of_phase reaches (.sending sends holds (rests.deliver [])
          (wires.sent s' (by rw [sock, wires.toSnd]) (by rw [sock, wires.sndOpen]) [] _)) (by omega)
      · rw [sendStep_stop at_i reaches.lt sends, Option.some.injEq, Prod.mk.injEq] at move
        obtain ⟨rfl, rfl⟩ := move
        have wires' := wires.sent { l.snd with pc := .ret (T.sendStats i) } wires.toSnd wires.sndOpen
          [] l.budget
        exact ranked_of_phase reaches (.halted sends rfl (rests.deliver []) wires') (by omega)
  | sending sends holds rests wires =>
      obtain ⟨s', c, step, carries, sock, holds'⟩ := sendStep_send holds
      rw [step, Option.some.injEq, Prod.mk.injEq] at move
      obtain ⟨rfl, rfl⟩ := move
      exact ranked_of_phase reaches (.flying sends holds' (rests.deliver _) carries
        (wires.sent s' (by rw [sock, wires.toSnd]) (by rw [sock, wires.sndOpen]) _ _)) (by omega)
  | flying _ holds _ _ wires =>
      rw [sendStep_blocked holds wires.toSnd wires.sndOpen] at move
      cases move
  | spoiled _ holds _ _ _ wires =>
      rw [sendStep_blocked holds wires.toSnd wires.sndOpen] at move
      cases move
  | again _ holds _ wires =>
      rw [sendStep_blocked holds wires.toSnd wires.sndOpen] at move
      cases move
  | asked sends holds rests wires =>
      obtain ⟨s', step, drained, opened, holds'⟩ := sendStep_again holds wires.toSnd
      rw [step, Option.some.injEq, Prod.mk.injEq] at move
      obtain ⟨rfl, rfl⟩ := move
      exact ranked_of_phase reaches (.sending sends holds' (rests.deliver [])
        (wires.sent s' drained (by rw [opened, wires.sndOpen]) [] _)) (by omega)
  | accepted _ holds _ _ wires =>
      rw [sendStep_blocked holds wires.toSnd wires.sndOpen] at move
      cases move
  | acked sends holds rests wires =>
      obtain ⟨s', step, drained, opened, at_next⟩ := sendStep_acked sends holds wires.toSnd
      rw [step, Option.some.injEq, Prod.mk.injEq] at move
      obtain ⟨rfl, rfl⟩ := move
      have last := sends.1
      exact ranked_of_phase (reaches.succ sends) (.turn at_next (rests.deliver [])
        (wires.sent s' drained (by rw [opened, wires.sndOpen]) [] _)) (by omega)
  | halted _ pc _ _ =>
      simp [sendStep, pc] at move
  | closed _ _ pc _ _ _ =>
      simp [sendStep, pc] at move
  | cut _ _ pc _ _ _ _ _ =>
      simp [sendStep, pc] at move

/-- What a receiver that still waits makes of the end of the connection: a goodbye
is too short for a chunk, and silence is a disconnection. -/
theorem recvStep_closed {junk : Junk} {stamp bye : Stamp} {i : Nat} {sock : Sock}
    (more : T.recvSeq i < T.count) (arrived : sock.rx = goodbye bye (T.sendStats i))
    (closed : sock.fin = .closed) :
    ∃ sock', recvStep T.libs T.count (T.recvSys junk stamp (T.waiting old i sock).pc)
        (T.waiting old i sock) = some ({ T.waiting old i sock' with
          pc := .ret ⟨T.recvSeq i, if T.count ≤ i then -2 else -4⟩ }, []) ∧ sock'.fin = .closed := by
  by_cases finished : T.count ≤ i
  · have silent : sock.rx = [] := by rw [arrived, sendStats, if_pos finished]; rfl
    obtain ⟨sched, received⟩ : ∃ sched, chunkRecv T.libs junk sock = _ :=
      chunkRecv_of_closed silent closed
    exact ⟨⟨[], sched, .closed⟩, by simp [recvStep, recvSys, waiting, more, received, finished], rfl⟩
  · have error : sock.rx = msgWire bye .error []
        (cstr "transfer interrupted, try again to resume download\n" ++ [0]) := by
      rw [arrived, sendStats, if_neg finished]
      rfl
    obtain ⟨sched, received⟩ : ∃ sched, chunkRecv T.libs junk sock = _ :=
      chunkRecv_of_short (by decide) error
    exact ⟨⟨cstr "transfer interrupted, try again to resume download\n" ++ [0], sched, sock.fin⟩,
      by simp [recvStep, recvSys, waiting, more, received, finished], closed⟩

theorem SenderAt.deliver {i : Nat} {s : SendState} (at_i : T.SenderAt i s) (bytes : List Byte) :
    T.SenderAt i (s.deliver bytes) := ⟨at_i.pc, at_i.off⟩

theorem Holds.deliver {i : Nat} {s : SendState} {pc : Nat → Chunk → SendPc} (holds : T.Holds i s pc)
    (bytes : List Byte) : T.Holds i (s.deliver bytes) pc := ⟨holds.pc, holds.off⟩

/-- The receiver's moves: the pending write and the return at rest, taking up a
chunk message, and the replies. -/
theorem phases_recv {i k budget : Nat} {snd : SendState} {rcv rcv' : RecvState} {junk : Junk}
    {stamp : Stamp} {out : List Byte} (reaches : T.Reaches i)
    (phase : T.Phase old i k ⟨snd, rcv, budget⟩)
    (move : recvStep T.libs T.count (T.recvSys junk stamp rcv.pc) rcv = some (rcv', out)) :
    ∃ n < 20 * budget + 20 * (max T.start T.count - i) + k,
      T.Ranked old n ⟨snd.deliver out, rcv', budget⟩ := by
  cases phase with
  | turn at_i rests wires =>
      obtain ⟨rfl, sock, r', lower, rests'⟩ := recvStep_rests rests wires.toRcv wires.rcvOpen move
      exact ranked_of_phase reaches (.turn (at_i.deliver []) rests'
        (wires.received rcv' (by rw [sock, wires.toRcv]) (by rw [sock, wires.rcvOpen]) [])) (by omega)
  | sending sends holds rests wires =>
      obtain ⟨rfl, sock, r', lower, rests'⟩ := recvStep_rests rests wires.toRcv wires.rcvOpen move
      exact ranked_of_phase reaches (.sending sends (holds.deliver []) rests'
        (wires.received rcv' (by rw [sock, wires.toRcv]) (by rw [sock, wires.rcvOpen]) [])) (by omega)
  | flying sends holds rests carries wires =>
      cases rests with
      | @waiting _ sock eq =>
          subst eq
          have arrived : sock.rx = chunkWire _ _ := wires.toRcv
          obtain ⟨sched, step⟩ := recvStep_intact reaches sends carries arrived
          cases step.symm.trans move
          exact ranked_of_phase reaches (.accepted sends (holds.deliver []) carries rfl
            (wires.received (T.accepting old i _ ⟨[], sched, sock.fin⟩) rfl wires.rcvOpen [])) (by omega)
      | writing next from_start sends' carries' eq =>
          subst next eq
          cases (recvStep_write from_start sends' carries').symm.trans move
          exact ranked_of_phase reaches (.flying sends (holds.deliver []) (.waiting rfl) carries
            (wires.received (T.waiting old _ _) wires.toRcv wires.rcvOpen [])) (by omega)
      | done finished _ _ _ =>
          have := recvSeq_lt sends
          omega
  | spoiled sends holds rests carries damaged wires =>
      cases rests with
      | @waiting _ sock eq =>
          subst eq
          have arrived : sock.rx = chunkWire _ _ := wires.toRcv
          obtain ⟨sched, step⟩ := recvStep_damaged sends carries damaged arrived
          cases step.symm.trans move
          exact ranked_of_phase reaches (.again sends (holds.deliver []) rfl
            (wires.received { T.waiting old i ⟨[], sched, sock.fin⟩ with pc := .again _ } rfl wires.rcvOpen [])) (by omega)
      | writing next from_start sends' carries' eq =>
          subst next eq
          cases (recvStep_write from_start sends' carries').symm.trans move
          exact ranked_of_phase reaches (.spoiled sends (holds.deliver []) (.waiting rfl) carries
            damaged (wires.received (T.waiting old _ _) wires.toRcv wires.rcvOpen [])) (by omega)
      | done finished _ _ _ =>
          have := recvSeq_lt sends
          omega
  | @again _ sock sends holds eq wires =>
      simp only at eq
      subst eq
      have step : recvStep T.libs T.count (T.recvSys junk stamp (.again (T.recvSeq i)))
          { T.waiting old i sock with pc := .again (T.recvSeq i) } =
            some (T.waiting old i sock, msgWire stamp .chunkAgain [] []) := rfl
      cases step.symm.trans move
      exact ranked_of_phase reaches (.asked sends (holds.deliver _) (.waiting rfl)
        (wires.received (T.waiting old i sock) wires.toRcv wires.rcvOpen _)) (by omega)
  | asked sends holds rests wires =>
      obtain ⟨rfl, sock, r', lower, rests'⟩ := recvStep_rests rests wires.toRcv wires.rcvOpen move
      have wires' := wires.received rcv' (by rw [sock, wires.toRcv]) (by rw [sock, wires.rcvOpen]) []
      rw [List.append_nil] at wires'
      exact ranked_of_phase reaches (.asked sends (holds.deliver []) rests' wires') (by omega)
  | @accepted _ c sock sends holds carries eq wires =>
      simp only at eq
      subst eq
      have step : recvStep T.libs T.count (T.recvSys junk stamp (.ok i c)) (T.accepting old i c sock) =
          some ({ T.accepting old i c sock with pc := .write i c }, msgWire stamp .chunkOk [] []) := rfl
      cases step.symm.trans move
      exact ranked_of_phase reaches (.acked sends (holds.deliver _)
        (.writing rfl reaches.1 sends carries rfl)
        (wires.received { T.accepting old i c sock with pc := .write i c } wires.toRcv wires.rcvOpen _))
        (by omega)
  | acked sends holds rests wires =>
      obtain ⟨rfl, sock, r', lower, rests'⟩ := recvStep_rests rests wires.toRcv wires.rcvOpen move
      have wires' := wires.received rcv' (by rw [sock, wires.toRcv]) (by rw [sock, wires.rcvOpen]) []
      rw [List.append_nil] at wires'
      exact ranked_of_phase reaches (.acked sends (holds.deliver []) rests' wires') (by omega)
  | halted stops pc rests wires =>
      obtain ⟨rfl, sock, r', lower, rests'⟩ := recvStep_rests rests wires.toRcv wires.rcvOpen move
      exact ranked_of_phase reaches (.halted stops pc rests'
        (wires.received rcv' (by rw [sock, wires.toRcv]) (by rw [sock, wires.rcvOpen]) [])) (by omega)
  | closed hangs stops pc rests arrived fin =>
      cases rests with
      | @waiting _ sock eq =>
          subst eq
          by_cases more : T.recvSeq i < T.count
          · have arrived' : sock.rx = goodbye _ _ := arrived
            obtain ⟨sock', step, closed⟩ := recvStep_closed more arrived' fin
            cases step.symm.trans move
            exact ranked_of_phase reaches (.cut hangs stops pc more rfl rfl rfl closed) (by omega)
          · simp only [recvStep, waiting, more, if_false, Option.some.injEq, Prod.mk.injEq] at move
            obtain ⟨rfl, rfl⟩ := move
            exact ranked_of_phase reaches (.closed hangs stops pc (.done (by omega) rfl rfl rfl) arrived
              fin) (by omega)
      | writing next from_start sends carries eq =>
          subst next eq
          cases (recvStep_write from_start sends carries).symm.trans move
          exact ranked_of_phase reaches (.closed hangs stops pc (.waiting rfl) arrived fin) (by omega)
      | done _ returned _ _ =>
          simp only at returned
          simp [recvStep, returned] at move
  | cut _ _ _ _ returned _ _ _ =>
      simp only at returned
      simp [recvStep, returned] at move

/-- Damage replaces the chunk being sent, at the expense of the budget. -/
theorem phases_damage {i k budget seq start : Nat} {snd snd' : SendState} {rcv : RecvState}
    {c d : Chunk} {stamp : Stamp} {out : List Byte} (reaches : T.Reaches i)
    (phase : T.Phase old i k ⟨snd, rcv, budget + 1⟩) (in_hand : snd.pc = .send seq start c)
    (move : sendStep T.libs T.content T.count (T.sendSys stamp snd.pc) snd = some (snd', out))
    (damaged : Damaged T.libs c d) :
    ∃ n < 20 * (budget + 1) + 20 * (max T.start T.count - i) + k,
      T.Ranked old n ⟨snd', rcv.deliver (chunkWire stamp d), budget⟩ := by
  cases phase with
  | turn at_i _ _ =>
      obtain ⟨_, _, pc⟩ := at_i.pc
      cases pc.symm.trans in_hand
  | sending sends holds rests wires =>
      obtain ⟨_, _, c', carries, pc⟩ := holds.pc
      cases pc.symm.trans in_hand
      obtain ⟨s', _, step, -, sock, holds'⟩ := sendStep_send holds
      cases step.symm.trans move
      exact ranked_of_phase reaches (.spoiled sends holds' (rests.deliver _) carries damaged
        (wires.sent snd' (by rw [sock, wires.toSnd]) (by rw [sock, wires.sndOpen]) _ _)) (by omega)
  | flying _ holds _ _ _ | spoiled _ holds _ _ _ _ | again _ holds _ _ | asked _ holds _ _
  | accepted _ holds _ _ _ | acked _ holds _ _ =>
      obtain ⟨_, _, _, _, pc⟩ := holds.pc
      cases pc.symm.trans in_hand
  | halted _ pc _ _ | closed _ _ pc _ _ _ | cut _ _ pc _ _ _ _ _ => cases pc.symm.trans in_hand

/-- A sender that has returned closes the connection. -/
theorem phases_close {i k : Nat} {l : Link} {stats : FileSendStats} {stamp : Stamp}
    (reaches : T.Reaches i) (phase : T.Phase old i k l) (hangs : T.hangup = true)
    (returned : l.snd.pc = .ret stats) (opened : l.rcv.sock.fin = .opened) :
    ∃ n < 20 * l.budget + 20 * (max T.start T.count - i) + k,
      T.Ranked old n { l with rcv := { l.rcv with
        sock := ⟨l.rcv.sock.rx ++ goodbye stamp stats, l.rcv.sock.sched, .closed⟩ } } := by
  cases phase with
  | turn at_i _ _ =>
      obtain ⟨_, _, pc⟩ := at_i.pc
      cases pc.symm.trans returned
  | sending _ holds _ _ | flying _ holds _ _ _ | spoiled _ holds _ _ _ _ | again _ holds _ _
  | asked _ holds _ _ | accepted _ holds _ _ _ | acked _ holds _ _ =>
      obtain ⟨_, _, _, _, pc⟩ := holds.pc
      cases pc.symm.trans returned
  | halted stops pc rests wires =>
      cases pc.symm.trans returned
      exact ranked_of_phase reaches (.closed hangs stops pc (rests.sock _)
        (by rw [wires.toRcv]; rfl) rfl) (by omega)
  | closed _ _ _ _ _ fin => cases fin.symm.trans opened
  | cut _ _ _ _ _ _ _ fin => cases fin.symm.trans opened

/-- Every step keeps the transfer in one of its phases, nearer to the end. -/
theorem phases_step {n : Nat} {l l' : Link} (ranked : T.Ranked old n l) (move : T.Step l l') :
    ∃ m < n, T.Ranked old m l' := by
  obtain ⟨i, k, reaches, phase, rfl⟩ := ranked
  cases move with
  | send stamp move => exact phases_send reaches phase move
  | damage stamp in_hand move damaged left =>
      obtain ⟨snd, rcv, _⟩ := l
      cases left
      exact phases_damage reaches phase in_hand move damaged
  | recv junk stamp move => exact phases_recv reaches phase move
  | close stamp hangs returned opened => exact phases_close reaches phase hangs returned opened

/-- Before its first step a transfer is in the first phase of its start chunk. -/
theorem ranked_initial (sndSched rcvSched : List (Option Nat)) (budget : Nat) :
    T.Ranked old (20 * budget + 20 * (max T.start T.count - T.start) + 11)
      (T.initial old sndSched rcvSched budget) := by
  have waits : (T.initial old sndSched rcvSched budget).rcv =
      T.waiting old T.start ⟨[], rcvSched, .opened⟩ := by
    simp [initial, recvStart, waiting, recvSeq]
  have idle : (T.initial old sndSched rcvSched budget).snd.sock = ⟨[], sndSched, .opened⟩ := by
    simp [initial]
  refine ⟨T.start, 11, ⟨Nat.le_refl _, fun j _ _ => by omega⟩, ?_, rfl⟩
  exact .turn (senderAt_sendStart _) (.waiting waits) ⟨by rw [idle], by rw [waits]; rfl,
    by rw [idle], by rw [waits]; rfl⟩

/-! ### Where a transfer ends -/

/-- The end of a transfer in which the sender stopped at chunk `i`: what the sender
returned, what has been stored, and how the receiver stands. -/
structure Outcome (T : Transfer) (old : List Byte) (i : Nat) (l : Link) : Prop where
  reaches : T.Reaches i
  stops : ¬ T.Sends i
  sender : l.snd.pc = .ret (T.sendStats i)
  file : l.rcv.file = T.fileAt old i
  writes : l.rcv.writes = T.writes i
  finished : T.count ≤ T.recvSeq i → l.rcv.pc = .ret ⟨T.recvSeq i, 0⟩
  starved : T.recvSeq i < T.count → T.hangup = false →
    l.rcv.pc = .top (T.recvSeq i) ∧ Wires l [] []
  cut : T.recvSeq i < T.count → T.hangup = true →
    l.rcv.pc = .ret ⟨T.recvSeq i, if T.count ≤ i then -2 else -4⟩

theorem recvStep_of_stuck {l : Link} (stuck : Stuck T.Step l) (junk : Junk) :
    recvStep T.libs T.count (T.recvSys junk default l.rcv.pc) l.rcv = none := by
  cases step : recvStep T.libs T.count (T.recvSys junk default l.rcv.pc) l.rcv with
  | none => rfl
  | some next => exact absurd (.recv junk default step) (stuck _)

theorem sendStep_of_stuck {l : Link} (stuck : Stuck T.Step l) :
    sendStep T.libs T.content T.count (T.sendSys default l.snd.pc) l.snd = none := by
  cases step : sendStep T.libs T.content T.count (T.sendSys default l.snd.pc) l.snd with
  | none => rfl
  | some next => exact absurd (.send default step) (stuck _)

/-- A receiver at rest that cannot move has returned, or waits for a chunk. -/
theorem rests_stuck {i r : Nat} {l : Link} (rests : T.Rests old i r l.rcv)
    (stuck : Stuck T.Step l) :
    l.rcv.file = T.fileAt old i ∧ l.rcv.writes = T.writes i ∧
      (T.count ≤ T.recvSeq i ∧ l.rcv.pc = .ret ⟨T.recvSeq i, 0⟩ ∨
        T.recvSeq i < T.count ∧ ∃ sock, l.rcv = T.waiting old i sock) := by
  have still := recvStep_of_stuck stuck default
  cases rests with
  | @waiting _ sock eq =>
      refine ⟨by rw [eq]; rfl, by rw [eq]; rfl, .inr ⟨?_, sock, eq⟩⟩
      by_contra finished
      simp [eq, recvStep, waiting, finished] at still
  | writing next from_start sends carries eq =>
      rw [eq] at still
      cases (recvStep_write from_start sends carries).symm.trans still
  | done finished returned file writes => exact ⟨file, writes, .inl ⟨finished, returned⟩⟩

/-- A transfer that can go no further has come to its outcome. -/
theorem outcome_of_stuck {n : Nat} {l : Link} (ranked : T.Ranked old n l)
    (stuck : Stuck T.Step l) : ∃ i, T.Outcome old i l := by
  obtain ⟨i, k, reaches, phase, -⟩ := ranked
  have sender_still := sendStep_of_stuck stuck
  have still := recvStep_of_stuck stuck default
  cases phase with
  | turn at_i rests wires =>
      by_cases sends : T.Sends i
      · obtain ⟨s', step, -⟩ := sendStep_top at_i sends
        cases step.symm.trans sender_still
      · cases (sendStep_stop at_i reaches.lt sends).symm.trans sender_still
  | sending sends holds rests wires =>
      obtain ⟨s', c, step, -⟩ := sendStep_send holds
      cases step.symm.trans sender_still
  | flying sends holds rests carries wires =>
      obtain ⟨-, -, finished | ⟨-, sock, eq⟩⟩ := rests_stuck rests stuck
      · have := recvSeq_lt sends
        omega
      · have arrived := wires.toRcv
        rw [eq] at still arrived
        obtain ⟨sched, step⟩ := recvStep_intact reaches sends carries arrived
        cases step.symm.trans still
  | spoiled sends holds rests carries damaged wires =>
      obtain ⟨-, -, finished | ⟨-, sock, eq⟩⟩ := rests_stuck rests stuck
      · have := recvSeq_lt sends
        omega
      · have arrived := wires.toRcv
        rw [eq] at still arrived
        obtain ⟨sched, step⟩ := recvStep_damaged sends carries damaged arrived
        cases step.symm.trans still
  | again sends holds eq wires =>
      rw [eq] at still
      cases still
  | asked sends holds rests wires =>
      obtain ⟨s', step, -⟩ := sendStep_again holds wires.toSnd
      cases step.symm.trans sender_still
  | accepted sends holds carries eq wires =>
      rw [eq] at still
      cases still
  | acked sends holds rests wires =>
      obtain ⟨s', step, -⟩ := sendStep_acked sends holds wires.toSnd
      cases step.symm.trans sender_still
  | halted stops pc rests wires =>
      obtain ⟨file, writes, standing⟩ := rests_stuck rests stuck
      have open_still : T.hangup ≠ true := fun hangs =>
        stuck _ (.close default hangs pc wires.rcvOpen)
      refine ⟨i, reaches, stops, pc, file, writes, ?_, ?_, ?_⟩
      · intro finished
        rcases standing with ⟨-, returned⟩ | ⟨more, -⟩
        · exact returned
        · omega
      · intro more _
        rcases standing with ⟨finished, -⟩ | ⟨-, sock, eq⟩
        · omega
        · exact ⟨by rw [eq]; rfl, wires⟩
      · intro _ hangs
        exact absurd hangs open_still
  | closed hangs stops pc rests arrived fin =>
      obtain ⟨file, writes, ⟨finished, returned⟩ | ⟨more, sock, eq⟩⟩ := rests_stuck rests stuck
      · refine ⟨i, reaches, stops, pc, file, writes, fun _ => returned, fun more => ?_, fun more => ?_⟩
        · omega
        · omega
      · rw [eq] at still arrived fin
        obtain ⟨sock', step, -⟩ := recvStep_closed more arrived fin
        cases step.symm.trans still
  | cut hangs stops pc more returned file writes fin =>
      refine ⟨i, reaches, stops, pc, file, writes, fun finished => ?_, fun _ stays => ?_,
        fun _ _ => returned⟩
      · omega
      · exact absurd (hangs.symm.trans stays) (by decide)

/-- Every run of a transfer is finite and ends in an outcome. -/
theorem transfer_endsIn (T : Transfer) (old : List Byte) (sndSched rcvSched : List (Option Nat))
    (budget : Nat) :
    EndsIn T.Step (fun l => ∃ i, T.Outcome old i l) (T.initial old sndSched rcvSched budget) :=
  endsIn_of_ranked (T.Ranked old) (ranked_initial sndSched rcvSched budget)
    (fun _ _ _ ranked move => phases_step ranked move) fun _ _ ranked stuck =>
      outcome_of_stuck ranked stuck

theorem phase_of_reachable {l : Link} {sndSched rcvSched : List (Option Nat)} {budget : Nat}
    (reach : Reachable T.Step (T.initial old sndSched rcvSched budget) l) :
    ∃ i k, T.Reaches i ∧ T.Phase old i k l := by
  obtain ⟨_, i, k, reaches, phase, -⟩ := ranked_of_reachable (T.Ranked old)
    (ranked_initial sndSched rcvSched budget) (fun _ _ _ ranked move => phases_step ranked move) reach
  exact ⟨i, k, reaches, phase⟩

/-- What a receiver at rest has written. -/
theorem Rests.writes_eq {i r : Nat} {s : RecvState} (rests : T.Rests old i r s)
    (reaches : T.Reaches i) : ∃ j, T.Reaches j ∧ s.writes = T.writes j := by
  cases rests with
  | waiting eq => exact ⟨i, reaches, by rw [eq]; rfl⟩
  | @writing _ j _ _ next from_start sends carries eq =>
      refine ⟨j, ⟨from_start, fun k above below => reaches.2 k above (by omega)⟩, by rw [eq]; rfl⟩
  | done _ _ _ writes => exact ⟨i, reaches, writes⟩

/-- At any time the writes are those of the chunks below some chunk the sender comes
to: each once, in order, with the data sent. -/
theorem writes_of_reachable {l : Link} {sndSched rcvSched : List (Option Nat)} {budget : Nat}
    (reach : Reachable T.Step (T.initial old sndSched rcvSched budget) l) :
    ∃ i, T.Reaches i ∧ l.rcv.writes = T.writes i := by
  obtain ⟨i, k, reaches, phase⟩ := phase_of_reachable reach
  cases phase with
  | turn _ rests _ | sending _ _ rests _ | flying _ _ rests _ _ | spoiled _ _ rests _ _ _
  | asked _ _ rests _ | halted _ _ rests _ | closed _ _ _ rests _ _ => exact rests.writes_eq reaches
  | acked sends _ rests _ => exact rests.writes_eq (reaches.succ sends)
  | again _ _ eq _ | accepted _ _ _ eq _ => exact ⟨i, reaches, by rw [eq]; rfl⟩
  | cut _ _ _ _ _ _ writes _ => exact ⟨i, reaches, writes⟩

theorem Rests.file_of_ret {i r q : Nat} {s : RecvState} (rests : T.Rests old i r s)
    (returned : s.pc = .ret ⟨q, 0⟩) : T.count ≤ T.recvSeq i ∧ s.file = T.fileAt old i := by
  cases rests with
  | waiting eq | writing _ _ _ _ eq => cases (congrArg RecvState.pc eq).symm.trans returned
  | done finished _ file _ => exact ⟨finished, file⟩

/-- Whenever the receiver has returned 0, the chunks below the end of the transfer
have been written into the old file. -/
theorem done_of_reachable {l : Link} {q : Nat} {sndSched rcvSched : List (Option Nat)}
    {budget : Nat} (reach : Reachable T.Step (T.initial old sndSched rcvSched budget) l)
    (returned : l.rcv.pc = .ret ⟨q, 0⟩) :
    ∃ i, T.Reaches i ∧ T.count ≤ T.recvSeq i ∧ l.rcv.file = T.fileAt old i := by
  obtain ⟨i, k, reaches, phase⟩ := phase_of_reachable reach
  cases phase with
  | turn _ rests _ | sending _ _ rests _ | flying _ _ rests _ _ | spoiled _ _ rests _ _ _
  | asked _ _ rests _ | halted _ _ rests _ | closed _ _ _ rests _ _ =>
      exact ⟨i, reaches, rests.file_of_ret returned⟩
  | acked sends _ rests _ => exact ⟨i + 1, reaches.succ sends, rests.file_of_ret returned⟩
  | again _ _ eq _ | accepted _ _ _ eq _ => cases (congrArg RecvState.pc eq).symm.trans returned
  | cut _ _ _ _ failed _ _ _ =>
      simp only [failed, RecvPc.ret.injEq, FileRecvStats.mk.injEq] at returned
      split_ifs at returned
      · cases returned.2
      · cases returned.2

end Transfer

end MiniDropbox
