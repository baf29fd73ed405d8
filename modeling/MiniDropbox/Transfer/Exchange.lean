/-
The chunk messages of a transfer over an intact channel.

`Exchange` is a run together with the sequence numbers of the chunk messages the
sender has put on the wire. Without damage no chunk is asked for again, because a
sender that waits for an answer is too near to the next chunk (`Sent`), so that a
run which has stopped at chunk `i` has sent the chunks from the start to `i`, each
once and in order (`exchange_sent`).
-/

import MiniDropbox.Transfer.Phases

namespace MiniDropbox

open Transition

namespace Transfer

variable {T : Transfer} {old : List Byte} {sent : List Nat} {l l' : Link} {n m : Nat}

/-- The chunk message a step of the sender puts on the wire, by its `seq`. -/
def sentBy (l l' : Link) : List Nat :=
  match l.snd.pc, l'.snd.pc with
  | .send _ _ c, .await _ _ _ => [c.hdr.seq]
  | _, _ => []

/-- A run from `first` that has sent these chunk messages. -/
inductive Exchange (T : Transfer) (first : Link) : List Nat → Link → Prop where
  | start : Exchange T first [] first
  | step {sent : List Nat} {l l' : Link} :
      Exchange T first sent l → T.Step l l' → Exchange T first (sent ++ sentBy l l') l'

theorem Exchange.reachable {first : Link} (exchange : T.Exchange first sent l) :
    Reachable T.Step first l := by
  induction exchange with
  | start => exact .refl
  | step _ move ih => exact ih.tail move

/-- Every run is an exchange. -/
theorem exists_exchange {first : Link} (reach : Reachable T.Step first l) :
    ∃ sent, T.Exchange first sent l := by
  induction reach with
  | refl => exact ⟨[], .start⟩
  | tail _ move ih =>
      obtain ⟨sent, exchange⟩ := ih
      exact ⟨_, exchange.step move⟩

/-- What has been sent when the sender stands at `pc`, with at most `n` steps to go: the
bound says that a chunk that has been sent is not sent again. -/
def Sent (T : Transfer) (sent : List Nat) (n : Nat) : SendPc → Prop
  | .top i _ => sent = List.range' T.start (i - T.start)
  | .send i _ _ => sent = List.range' T.start (i - T.start)
  | .await i _ _ => sent = List.range' T.start (i + 1 - T.start) ∧
      n ≤ 20 * (max T.start T.count - i) + 10
  | .ret stats => ∃ i, T.Reaches i ∧ ¬ T.Sends i ∧ stats = T.sendStats i ∧
      sent = List.range' T.start (i - T.start)

theorem Sent.lower {pc : SendPc} (holds : T.Sent sent n pc) (less : m < n) : T.Sent sent m pc := by
  cases pc with
  | top i start => exact holds
  | send i start c => exact holds
  | await i start c => exact ⟨holds.1, Nat.le_trans (Nat.le_of_lt less) holds.2⟩
  | ret stats => exact holds

/-- A step that leaves the sender where it is sends no chunk. -/
theorem Sent.kept (holds : T.Sent sent n l.snd.pc) (less : m < n) (same : l'.snd.pc = l.snd.pc) :
    T.Sent (sent ++ sentBy l l') m l'.snd.pc := by
  have silent : sentBy l l' = [] := by
    unfold sentBy
    rw [same]
    cases l.snd.pc <;> rfl
  rw [silent, List.append_nil, same]
  exact holds.lower less

/-- A step of the sender adds the chunk it sends. -/
theorem sent_send {i k : Nat} {stamp : Stamp} {snd : SendState} {out : List Byte}
    (reaches : T.Reaches i) (phase : T.Phase old i k l)
    (holds : T.Sent sent (20 * (max T.start T.count - i) + k) l.snd.pc)
    (lower : m < 20 * (max T.start T.count - i) + k)
    (move : sendStep T.libs T.content T.count (T.sendSys stamp l.snd.pc) l.snd = some (snd, out)) :
    T.Sent (sent ++ sentBy l { l with snd := snd, rcv := l.rcv.deliver out }) m snd.pc := by
  cases phase with
  | turn at_i rests wires =>
      obtain ⟨start, -, pc⟩ := at_i.pc
      rw [pc] at holds
      by_cases sends : T.Sends i
      · obtain ⟨s', step, -, holds'⟩ := @sendStep_top T stamp l.snd i at_i sends
        cases step.symm.trans move
        obtain ⟨start', -, c, -, pc'⟩ := holds'.pc
        simp only [sentBy, pc, pc', List.append_nil]
        exact holds
      · cases (sendStep_stop at_i reaches.lt sends).symm.trans move
        simp only [sentBy, pc, List.append_nil]
        exact ⟨i, reaches, sends, rfl, holds⟩
  | @sending _ r sends holding rests wires =>
      obtain ⟨start, -, c, carries, pc⟩ := holding.pc
      obtain ⟨s', c', step, -, -, holds'⟩ := @sendStep_send T stamp l.snd i holding
      cases step.symm.trans move
      obtain ⟨start', -, c'', -, pc'⟩ := holds'.pc
      rw [pc] at holds
      simp only [sentBy, pc, pc', carries.seq]
      have width : i + 1 - T.start = (i - T.start) + 1 := by
        have := reaches.1
        omega
      have last : T.start + (i - T.start) = i := Nat.add_sub_cancel' reaches.1
      have near : r ≤ 2 := by cases rests <;> decide
      refine ⟨?_, by omega⟩
      rw [show sent = _ from holds, width, List.range'_1_concat, last]
  | flying _ holding _ _ wires | spoiled _ holding _ _ _ wires | again _ holding _ wires
  | accepted _ holding _ _ wires =>
      cases (sendStep_blocked holding wires.toSnd wires.sndOpen).symm.trans move
  | @asked _ r _ sends holding rests wires =>
      -- the channel is intact, so nothing is asked for again
      obtain ⟨_, _, _, _, pc⟩ := holding.pc
      rw [pc] at holds
      have bound := holds.2
      have pending := recvSeq_lt sends
      cases rests with
      | waiting _ | writing _ _ _ _ _ => omega
      | done finished _ _ _ => omega
  | acked sends holding rests wires =>
      obtain ⟨_, _, _, _, pc⟩ := holding.pc
      obtain ⟨s', step, -, -, at_next⟩ := @sendStep_acked T stamp _ l.snd i sends holding wires.toSnd
      cases step.symm.trans move
      obtain ⟨_, _, pc'⟩ := at_next.pc
      rw [pc] at holds
      simp only [sentBy, pc, pc', List.append_nil]
      exact holds.1
  | halted _ pc _ _ | closed _ _ pc _ _ _ | cut _ _ pc _ _ _ _ _ => simp [sendStep, pc] at move

/-- Every step over an intact channel keeps the account of what has been sent. -/
theorem sent_step (intact : l.budget = 0) (ranked : T.Ranked old n l) (holds : T.Sent sent n l.snd.pc)
    (move : T.Step l l') :
    l'.budget = 0 ∧ ∃ m, T.Ranked old m l' ∧ T.Sent (sent ++ sentBy l l') m l'.snd.pc := by
  obtain ⟨m, lower, ranked'⟩ := phases_step ranked move
  cases move with
  | send stamp move =>
      obtain ⟨i, k, reaches, phase, rfl⟩ := ranked
      rw [intact, Nat.mul_zero, Nat.zero_add] at lower holds
      exact ⟨intact, m, ranked', sent_send reaches phase holds lower move⟩
  | damage stamp in_hand move damaged left => cases intact.symm.trans left
  | recv junk stamp move => exact ⟨intact, m, ranked', holds.kept lower rfl⟩
  | close stamp hangs returned opened => exact ⟨intact, m, ranked', holds.kept lower rfl⟩

/-- An exchange over an intact channel that can go no further has sent the chunks from
the start to the one where it stopped, each once and in order. -/
theorem exchange_sent {sndSched rcvSched : List (Option Nat)}
    (exchange : T.Exchange (T.initial old sndSched rcvSched 0) sent l) (stuck : Stuck T.Step l) :
    ∃ i, T.Outcome old i l ∧ sent = List.range' T.start (i - T.start) := by
  have account : l.budget = 0 ∧ ∃ m, T.Ranked old m l ∧ T.Sent sent m l.snd.pc := by
    clear stuck
    induction exchange with
    | start =>
        refine ⟨rfl, _, ranked_initial sndSched rcvSched 0, ?_⟩
        obtain ⟨_, _, pc⟩ := (@senderAt_sendStart T ⟨[], sndSched, .opened⟩).pc
        simp [initial, pc, Sent]
    | step _ move ih =>
        obtain ⟨intact, m, ranked, holds⟩ := ih
        exact sent_step intact ranked holds move
  obtain ⟨-, m, ranked, holds⟩ := account
  obtain ⟨i, outcome⟩ := outcome_of_stuck ranked stuck
  rw [outcome.sender] at holds
  obtain ⟨j, reaches, stops, -, all⟩ := holds
  cases reaches.unique stops outcome.reaches outcome.stops
  exact ⟨_, outcome, all⟩

end Transfer

end MiniDropbox
