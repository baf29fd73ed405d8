/-
How a transfer ends, told from what it starts with.

A transfer `Completes` when both sides have nothing to do, or the start chunk lies
below the chunk count and every chunk from it on can be read. Exactly then the
receiver returns 0 (`completes_of_returned`, `endsIn_of_completes`), and then the
file is the old one with the stored parts written into it. Otherwise a sender that
keeps the connection leaves the receiver waiting for ever (`endsIn_deadlock`), and
one that closes it leaves the receiver with an error (`endsIn_failed`).
-/

import MiniDropbox.Transfer.Phases

namespace MiniDropbox

open Transition

namespace Transfer

variable {T : Transfer} {old : List Byte} {sndSched rcvSched : List (Option Nat)} {budget : Nat}

/-- There is nothing to transfer, or something, all of which can be read. -/
def Completes (T : Transfer) : Prop :=
  T.count = 0 ∨ T.start < T.count ∧ ∀ j, T.start ≤ j → j < T.count → T.Sends j

/-- The sender has returned, the receiver waits for a chunk, and nothing is in flight. -/
structure Deadlock (T : Transfer) (l : Link) : Prop where
  left : ∃ stats, l.snd.pc = .ret stats
  waits : ∃ q < T.count, l.rcv.pc = .top q
  toReceiver : l.rcv.sock.rx = [] ∧ l.rcv.sock.fin = .opened
  toSender : l.snd.sock.rx = []

/-- A receiver that is finished has all of a transfer that completes. -/
theorem completes_of_finished {i : Nat} (reaches : T.Reaches i) (finished : T.count ≤ T.recvSeq i) :
    T.Completes ∧ T.fileAt old i = T.fileAt old T.count := by
  have bound := reaches.le_max
  by_cases nothing : T.count = 0
  · have first : i = T.start := by
      by_contra later
      have sends := reaches.2 T.start (Nat.le_refl _) (Nat.lt_of_le_of_ne reaches.1 (Ne.symm later))
      have below := sends.1
      omega
    refine ⟨.inl nothing, ?_⟩
    rw [first, fileAt_start, fileAt, stored, nothing, Nat.zero_sub]
    simp
  · have later : i ≠ T.start := by
      rintro rfl
      rw [recvSeq, if_pos rfl] at finished
      omega
    rw [recvSeq, if_neg later] at finished
    have last : i = T.count := by
      have := reaches.1
      omega
    subst last
    exact ⟨.inr ⟨Nat.lt_of_le_of_ne reaches.1 (Ne.symm later), reaches.2⟩, rfl⟩

/-- When a transfer completes, the sender stops only where the receiver is finished. -/
theorem finished_of_completes {i : Nat} (completes : T.Completes) (reaches : T.Reaches i)
    (stops : ¬ T.Sends i) : T.count ≤ T.recvSeq i := by
  rcases completes with nothing | ⟨positive, all⟩
  · rw [nothing]
    exact Nat.zero_le _
  · have past : T.count ≤ i := by
      by_contra before
      exact stops (all i reaches.1 (Nat.lt_of_not_le before))
    rw [recvSeq, if_neg (by omega)]
    exact past

/-- Where the receiver has returned 0 the transfer completes, and the stored parts are in
the file. -/
theorem completes_of_returned {l : Link} {q : Nat}
    (reach : Reachable T.Step (T.initial old sndSched rcvSched budget) l)
    (returned : l.rcv.pc = .ret ⟨q, 0⟩) : T.Completes ∧ l.rcv.file = T.fileAt old T.count := by
  obtain ⟨i, reaches, finished, file⟩ := done_of_reachable reach returned
  obtain ⟨completes, same⟩ := @completes_of_finished T old i reaches finished
  exact ⟨completes, file.trans same⟩

/-- Every run of a transfer that completes ends with the receiver returning 0. -/
theorem endsIn_of_completes (completes : T.Completes) :
    EndsIn T.Step (fun l => ∃ q, l.rcv.pc = .ret ⟨q, 0⟩) (T.initial old sndSched rcvSched budget) :=
  (transfer_endsIn T old sndSched rcvSched budget).mono fun _ ⟨i, outcome⟩ =>
    ⟨T.recvSeq i, outcome.finished (finished_of_completes completes outcome.reaches outcome.stops)⟩

theorem recvSeq_lt_of_not_completes {i : Nat} (stuck : ¬ T.Completes) (reaches : T.Reaches i) :
    T.recvSeq i < T.count := by
  by_contra finished
  exact stuck (@completes_of_finished T [] i reaches (Nat.le_of_not_lt finished)).1

/-- Every run of a transfer that does not complete, on a connection that stays open, ends
in a deadlock. -/
theorem endsIn_deadlock (stuck : ¬ T.Completes) (stays : T.hangup = false) :
    EndsIn T.Step T.Deadlock (T.initial old sndSched rcvSched budget) :=
  (transfer_endsIn T old sndSched rcvSched budget).mono fun l ⟨i, outcome⟩ => by
    have more := recvSeq_lt_of_not_completes stuck outcome.reaches
    obtain ⟨waits, wires⟩ := outcome.starved more stays
    exact ⟨⟨_, outcome.sender⟩, ⟨_, more, waits⟩, ⟨wires.toRcv, wires.rcvOpen⟩, wires.toSnd⟩

/-- Every run of a transfer that does not complete, with a sender that closes the
connection, ends with the receiver returning an error. -/
theorem endsIn_failed (stuck : ¬ T.Completes) (hangs : T.hangup = true) :
    EndsIn T.Step (fun l => ∃ stats, l.rcv.pc = .ret stats ∧ stats.errorCode < 0)
      (T.initial old sndSched rcvSched budget) :=
  (transfer_endsIn T old sndSched rcvSched budget).mono fun l ⟨i, outcome⟩ => by
    have more := recvSeq_lt_of_not_completes stuck outcome.reaches
    refine ⟨_, outcome.cut more hangs, ?_⟩
    dsimp only
    split_ifs
    · exact Int.negSucc_lt_zero 1
    · exact Int.negSucc_lt_zero 3

/-- In a deadlock nothing moves. -/
theorem stuck_of_deadlock {l : Link} (deadlock : T.Deadlock l) (stays : T.hangup = false) :
    Stuck T.Step l := by
  obtain ⟨stats, left⟩ := deadlock.left
  obtain ⟨q, more, waits⟩ := deadlock.waits
  obtain ⟨drained, opened⟩ := deadlock.toReceiver
  intro l' move
  cases move with
  | send stamp move => simp [sendStep, left] at move
  | damage stamp in_hand => cases left.symm.trans in_hand
  | recv junk stamp move =>
      simp [recvStep, waits, more, chunkRecv_of_opened drained opened] at move
  | close stamp hangs => cases hangs.symm.trans stays

/-- A deadlock can be reached exactly when the transfer does not complete. -/
theorem deadlock_iff (stays : T.hangup = false) :
    (∃ l, Reachable T.Step (T.initial old sndSched rcvSched budget) l ∧ T.Deadlock l) ↔
      ¬ T.Completes := by
  constructor
  · rintro ⟨l, reach, deadlock⟩ completes
    obtain ⟨q, returned⟩ := (endsIn_of_completes completes).final reach (stuck_of_deadlock deadlock stays)
    obtain ⟨_, _, waits⟩ := deadlock.waits
    cases waits.symm.trans returned
  · intro stuck
    exact (endsIn_deadlock stuck stays).exists_final

/-! ### How much is stored -/

/-- The bytes stored reach as far as the chunks transferred, less what the writes left
out: a full reach means that no write was cut short. -/
theorem length_stored {i : Nat} (from_start : T.start ≤ i)
    (inside : ∀ j < i, T.start ≤ j → j * CHUNK_SIZE < T.content.length) :
    (T.stored i).length ≤ min (i * CHUNK_SIZE) T.content.length - T.start * CHUNK_SIZE ∧
      ((T.stored i).length = min (i * CHUNK_SIZE) T.content.length - T.start * CHUNK_SIZE →
        ∀ j, T.start ≤ j → j < i → T.lost j = 0) := by
  induction i, from_start using Nat.le_induction with
  | base => exact ⟨by simp, fun _ j above below => absurd below (Nat.not_lt.mpr above)⟩
  | succ i from_start ih =>
      obtain ⟨below, full⟩ := ih fun j less => inside j (Nat.lt_succ_of_lt less)
      have room := inside i (Nat.lt_succ_self i) from_start
      have start := Nat.mul_le_mul_right CHUNK_SIZE from_start
      have width : (T.segment i).length = min CHUNK_SIZE (T.content.length - i * CHUNK_SIZE) := by
        rw [segment, List.length_take, List.length_drop]
      have kept : (T.part i).length = (T.segment i).length - T.lost i := by
        rw [part, List.length_take]
        omega
      rw [stored_succ from_start, List.length_append, kept, width]
      simp only [CHUNK_SIZE] at *
      constructor
      · omega
      · intro reached j above less
        have whole : T.lost i = 0 := by omega
        by_cases last : j = i
        · rw [last]
          exact whole
        · exact full (by omega) j above (by omega)

end Transfer

end MiniDropbox
