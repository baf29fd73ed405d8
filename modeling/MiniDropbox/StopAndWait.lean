/-
Stop-and-wait: a transfer without failures delivers the content.

With the exact chunk count on both sides, reads that succeed and writes that store
what they are given, every interleaving of `file_send` and `file_recv` ends with
both returning 0 and the receiver's file equal to the content, however often the
channel damages a chunk on the way (`transfer_delivers`).
-/

import MiniDropbox.Transfer.Phases

namespace MiniDropbox

open Transition

namespace Transfer

variable {T : Transfer} {old : List Byte}

/-- Segments that are stored whole make up the content between the start chunk and
the next one to come. -/
theorem stored_of_whole {i : Nat} (whole : ∀ j, T.start ≤ j → j < i → T.lost j = 0)
    (from_start : T.start ≤ i) :
    T.stored i = (T.content.take (i * CHUNK_SIZE)).drop (T.start * CHUNK_SIZE) := by
  induction i, from_start using Nat.le_induction with
  | base => rw [stored_start, List.drop_of_length_le (List.length_take_le _ _)]
  | succ i from_start ih =>
      have before : T.start * CHUNK_SIZE ≤ i * CHUNK_SIZE := Nat.mul_le_mul_right _ from_start
      have all : T.part i = T.segment i := by
        rw [part, whole i from_start (Nat.lt_succ_self i), Nat.sub_zero, List.take_length]
      have width : (i + 1) * CHUNK_SIZE - T.start * CHUNK_SIZE =
          (i * CHUNK_SIZE - T.start * CHUNK_SIZE) + CHUNK_SIZE := by
        rw [Nat.succ_mul]
        omega
      have next : T.start * CHUNK_SIZE + (i * CHUNK_SIZE - T.start * CHUNK_SIZE) = i * CHUNK_SIZE := by
        omega
      rw [stored_succ from_start, ih fun j above below => whole j above (Nat.lt_succ_of_lt below),
        all, segment, List.drop_take, List.drop_take, width, List.take_add, List.drop_drop, next]

/-- The chunk count is the exact one and no read fails. -/
structure Exact (T : Transfer) : Prop where
  count : T.count = (T.content.length + (CHUNK_SIZE - 1)) / CHUNK_SIZE
  reads : ∀ i, T.readOk i = true
  start : T.start = 0 ∨ T.start < T.count

theorem Exact.sends_iff (exact : T.Exact) (i : Nat) : T.Sends i ↔ i < T.count := by
  refine ⟨fun sends => sends.1, fun below => ⟨below, exact.reads i, ?_⟩⟩
  have count := exact.count
  simp only [CHUNK_SIZE] at count ⊢
  omega

theorem Exact.start_le (exact : T.Exact) : T.start ≤ T.count := by
  rcases exact.start with zero | below
  · omega
  · omega

/-- In an exact transfer the sender stops at the end of the content. -/
theorem Exact.stop {i : Nat} (exact : T.Exact) (reaches : T.Reaches i) (stops : ¬ T.Sends i) :
    i = T.count := by
  have past : T.count ≤ i := Nat.le_of_not_lt fun below => stops ((exact.sends_iff i).mpr below)
  have bound := reaches.le_max
  have start := exact.start_le
  omega

theorem Exact.recvSeq_count (exact : T.Exact) : T.recvSeq T.count = T.count := by
  unfold recvSeq
  split_ifs with first
  · rcases exact.start with zero | below
    · omega
    · omega
  · rfl

/-- Chunks stored whole are written at their own place. -/
theorem writes_of_whole {i : Nat} (whole : ∀ j, T.lost j = 0)
    (inside : ∀ j, j < i → j * CHUNK_SIZE < T.content.length) :
    T.writes i =
      (List.range' T.start (i - T.start)).map fun j => (j * CHUNK_SIZE, T.segment j) := by
  refine List.map_congr_left fun j mem => ?_
  obtain ⟨above, below⟩ := List.mem_range'_1.mp mem
  have start := Nat.mul_le_mul_right CHUNK_SIZE above
  have room := inside j (by omega)
  rw [offset, stored_of_whole (fun k _ _ => whole k) above, List.length_drop, List.length_take,
    Nat.min_eq_left (by omega), Nat.add_sub_cancel' start]

/-- The file when all chunks have been stored whole into a file that agreed with the
content below the start chunk and was no longer than it. -/
theorem fileAt_of_whole (exact : T.Exact) (whole : ∀ j, T.lost j = 0)
    (fits : old.length ≤ T.content.length)
    (agrees : old.take (T.start * CHUNK_SIZE) = T.content.take (T.start * CHUNK_SIZE)) :
    T.fileAt old T.count = T.content := by
  have count := exact.count
  rw [fileAt, stored_of_whole (fun j _ _ => whole j) exact.start_le]
  by_cases empty : T.content = []
  · rw [empty, List.length_nil] at fits
    simp [empty, List.eq_nil_of_length_eq_zero (Nat.le_zero.mp fits)]
  · have positive : 0 < T.content.length := List.length_pos_iff.mpr empty
    have start := exact.start
    simp only [CHUNK_SIZE] at count
    rw [Splice.splice_segment_eq_iff (by simp only [CHUNK_SIZE]; omega) (by simp only [CHUNK_SIZE]; omega)]
    refine ⟨fun i below => ?_, fits, ?_⟩
    · have prefixes := congrArg (fun l => l[i]?) agrees
      simp only [List.getElem?_take_of_lt below] at prefixes
      rw [List.getD_eq_getElem?_getD, List.getD_eq_getElem?_getD, prefixes]
    · simp only [CHUNK_SIZE]
      rw [List.drop_of_length_le (by omega), List.drop_of_length_le (by omega)]

/-- Every interleaving of an exact transfer, with any pattern of detected damage,
ends with both sides returning 0, each chunk written once, in order and at its own
offset, and the content in the receiver's file; and never is anything else written
on the way. -/
theorem transfer_delivers (T : Transfer) (old : List Byte) (sndSched rcvSched : List (Option Nat))
    (budget : Nat) (exact : T.Exact) (whole : ∀ j, T.lost j = 0)
    (fits : old.length ≤ T.content.length)
    (agrees : old.take (T.start * CHUNK_SIZE) = T.content.take (T.start * CHUNK_SIZE)) :
    EndsIn T.Step (fun l => l.snd.pc = .ret ⟨T.count, 0⟩ ∧ l.rcv.pc = .ret ⟨T.count, 0⟩ ∧
        l.rcv.writes = ((List.range' T.start (T.count - T.start)).map fun i =>
          (i * CHUNK_SIZE, T.segment i)) ∧ l.rcv.file = T.content)
        (T.initial old sndSched rcvSched budget) ∧
      ∀ l, Reachable T.Step (T.initial old sndSched rcvSched budget) l →
        l.rcv.writes <+: (List.range' T.start (T.count - T.start)).map fun i =>
          (i * CHUNK_SIZE, T.segment i) := by
  have inside : ∀ j, j < T.count → j * CHUNK_SIZE < T.content.length := fun j below =>
    ((exact.sends_iff j).mpr below).2.2
  constructor
  · refine (transfer_endsIn T old sndSched rcvSched budget).mono fun l => ?_
    rintro ⟨i, outcome⟩
    obtain rfl := exact.stop outcome.reaches outcome.stops
    have seq := exact.recvSeq_count
    have finished := outcome.finished (Nat.le_of_eq seq.symm)
    rw [seq] at finished
    refine ⟨?_, finished, ?_, ?_⟩
    · rw [outcome.sender, sendStats, if_pos (Nat.le_refl _)]
    · rw [outcome.writes, writes_of_whole whole inside]
    · rw [outcome.file, fileAt_of_whole exact whole fits agrees]
  · intro l reach
    obtain ⟨i, reaches, writes⟩ := writes_of_reachable reach
    have start := exact.start_le
    have bound := reaches.le_max
    rw [writes, writes_of_whole whole fun j below => inside j (by omega)]
    have longer : T.count - T.start = (i - T.start) + (T.count - i) := by
      have := reaches.1
      omega
    rw [longer, ← List.range'_append_1, List.map_append]
    exact List.prefix_append _ _

/-- The second chunk of a file of two, sent to a receiver that has the first. -/
def resumed : Transfer where
  libs := libraries
  content := List.replicate 4096 7 ++ [1, 2, 3]
  count := 2
  start := 1
  readOk := fun _ => true
  lost := fun _ => 0
  hangup := false
  content_lt := by simp [-List.reduceReplicate]
  start_lt := by decide

/-- It completes although the channel damages three chunks. -/
theorem transfer_delivers_resumed :
    EndsIn resumed.Step (fun l => l.rcv.pc = .ret ⟨2, 0⟩ ∧ l.rcv.file = resumed.content)
      (resumed.initial (List.replicate 4096 7) [none, some 10] [some 99, none] 3) :=
  (transfer_delivers resumed (List.replicate 4096 7) [none, some 10] [some 99, none] 3
    ⟨by simp [resumed, CHUNK_SIZE, -List.reduceReplicate], fun _ => rfl, by decide⟩ (fun _ => rfl)
    (by simp [resumed, -List.reduceReplicate]) (by simp [resumed, CHUNK_SIZE, -List.reduceReplicate])
    ).1.mono fun _ final => ⟨final.2.1, final.2.2.2⟩

end Transfer

end MiniDropbox
