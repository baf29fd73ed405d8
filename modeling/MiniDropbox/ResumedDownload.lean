/-
Resuming a download: what the client has at the end, and whether it ends.

The client keeps what it holds and writes behind the chunks it claims to have; with
the two roundings of `Download.lean` it can claim a chunk too many or stop a chunk
too early. `downloadSound_iff` says when a completed download leaves the remote file.
And where the client holds exactly a file of whole chunks, the server has nothing to
send, while the client, whose loop counts from 0, waits for its first chunk:
`downloadComplete_iff`.
-/

import MiniDropbox.Download
import MiniDropbox.Normalize
import MiniDropbox.StopAndWait

namespace MiniDropbox

open Transition

namespace Download

variable (d : Download)

/-- The client claims no chunk it does not have, and in every run in which `file_recv`
returns 0 its file is the remote one. -/
def Sound : Prop :=
  heldChunks d.holds.length * CHUNK_SIZE ≤ d.holds.length ∧
    ∀ count start small, d.opened = some (count, start) → ∀ sndSched rcvSched budget l q,
      Reachable (d.transfer count start small).Step
          ((d.transfer count start small).initial d.holds sndSched rcvSched budget) l →
        l.rcv.pc = .ret ⟨q, 0⟩ → l.rcv.file = d.content

/-- No system call fails: the environment imposes nothing, every read delivers and every
write stores. -/
structure Faultless : Prop where
  calls : ∀ site path, d.env.faults site path = none
  reads : ∀ j, d.readOk j = true
  writes : ∀ j, d.lost j = 0

/-- The transfer begins, and over an intact channel every run of it ends with `file_recv`
returning 0. -/
def Succeeds : Prop :=
  ∃ count start small, d.opened = some (count, start) ∧ ∀ sndSched rcvSched,
    EndsIn (d.transfer count start small).Step (fun l => ∃ q, l.rcv.pc = .ret ⟨q, 0⟩)
      ((d.transfer count start small).initial d.holds sndSched rcvSched 0)

/-- There is no chunk to transfer, or one that the client does not hold in full, and all
from the first such on can be read. -/
def Covers : Prop :=
  chunkCount d.content.length = 0 ∨ d.holds.length / CHUNK_SIZE < chunkCount d.content.length ∧
    ∀ j, d.holds.length / CHUNK_SIZE ≤ j → j < chunkCount d.content.length → d.readOk j = true

/-- The size of the remote file is not rounded down, and no write of a chunk to come is cut
short. -/
def Whole : Prop :=
  ¬ RoundsDown d.content.length ∧
    ∀ j, d.holds.length / CHUNK_SIZE ≤ j → j < chunkCount d.content.length → d.lost j = 0

variable {d}

/-- Every chunk counted lies in the file. -/
theorem inside_of_lt {size j : Nat} (small : size ≤ 10 ^ 10) (below : j < chunkCount size) :
    j * CHUNK_SIZE < size := by
  rw [chunkCount_eq small] at below
  split_ifs at below with down
  · have rest := down.1
    simp only [CHUNK_SIZE] at *
    omega
  · simp only [CHUNK_SIZE] at *
    omega

/-- The transfer from the first chunk not held in full. -/
def resumed (d : Download) : Transfer :=
  d.transfer (chunkCount d.content.length) (heldChunks d.holds.length) start_small

theorem resumed_start (down : ¬ RoundsUp d.holds.length) :
    (resumed d).start = d.holds.length / CHUNK_SIZE := by
  have start : (resumed d).start = heldChunks d.holds.length := rfl
  rw [start, heldChunks_eq holds_le, if_neg down]

theorem completes_iff (down : ¬ RoundsUp d.holds.length) : (resumed d).Completes ↔ d.Covers := by
  have count : (resumed d).count = chunkCount d.content.length := rfl
  simp only [Transfer.Completes, Transfer.Sends, resumed_start down, count, Covers]
  constructor
  · rintro (nothing | ⟨below, all⟩)
    · exact .inl nothing
    · exact .inr ⟨below, fun j above less => (all j above less).2.1⟩
  · rintro (nothing | ⟨below, all⟩)
    · exact .inl nothing
    · exact .inr ⟨below, fun j above less => ⟨less, all j above less, inside_of_lt d.content_le less⟩⟩

theorem content_nil (nothing : chunkCount d.content.length = 0) : d.content = [] := by
  have small := d.content_le
  rw [chunkCount_eq small] at nothing
  apply List.eq_nil_of_length_eq_zero
  by_cases short : d.content.length ≤ 2 ^ 24
  · rw [if_neg (exact_of_le short).2] at nothing
    simp only [CHUNK_SIZE] at nothing
    omega
  · simp only [CHUNK_SIZE] at nothing
    split_ifs at nothing <;> omega

/-- A transfer that makes the client's file the remote one has written it to its end. -/
theorem whole_of_fileAt_eq {below : d.holds.length / CHUNK_SIZE < chunkCount d.content.length}
    (down : ¬ RoundsUp d.holds.length) (differ : d.holds ≠ d.content)
    (equal : (resumed d).fileAt d.holds (chunkCount d.content.length) = d.content) : d.Whole := by
  have start := resumed_start down
  have shorter : d.holds.length < d.content.length :=
    Nat.lt_of_le_of_ne d.held_prefix.length_le fun same => differ (d.held_prefix.eq_of_length same)
  obtain ⟨bound, full⟩ := @Transfer.length_stored (resumed d) (chunkCount d.content.length)
    (by rw [start]; exact Nat.le_of_lt below) fun j less _ => inside_of_lt d.content_le less
  have nonempty : (resumed d).stored (chunkCount d.content.length) ≠ [] := by
    intro nothing
    rw [Transfer.fileAt, nothing] at equal
    exact differ equal
  have reach := congrArg List.length equal
  have content : (resumed d).content = d.content := rfl
  rw [Transfer.fileAt, Splice.length_splice nonempty] at reach
  rw [start, content] at bound full
  rw [start] at reach
  have room := inside_of_lt d.content_le below
  have reached : ((resumed d).stored (chunkCount d.content.length)).length =
      min (chunkCount d.content.length * CHUNK_SIZE) d.content.length -
        d.holds.length / CHUNK_SIZE * CHUNK_SIZE := by
    omega
  refine ⟨fun rounded => ?_, full reached⟩
  have count := chunkCount_eq d.content_le
  rw [if_pos rounded] at count
  have rest := rounded.1
  simp only [CHUNK_SIZE] at *
  omega

/-- What a completed transfer makes of the client's file. -/
theorem fileAt_eq_iff (down : ¬ RoundsUp d.holds.length) (covers : d.Covers) :
    (resumed d).fileAt d.holds (chunkCount d.content.length) = d.content ↔
      d.holds = d.content ∨ d.Whole := by
  have start := resumed_start down
  rcases covers with nothing | ⟨below, -⟩
  · have empty := content_nil nothing
    have held : d.holds = [] := List.prefix_nil.mp (by rw [← empty]; exact d.held_prefix)
    rw [Transfer.fileAt, Transfer.stored, nothing, Nat.zero_sub, held, empty]
    simp
  constructor
  · intro equal
    by_cases same : d.holds = d.content
    · exact .inl same
    · exact .inr (@whole_of_fileAt_eq d below down same equal)
  · rintro (same | ⟨exact, whole⟩)
    · -- the stored bytes are a piece of the last chunk, which is there already
      have last : chunkCount d.content.length = (resumed d).start + 1 := by
        have count := chunkCount_eq d.content_le
        rw [start]
        rw [same] at below ⊢
        simp only [CHUNK_SIZE] at *
        split_ifs at count <;> omega
      rw [Transfer.fileAt, last, Transfer.stored_succ (Nat.le_refl _), Transfer.stored_start, List.nil_append,
        same]
      exact Splice.splice_of_prefix ((List.take_prefix _ _).trans (List.take_prefix _ _))
    · rw [Transfer.fileAt, Transfer.stored_of_whole (by rw [start]; exact whole)
        (by rw [start]; exact Nat.le_of_lt below), start]
      have held : d.holds <+: d.content := d.held_prefix
      have room := inside_of_lt d.content_le below
      have stop : d.content.length ≤ chunkCount d.content.length * CHUNK_SIZE := by
        rw [chunkCount_eq d.content_le, if_neg exact]
        simp only [CHUNK_SIZE]
        omega
      refine (Splice.splice_segment_eq_iff (Nat.mul_lt_mul_of_pos_right below (by decide)) room).mpr
        ⟨fun i less => ?_, held.length_le, ?_⟩
      · have within : i < d.holds.length :=
          Nat.lt_of_lt_of_le less (Nat.div_mul_le_self _ _)
        rw [List.getD_eq_getElem?_getD, List.getD_eq_getElem?_getD, List.getElem?_eq_getElem within,
          held.getElem within, List.getElem?_eq_getElem (Nat.lt_of_lt_of_le within held.length_le)]
      · rw [List.drop_of_length_le (Nat.le_trans held.length_le stop), List.drop_of_length_le stop]

/-- Without failures the download succeeds exactly when its transfer completes. -/
theorem succeeds_iff (faultless : d.Faultless) : d.Succeeds ↔ (resumed d).Completes := by
  have found : d.Found := ⟨faultless.calls _ _, faultless.calls _ _, faultless.calls _ _⟩
  constructor
  · rintro ⟨count, start, room, opened, ends⟩
    obtain ⟨-, rfl, rfl⟩ := opened_iff.mp opened
    by_contra stuck
    obtain ⟨l, -, ⟨q, returned⟩, stats, failed, negative⟩ :=
      ((ends [] []).and (Transfer.endsIn_failed stuck rfl)).exists_final
    cases returned.symm.trans failed
    exact absurd negative (Int.lt_irrefl 0)
  · intro completes
    exact ⟨_, _, start_small, opened_iff.mpr ⟨found, rfl, rfl⟩, fun _ _ =>
      Transfer.endsIn_of_completes completes⟩

/-- Without failures everything is there but for the file of whole chunks that is held
already. -/
theorem covers_iff (small : d.content.length ≤ 2 ^ 24) (faultless : d.Faultless) :
    d.Covers ↔ ¬ (d.holds = d.content ∧ d.content ≠ [] ∧ CHUNK_SIZE ∣ d.content.length) := by
  have held : d.holds <+: d.content := d.held_prefix
  have length := held.length_le
  have count : chunkCount d.content.length = (d.content.length + (CHUNK_SIZE - 1)) / CHUNK_SIZE := by
    rw [chunkCount_eq d.content_le, if_neg (exact_of_le small).2]
  unfold Covers
  rw [count]
  constructor
  · rintro covers ⟨same, nonempty, whole⟩
    have positive := List.length_pos_iff.mpr nonempty
    rw [same] at covers
    simp only [CHUNK_SIZE] at *
    omega
  · intro more
    by_cases empty : d.content = []
    · exact .inl (by rw [empty]; decide)
    · refine .inr ⟨?_, fun j _ _ => faultless.reads j⟩
      by_contra done
      have whole : CHUNK_SIZE ∣ d.content.length := by
        simp only [CHUNK_SIZE] at *
        omega
      refine more ⟨held.eq_of_length ?_, empty, whole⟩
      simp only [CHUNK_SIZE] at *
      omega

end Download

/-- Which resumed downloads are sound: for every remote file, every prefix of it held and
every run. -/
theorem downloadSound_iff (d : Download) :
    d.Sound ↔ ¬ RoundsUp d.holds.length ∧ (d.Found → d.Covers → d.holds = d.content ∨ d.Whole) := by
  rw [Download.Sound, heldChunks_le_iff Download.holds_le]
  refine and_congr_right fun down => ⟨fun sound found covers => ?_, fun condition => ?_⟩
  · have completes := (Download.completes_iff down).mpr covers
    obtain ⟨l, reach, q, returned⟩ :=
      (@Transfer.endsIn_of_completes _ d.holds [] [] 0 completes).exists_final
    have file := sound _ _ Download.start_small (Download.opened_iff.mpr ⟨found, rfl, rfl⟩) [] [] 0 l q
      reach returned
    exact (Download.fileAt_eq_iff down covers).mp
      ((Transfer.completes_of_returned reach returned).2.symm.trans file)
  · intro count start small opened sndSched rcvSched budget l q reach returned
    obtain ⟨found, rfl, rfl⟩ := Download.opened_iff.mp opened
    obtain ⟨completes, file⟩ := Transfer.completes_of_returned reach returned
    have covers := (Download.completes_iff down).mp completes
    rw [file]
    exact (Download.fileAt_eq_iff down covers).mpr (condition found covers)

/-- Which resumed downloads come to a good end: for every remote file of at most `2 ^ 24`
bytes and every prefix of it held, when nothing fails. -/
theorem downloadComplete_iff (d : Download) (small : d.content.length ≤ 2 ^ 24)
    (faultless : d.Faultless) : d.Succeeds ↔
      ¬ (d.holds = d.content ∧ d.content ≠ [] ∧ CHUNK_SIZE ∣ d.content.length) := by
  have down := (exact_of_le (Nat.le_trans d.held_prefix.length_le small)).1
  rw [Download.succeeds_iff faultless, Download.completes_iff down, Download.covers_iff small faultless]

/-! ### Three downloads -/

/-- The server with a file `f` of that user. -/
def holding (bytes : List Byte) : Server :=
  { tokenKnown with fs := tokenKnown.fs.set (userPlace libraries someToken ++ [cstr "f"]) (.file bytes) }

/-- The path it resolves to. -/
def filePath : CStr := getUserRoot libraries someToken ++ cstr "/f"

theorem holding_lstat {bytes : List Byte}
    (resolved : (holding bytes).fs.resolve false filePath = .ok (userPlace libraries someToken ++ [cstr "f"])) :
    (holding bytes).fs.lstat filePath = .ok (.file bytes) := by
  refine lstat_of_resolve resolved ?_
  rw [holding, get?_set (by simp), if_pos rfl]

/-- A client that holds the first of two bytes. -/
def oneMore : Download where
  libs := libraries
  server := holding [1, 2]
  addr := 0
  user := userInit someToken
  token := someToken
  env := default
  name := cstr "/f"
  path := filePath
  content := [1, 2]
  held := some [1]
  readOk := fun _ => true
  lost := fun _ => 0
  record := tokenKnown_record
  fits := ⟨by decide, by decide, by decide, by decide⟩
  resolved := by decide
  regular := holding_lstat (by decide)
  content_le := by decide
  held_prefix := ⟨[2], rfl⟩

theorem oneMore_faultless : oneMore.Faultless := ⟨fun _ _ => rfl, fun _ => rfl, fun _ => rfl⟩

/-- It gets the second. -/
theorem downloadComplete_oneMore : oneMore.Succeeds :=
  (downloadComplete_iff oneMore (by decide) oneMore_faultless).mpr (by decide)

/-- A client that holds all of a file of one chunk. -/
def nothingMore : Download where
  libs := libraries
  server := holding (List.replicate 4096 7)
  addr := 0
  user := userInit someToken
  token := someToken
  env := default
  name := cstr "/f"
  path := filePath
  content := List.replicate 4096 7
  held := some (List.replicate 4096 7)
  readOk := fun _ => true
  lost := fun _ => 0
  record := tokenKnown_record
  fits := ⟨by simp [cmdDownloadInfo, -List.reduceReplicate], by simp [cmdDownloadInfo, -List.reduceReplicate]; decide, by decide, by decide⟩
  resolved := by decide
  regular := holding_lstat (by decide)
  content_le := by simp [-List.reduceReplicate]
  held_prefix := ⟨[], by simp [-List.reduceReplicate]⟩

/-- It waits for a chunk the server does not send, until the connection is closed. -/
theorem downloadComplete_nothingMore :
    ¬ ∀ d : Download, d.content.length ≤ 2 ^ 24 → d.Faultless → d.Succeeds := by
  intro complete
  have faultless : nothingMore.Faultless := ⟨fun _ _ => rfl, fun _ => rfl, fun _ => rfl⟩
  have size : nothingMore.content.length = CHUNK_SIZE := List.length_replicate
  have small : nothingMore.content.length ≤ 2 ^ 24 := by
    rw [size]
    decide
  have down := (exact_of_le (Nat.le_trans nothingMore.held_prefix.length_le small)).1
  have succeeds := complete nothingMore small faultless
  rw [Download.succeeds_iff faultless, Download.completes_iff down,
    Download.covers_iff small faultless] at succeeds
  refine succeeds ⟨rfl, fun empty => ?_, by rw [size]⟩
  rw [empty] at size
  cases size

/-- A client that holds nothing of a file of one byte more than `2 ^ 24`. -/
def oneTooMany : Download where
  libs := libraries
  server := holding (List.replicate (2 ^ 24 + 1) 7)
  addr := 0
  user := userInit someToken
  token := someToken
  env := default
  name := cstr "/f"
  path := filePath
  content := List.replicate (2 ^ 24 + 1) 7
  held := none
  readOk := fun _ => true
  lost := fun _ => 0
  record := tokenKnown_record
  fits := ⟨by decide, by decide, by decide, by decide⟩
  resolved := by decide
  regular := holding_lstat (by decide)
  content_le := by simp [-List.reduceReplicate]
  held_prefix := List.nil_prefix

/-- It is told of `2 ^ 12` chunks, gets them, and lacks the last byte. -/
theorem downloadSound_oneTooMany : ¬ oneTooMany.Sound := by
  rintro ⟨-, sound⟩
  have size : oneTooMany.content.length = 2 ^ 24 + 1 := List.length_replicate
  have holds : oneTooMany.holds = [] := rfl
  have rounded : RoundsDown oneTooMany.content.length := by
    rw [size]
    decide
  have count : chunkCount oneTooMany.content.length = 2 ^ 12 := by
    rw [size]
    decide
  have down : ¬ RoundsUp oneTooMany.holds.length := by decide
  have covers : oneTooMany.Covers := by
    refine .inr ⟨?_, fun _ _ _ => rfl⟩
    rw [count, holds]
    decide
  obtain ⟨l, reach, q, returned⟩ := (@Transfer.endsIn_of_completes _ oneTooMany.holds [] [] 0
    ((Download.completes_iff down).mpr covers)).exists_final
  have file := sound _ _ Download.start_small (Download.opened_iff.mpr ⟨⟨rfl, rfl, rfl⟩, rfl, rfl⟩) [] [] 0
    l q reach returned
  rcases (Download.fileAt_eq_iff down covers).mp
      ((Transfer.completes_of_returned reach returned).2.symm.trans file) with same | whole
  · rw [← same, holds] at size
    cases size
  · exact whole.1 rounded

end MiniDropbox
