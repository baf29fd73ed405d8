/-
Reading a file for its checksum: `file_checksum` (`util.c`) with the results of its reads.

`read` returns a count, 0 at the end of the file, or -1; the loop stores what it returns
in a `size_t`. The digest is fed that many bytes of a buffer of `CHUNK_SIZE` bytes.

* `checksumLoop_blocks` — blocks followed by the end of the file are fed whole and in order.
* `checksumReads_iff` — the checksum and `fileinfo_from_filename` are right about a sequence
  of reads exactly when no read fails before the end of the file.
-/

import MiniDropbox.Storage

namespace MiniDropbox

/-- What a successful read leaves at the front of the buffer. -/
abbrev Block := { bytes : List Byte // 0 < bytes.length ∧ bytes.length ≤ CHUNK_SIZE }

/-- The buffer of `file_checksum`. -/
abbrev Buffer := { bytes : List Byte // bytes.length = CHUNK_SIZE }

/-- The result of a `read` into the buffer. -/
inductive ReadResult where
  | block (bytes : Block)
  | eof
  | error

/-- What `read` returns. -/
def ReadResult.ret : ReadResult → Int
  | .block bytes => bytes.1.length
  | .eof => 0
  | .error => -1

/-- What `read` leaves in the buffer. -/
def ReadResult.fill (buffer : Buffer) : ReadResult → Buffer
  | .block bytes => ⟨bytes.1 ++ buffer.1.drop bytes.1.length, by
      rw [List.length_append, List.length_drop, buffer.2]
      exact Nat.add_sub_of_le bytes.2.2⟩
  | _ => buffer

/-- A `ssize_t` stored in a `size_t`. -/
def bytesRead (ret : Int) : Nat := (ret % 2 ^ 64).toNat

/-- How the loop over the reads goes: it ends after some of them, it waits for another one,
or it hands the digest more bytes than the buffer has. -/
inductive ChecksumLoop where
  | ended (fed : List Byte) (unread : List ReadResult)
  | waiting (fed : List Byte)
  | overrun (fed : List Byte) (size : Nat)

/-- The loop of `file_checksum`, after the bytes `fed` have gone into the digest. -/
def checksumLoop (buffer : Buffer) (fed : List Byte) : List ReadResult → ChecksumLoop
  | [] => .waiting fed
  | result :: results =>
      let buffer := result.fill buffer
      let size := bytesRead result.ret
      if size > 0 then
        if size ≤ buffer.1.length then checksumLoop buffer (fed ++ buffer.1.take size) results
        else .overrun fed size
      else .ended fed results

/-- Mirrors `file_checksum`, when `open` and `EVP_MD_CTX_new` succeed: the return value,
the checksum, and the reads not made. It is `none` when the call does not return. -/
def fileChecksumReads (libs : Externals) (buffer : Buffer) (results : List ReadResult) :
    Option (Int × Checksum × List ReadResult) :=
  match checksumLoop buffer [] results with
  | .ended fed unread => some (0, libs.checksum fed, unread)
  | _ => none

/-- Mirrors `fileinfo_from_filename` on a regular file of `size` bytes that is opened. -/
def fileinfoReads (libs : Externals) (buffer : Buffer) (results : List ReadResult) (filename : CStr)
    (size : Nat) (out : FileInfo) : Option (Int × FileInfo) :=
  let out := { out with filename := filename, size := size, chunkCount := chunkCount size }
  (fileChecksumReads libs buffer results).map fun called =>
    if called.1 = -1 then (-3, out) else (0, { out with checksum := called.2.1 })

/-! ### What the results of the reads should amount to -/

/-- The blocks read before the first 0 or -1. -/
def blocksRead : List ReadResult → List Byte
  | .block bytes :: results => bytes.1 ++ blocksRead results
  | _ => []

/-- The first result that is no block, and what comes behind it. -/
def stopsWith : List ReadResult → Option (ReadResult × List ReadResult)
  | [] => none
  | .block _ :: results => stopsWith results
  | result :: results => some (result, results)

/-- The digest is fed the bytes read, in order; the loop ends with the first 0 or -1; the
call returns the digest when that is a 0, and -1 when it is a -1, which
`fileinfo_from_filename` then reports as -3. -/
def ReadsRight (libs : Externals) (buffer : Buffer) (results : List ReadResult) : Prop :=
  match stopsWith results with
  | none => checksumLoop buffer [] results = .waiting (blocksRead results)
  | some (.error, unread) =>
      checksumLoop buffer [] results = .ended (blocksRead results) unread ∧
        (∃ checksum, fileChecksumReads libs buffer results = some (-1, checksum, unread)) ∧
          ∀ filename size out, (fileinfoReads libs buffer results filename size out).map Prod.fst = some (-3)
  | some (_, unread) =>
      checksumLoop buffer [] results = .ended (blocksRead results) unread ∧
        fileChecksumReads libs buffer results = some (0, libs.checksum (blocksRead results), unread)

variable {libs : Externals} {buffer : Buffer} {fed : List Byte} {results unread : List ReadResult}

/-! ### The loop -/

/-- A block is fed whole, and the loop goes on. -/
theorem checksumLoop_block (bytes : Block) : checksumLoop buffer fed (.block bytes :: results) =
    checksumLoop ((ReadResult.block bytes).fill buffer) (fed ++ bytes.1) results := by
  have positive := bytes.2.1
  have small := bytes.2.2
  have size : bytesRead (ReadResult.block bytes).ret = bytes.1.length := by
    rw [bytesRead, ReadResult.ret, Int.emod_eq_of_lt (by omega) (by simp only [CHUNK_SIZE] at small; omega)]
    rfl
  have front : ((ReadResult.block bytes).fill buffer).1.take bytes.1.length = bytes.1 := List.take_left
  rw [checksumLoop, size, if_pos positive, if_pos (by rw [((ReadResult.block bytes).fill buffer).2]; exact small), front]

theorem checksumLoop_eof : checksumLoop buffer fed (.eof :: results) = .ended fed results := rfl

/-- A failed read counts as 2 ^ 64 - 1 bytes. -/
theorem checksumLoop_error : checksumLoop buffer fed (.error :: results) = .overrun fed (2 ^ 64 - 1) := by
  have size : bytesRead ReadResult.error.ret = 2 ^ 64 - 1 := by decide
  rw [checksumLoop, size, if_pos (by decide), if_neg]
  rw [(ReadResult.error.fill buffer).2]
  decide

/-- What the loop does with any sequence of results: the blocks are fed in order, and then
it waits, ends at the end of the file, or runs out of the buffer at an error. -/
theorem checksumLoop_blocks : checksumLoop buffer fed results =
    match stopsWith results with
    | none => .waiting (fed ++ blocksRead results)
    | some (.error, _) => .overrun (fed ++ blocksRead results) (2 ^ 64 - 1)
    | some (_, unread) => .ended (fed ++ blocksRead results) unread := by
  induction results generalizing buffer fed with
  | nil => simp [checksumLoop, stopsWith, blocksRead]
  | cons result results ih =>
      cases result with
      | block bytes =>
          rw [checksumLoop_block, ih, stopsWith, blocksRead, List.append_assoc]
      | eof => simp [checksumLoop_eof, stopsWith, blocksRead]
      | error => simp [checksumLoop_error, stopsWith, blocksRead]

/-! ### When the checksum is right -/

/-- The first read that yields no block fails. -/
def ReadFails (results : List ReadResult) : Prop := ∃ unread, stopsWith results = some (.error, unread)

/-- The first result that is no block is a 0 or a -1. -/
theorem stopsWith_cases (results : List ReadResult) : stopsWith results = none ∨
    (∃ unread, stopsWith results = some (.eof, unread)) ∨ ReadFails results := by
  induction results with
  | nil => exact .inl rfl
  | cons result results ih =>
      cases result with
      | block bytes => exact ih
      | eof => exact .inr (.inl ⟨results, rfl⟩)
      | error => exact .inr (.inr ⟨results, rfl⟩)

/-- A failed read is not reported: the loop does not even end with it. -/
theorem not_readsRight (fails : ReadFails results) : ¬ ReadsRight libs buffer results := by
  obtain ⟨unread, fails⟩ := fails
  have loop := @checksumLoop_blocks buffer [] results
  unfold ReadsRight
  rw [fails] at loop ⊢
  rintro ⟨ended, -⟩
  dsimp only at loop
  rw [loop] at ended
  cases ended

/-- The checksum of a file is right about a sequence of reads exactly when no read fails
before the end of the file. -/
theorem checksumReads_iff (libs : Externals) (buffer : Buffer) (results : List ReadResult) :
    ReadsRight libs buffer results ↔ ¬ ReadFails results := by
  refine ⟨fun right fails => not_readsRight fails right, fun reads => ?_⟩
  have loop := @checksumLoop_blocks buffer [] results
  unfold ReadsRight
  rcases stopsWith_cases results with waits | ⟨unread, ends⟩ | fails
  · rw [waits] at loop ⊢
    exact loop
  · rw [ends] at loop ⊢
    refine ⟨loop, ?_⟩
    rw [fileChecksumReads, loop]
    rfl
  · exact absurd fails reads

/-- On reads that yield the content of the file and then its end, this is the checksum of
the file. -/
theorem fileChecksumReads_file {faults : Faults} {site : Site} {fs : Fs} {filename : CStr} {bytes : List Byte}
    (opened : perform faults site filename (fs.openRead filename) = .ok (.file bytes))
    (ends : stopsWith results = some (.eof, unread)) (content : blocksRead results = bytes) :
    (fileChecksumReads libs buffer results).map (fun called => called.2.1) =
      fileChecksum faults libs site fs filename := by
  rw [fileChecksumReads, checksumLoop_blocks, ends, fileChecksum, opened, ← content]
  rfl

theorem one_byte : 0 < [(7 : Byte)].length ∧ [(7 : Byte)].length ≤ CHUNK_SIZE := by decide

/-- One byte, and then a failed read. -/
def brokenReads : List ReadResult := [.block ⟨[7], one_byte⟩, .error]

theorem length_cleared : (List.replicate CHUNK_SIZE (0 : Byte)).length = CHUNK_SIZE := List.length_replicate

theorem checksumReads_broken :
    ¬ ReadsRight libraries ⟨List.replicate CHUNK_SIZE 0, length_cleared⟩ brokenReads :=
  not_readsRight ⟨[], rfl⟩

end MiniDropbox
