/-
Whether a completed upload leaves the client's file on the server.

`file_recv` opens the target without truncating it and writes from the start chunk
on. So the old content stays below the start, beyond the last byte written, and
where a write is cut short everything after it is moved. `uploadIntegrity_iff` says
when what results is nevertheless the file sent.
-/

import MiniDropbox.Upload

namespace MiniDropbox

open Transition

namespace Upload

variable (u : Upload)

/-- In every run in which `file_recv` returns 0 the stored bytes are the client's. -/
def KeepsContent : Prop :=
  ∀ seq old, u.opened = some (seq, old) → ∀ sndSched rcvSched budget l q,
    Reachable (u.transfer seq).Step ((u.transfer seq).initial old sndSched rcvSched budget) l →
      l.rcv.pc = .ret ⟨q, 0⟩ → l.rcv.file = u.content

/-- The bytes the writes store from the start chunk on, when every chunk is transferred:
each chunk of the file without what its write leaves out. -/
def stored : List Byte :=
  (List.range' u.start (u.info.chunkCount - u.start)).flatMap fun j =>
    let segment := (u.content.drop (j * CHUNK_SIZE)).take CHUNK_SIZE
    segment.take (segment.length - u.lost j)

/-- An old content into which the stored bytes fit: it is the file already, if nothing is
stored; otherwise they are the file's from the start chunk on, and the old content is
no longer than the file, agrees with it below them, and equals it beyond them. -/
def Fitting (old : List Byte) : Prop :=
  if u.stored = [] then old = u.content
  else (u.content.drop (u.start * CHUNK_SIZE)).take u.stored.length = u.stored ∧
    (∀ i < u.start * CHUNK_SIZE, old.getD i 0 = u.content.getD i 0) ∧
      old.length ≤ u.content.length ∧
        old.drop (u.start * CHUNK_SIZE + u.stored.length) =
          u.content.drop (u.start * CHUNK_SIZE + u.stored.length)

variable {u}

/-- The file at the end of a completed transfer is the client's exactly for a fitting
old content. -/
theorem fileAt_eq_iff {old : List Byte} :
    (u.transfer (resumePoint u.user u.target)).fileAt old u.info.chunkCount = u.content ↔
      u.Fitting old := by
  have stored : (u.transfer (resumePoint u.user u.target)).stored u.info.chunkCount = u.stored := by
    rw [Transfer.stored, transfer_start]
    rfl
  rw [Transfer.fileAt, stored, transfer_start, Fitting, start]
  split_ifs with nothing
  · rw [nothing, Splice.splice_nil]
  · exact Splice.splice_eq_iff nothing

end Upload

/-- Which uploads leave the client's file: for every state of the server, with every
history of its sessions and every content of the target, and for every file. -/
theorem uploadIntegrity_iff (u : Upload) :
    u.KeepsContent ↔ ∀ old, u.Accepted old → u.Covers → u.Fitting old := by
  constructor
  · intro keeps old accepted covers
    have completes := Upload.completes_iff.mpr covers
    obtain ⟨l, reach, q, returned⟩ :=
      (@Transfer.endsIn_of_completes _ old [] [] 0 completes).exists_final
    rw [← Upload.fileAt_eq_iff, ← keeps _ old (Upload.opened_iff.mpr ⟨rfl, accepted⟩) [] [] 0 l q reach
      returned]
    exact (Transfer.completes_of_returned reach returned).2.symm
  · intro fitting seq old opened sndSched rcvSched budget l q reach returned
    obtain ⟨rfl, accepted⟩ := Upload.opened_iff.mp opened
    obtain ⟨completes, file⟩ := Transfer.completes_of_returned reach returned
    rw [file]
    exact Upload.fileAt_eq_iff.mpr (fitting old accepted (Upload.completes_iff.mp completes))

/-- The `FileInfo` of a file of two bytes. -/
def twoBytes : FileInfo := ⟨2, 1, ⟨List.replicate 32 0, length_zeroed⟩, cstr "/f"⟩

theorem twoBytes_fits : twoBytes.Fits := ⟨by decide, by decide, by decide, by decide⟩

/-- Its only chunk. -/
def onlyChunk : List Byte := chunkWire default (sendChunk libraries 0 0 [1, 2])

/-- The server after its upload has completed. -/
def keptServer : Server :=
  runState libraries (boot [] []) [request .authReq someToken [] [], uploading twoBytes onlyChunk .opened]

theorem keptServer_facts : keptServer.uman.users[0]? = some (userInit someToken) ∧
    keptServer.fs.mkdir (getUserRoot libraries someToken) = .error .EEXIST ∧
      (keptServer.fs.openCreate (uploadName libraries someToken twoBytes [])).map (·.2.2) = .ok [1, 2] := by
  obtain ⟨served, prepared⟩ := @serve_uploading tokenKnown 0 _ twoBytes onlyChunk .opened twoBytes_fits
    tokenKnown_lookup tokenKnown_record
  have state : keptServer = ((uploading twoBytes onlyChunk .opened).serve libraries tokenKnown).server := by
    rw [keptServer, runState_known]
    simp [runState]
  rw [state, served, handleUpload, prepared]
  decide +kernel

/-- A file of one byte, uploaded to the same path. -/
def overwriting : Upload where
  libs := libraries
  server := keptServer
  addr := 0
  user := userInit someToken
  token := someToken
  env := default
  name := cstr "/f"
  content := [9]
  readOk := fun _ => true
  lost := fun _ => 0
  record := keptServer_facts.1
  fits := oneByte_fits
  content_lt := oneByte_lt

/-- It is stored with the last byte of the old file behind it. -/
theorem uploadIntegrity_overwriting : ¬ overwriting.KeepsContent := by
  intro keeps
  have name : overwriting.target = uploadName libraries someToken twoBytes [] := by decide
  have accepted : overwriting.Accepted [1, 2] :=
    Upload.accepted_of_opens rfl (by decide) keptServer_facts.2.1 (by rw [name]; exact keptServer_facts.2.2)
  have covers : overwriting.Covers := by
    refine .inr ⟨by decide, fun j _ below => ?_⟩
    have only : j = 0 := Nat.lt_one_iff.mp below
    rw [only]
    exact ⟨rfl, by decide⟩
  obtain ⟨l, reach, q, returned⟩ := (@Transfer.endsIn_of_completes _ [1, 2] [] [] 0
    (Upload.completes_iff.mpr covers)).exists_final
  have file := keeps _ [1, 2] (Upload.opened_iff.mpr ⟨rfl, accepted⟩) [] [] 0 l q reach returned
  rw [(Transfer.completes_of_returned reach returned).2] at file
  revert file
  decide

end MiniDropbox
