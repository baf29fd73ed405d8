/-
When an upload hangs: the client has sent its last chunk and waits for
`UPLOAD_FIN`, the server waits for another chunk, and nothing is in flight.

The two sides count for themselves. The client starts at the resume point, and sends
nothing if that is not below its `chunk_count`; the server counts from 0 to the same
`chunk_count` and learns the start from the first chunk. So a resume point left by a
longer upload to the same path is enough (`uploadDeadlock_retried`), and
`uploadDeadlock_iff` says exactly when no run hangs.
-/

import MiniDropbox.Upload

namespace MiniDropbox

open Transition

namespace Upload

/-- No run of the upload, however the bytes arrive, comes to a deadlock. -/
def NeverDeadlocks (u : Upload) : Prop :=
  ∀ seq old, u.opened = some (seq, old) → ∀ sndSched rcvSched budget l,
    Reachable (u.transfer seq).Step ((u.transfer seq).initial old sndSched rcvSched budget) l →
      ¬ (u.transfer seq).Deadlock l

end Upload

/-- Which uploads never hang: for every state of the server, in particular every resume
point left in the session table, every file and every run of the transfer. -/
theorem uploadDeadlock_iff (u : Upload) :
    u.NeverDeadlocks ↔ ((∃ old, u.Accepted old) → u.Covers) := by
  constructor
  · rintro never ⟨old, accepted⟩
    rw [← Upload.completes_iff]
    by_contra stuck
    obtain ⟨l, reach, deadlock⟩ :=
      (@Transfer.deadlock_iff (u.transfer (resumePoint u.user u.target)) old [] [] 0 rfl).mpr stuck
    exact never _ old (Upload.opened_iff.mpr ⟨rfl, accepted⟩) [] [] 0 l reach deadlock
  · intro enough seq old opened sndSched rcvSched budget l reach deadlock
    obtain ⟨rfl, accepted⟩ := Upload.opened_iff.mp opened
    exact (Transfer.deadlock_iff rfl).mp ⟨l, reach, deadlock⟩
      (Upload.completes_iff.mpr (enough ⟨old, accepted⟩))

/-- The `FileInfo` of a file of two chunks. -/
def twoChunks : FileInfo := ⟨4097, 2, ⟨List.replicate 32 0, length_zeroed⟩, cstr "/f"⟩

theorem twoChunks_fits : twoChunks.Fits := ⟨by decide, by decide, by decide, by decide⟩

/-- The first of its chunks, shortened. -/
def firstChunk : List Byte := chunkWire default (sendChunk libraries 0 0 [7])

/-- The server after the upload of such a file by a peer that disconnects after it. -/
def cutServer : Server :=
  runState libraries (boot [] []) [request .authReq someToken [] [], uploading twoChunks firstChunk .closed]

/-- The session the upload has left. -/
def cutSession : Session :=
  ⟨.upload, .interrupted, { twoChunks with filename := uploadName libraries someToken twoChunks [] }, 1⟩

def cutUser : User := { userInit someToken with sessions := [cutSession] }

theorem cutServer_facts : cutServer.uman.users[0]? = some cutUser ∧
    cutServer.fs.mkdir (getUserRoot libraries someToken) = .error .EEXIST ∧
      (cutServer.fs.openCreate cutSession.fileInfo.filename).map (·.2.2) = .ok [7] := by
  obtain ⟨served, prepared⟩ := @serve_uploading tokenKnown 0 _ twoChunks firstChunk .closed twoChunks_fits
    tokenKnown_lookup tokenKnown_record
  have state : cutServer = ((uploading twoChunks firstChunk .closed).serve libraries tokenKnown).server := by
    rw [cutServer, runState_known]
    simp [runState]
  rw [state, served, handleUpload, prepared]
  decide +kernel

theorem cutServer_record : cutServer.uman.users[0]? = some cutUser := cutServer_facts.1

/-- A file of one byte, uploaded to the same path. -/
def retried : Upload where
  libs := libraries
  server := cutServer
  addr := 0
  user := cutUser
  token := someToken
  env := default
  name := cstr "/f"
  content := [9]
  readOk := fun _ => true
  lost := fun _ => 0
  record := cutServer_record
  fits := oneByte_fits
  content_lt := oneByte_lt

/-- Its client is told to start at chunk 1 of 1. -/
theorem uploadDeadlock_retried : ¬ retried.NeverDeadlocks := by
  intro never
  have name : retried.target = cutSession.fileInfo.filename := by decide
  have point : resumePoint retried.user retried.target = 1 := by decide
  have accepted : retried.Accepted [7] :=
    Upload.accepted_of_opens rfl (by decide) cutServer_facts.2.1 (by rw [name]; exact cutServer_facts.2.2)
  have stuck : ¬ (retried.transfer 1).Completes := by
    rintro (nothing | ⟨below, -⟩)
    · revert nothing
      decide
    · revert below
      decide
  obtain ⟨l, reach, deadlock⟩ := (@Transfer.deadlock_iff (retried.transfer 1) [7] [] [] 0 rfl).mpr stuck
  exact never 1 [7] (Upload.opened_iff.mpr ⟨point.symm, accepted⟩) [] [] 0 l reach deadlock

end MiniDropbox
