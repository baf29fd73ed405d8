/-
Resuming an interrupted upload of an unchanged file.

The resume point goes from the session into eight bytes of `UPLOAD_RES`, of which the
client reads one. `uploadResume_iff` says that a resumed upload without failures does
what it should exactly for a resume point below 256; then the chunks exchanged are
those from the resume point on, each once.
-/

import MiniDropbox.StopAndWait
import MiniDropbox.Transfer.Exchange
import MiniDropbox.UploadDeadlock

namespace MiniDropbox

open Transition

namespace Upload

/-- An upload again of a file all of whose chunks lie in it, interrupted before with
`last_transfered_chunk = k`, this time without failure. -/
structure Again (u : Upload) (k : Nat) : Prop where
  interrupted : ∃ session, u.user.sessions.find? (Session.matches .upload u.target) = some session ∧
    session.state = .interrupted ∧ session.lastTransferedChunk = k
  below : k < u.info.chunkCount
  inside : ∀ j < u.info.chunkCount, j * CHUNK_SIZE < u.content.length
  accepted : ∃ old, u.Accepted old
  reads : ∀ j, u.readOk j = true
  writes : ∀ j, u.lost j = 0

/-- The client decodes the `k` the server encoded, and every run over an intact channel
ends with both sides returning 0, after the chunks from `k` on have been sent, each once,
and written, each at its place. -/
def ResumesAt (u : Upload) (k : Nat) : Prop :=
  cmdUploadStart (LittleEndian.encode 8 k) = k ∧
    ∃ old, u.opened = some (k, old) ∧ ∀ sndSched rcvSched,
      EndsIn (u.transfer k).Step (fun l => l.snd.pc = .ret ⟨u.info.chunkCount, 0⟩ ∧
          l.rcv.pc = .ret ⟨u.info.chunkCount, 0⟩ ∧
          l.rcv.writes = (List.range' k (u.info.chunkCount - k)).map fun j =>
            (j * CHUNK_SIZE, (u.content.drop (j * CHUNK_SIZE)).take CHUNK_SIZE))
        ((u.transfer k).initial old sndSched rcvSched 0) ∧
      ∀ sent l, (u.transfer k).Exchange ((u.transfer k).initial old sndSched rcvSched 0) sent l →
        Stuck (u.transfer k).Step l → sent = List.range' k (u.info.chunkCount - k)

variable {u : Upload} {k : Nat}

theorem Again.point (again : u.Again k) : resumePoint u.user u.target = k := by
  obtain ⟨session, found, state, last⟩ := again.interrupted
  rw [resumePoint, found]
  simp only [state, last, if_true]

/-- The sender has every chunk below the count to send. -/
theorem Again.sends_iff (again : u.Again k) (j : Nat) :
    (u.transfer k).Sends j ↔ j < u.info.chunkCount :=
  ⟨fun sends => sends.1, fun below => ⟨below, again.reads j, again.inside j below⟩⟩

/-- A resumed transfer stops at the end of the file. -/
theorem Again.stop {j : Nat} (again : u.Again k) (small : k < 256)
    (reaches : (u.transfer k).Reaches j) (stops : ¬ (u.transfer k).Sends j) :
    j = u.info.chunkCount := by
  have start : (u.transfer k).start = k := by rw [transfer_start, Nat.mod_eq_of_lt small]
  have count : (u.transfer k).count = u.info.chunkCount := rfl
  have bound := reaches.le_max
  have below := again.below
  rw [again.sends_iff] at stops
  rw [start, count] at bound
  omega

/-- At the outcome both sides have returned 0, and the chunks from `k` on are written. -/
theorem Again.outcome {old : List Byte} {j : Nat} {l : Link} (again : u.Again k) (small : k < 256)
    (outcome : (u.transfer k).Outcome old j l) : l.snd.pc = .ret ⟨u.info.chunkCount, 0⟩ ∧
      l.rcv.pc = .ret ⟨u.info.chunkCount, 0⟩ ∧
      l.rcv.writes = (List.range' k (u.info.chunkCount - k)).map fun j =>
        (j * CHUNK_SIZE, (u.content.drop (j * CHUNK_SIZE)).take CHUNK_SIZE) := by
  have start : (u.transfer k).start = k := by rw [transfer_start, Nat.mod_eq_of_lt small]
  have count : (u.transfer k).count = u.info.chunkCount := rfl
  obtain rfl := again.stop small outcome.reaches outcome.stops
  have later : u.info.chunkCount ≠ (u.transfer k).start := by
    rw [start]
    exact Nat.ne_of_gt again.below
  have seq : (u.transfer k).recvSeq u.info.chunkCount = u.info.chunkCount := if_neg later
  have finished := outcome.finished (by rw [seq, count])
  rw [seq] at finished
  refine ⟨?_, finished, ?_⟩
  · rw [outcome.sender, Transfer.sendStats, if_pos (Nat.le_of_eq count)]
  · rw [outcome.writes, Transfer.writes_of_whole again.writes again.inside, start]
    rfl

end Upload

/-- Which resumed uploads are exact: for every file, every resume point below its number of
chunks and every state of the server. -/
theorem uploadResume_iff (u : Upload) (k : Nat) (again : u.Again k) : u.ResumesAt k ↔ k < 256 := by
  constructor
  · rintro ⟨decoded, -⟩
    rw [cmdUploadStart_encode] at decoded
    rw [← decoded]
    exact Nat.mod_lt _ (by decide)
  · intro small
    have start : (u.transfer k).start = k := by rw [Upload.transfer_start, Nat.mod_eq_of_lt small]
    obtain ⟨old, accepted⟩ := again.accepted
    refine ⟨start, old, Upload.opened_iff.mpr ⟨again.point.symm, accepted⟩, fun sndSched rcvSched => ⟨?_, ?_⟩⟩
    · refine (Transfer.transfer_endsIn (u.transfer k) old sndSched rcvSched 0).mono fun l => ?_
      rintro ⟨j, outcome⟩
      exact again.outcome small outcome
    · intro sent l exchange stuck
      obtain ⟨j, outcome, all⟩ := Transfer.exchange_sent exchange stuck
      rw [all, start, again.stop small outcome.reaches outcome.stops]

/-- The two chunks whose upload was cut after the first, sent again. -/
def twoChunksAgain : Upload where
  libs := libraries
  server := cutServer
  addr := 0
  user := cutUser
  token := someToken
  env := default
  name := cstr "/f"
  content := List.replicate 4097 7
  readOk := fun _ => true
  lost := fun _ => 0
  record := cutServer_record
  fits := ⟨by simp [cmdUploadInfo, -List.reduceReplicate], by simp [cmdUploadInfo, -List.reduceReplicate]; decide,
    by decide, by decide⟩
  content_lt := by simp [-List.reduceReplicate]

theorem uploadResume_twoChunks : twoChunksAgain.ResumesAt 1 := by
  have size : twoChunksAgain.content.length = 4097 := List.length_replicate
  have count : twoChunksAgain.info.chunkCount = 2 := by
    change chunkCount twoChunksAgain.content.length = 2
    rw [size]
    decide
  have name : twoChunksAgain.target = cutSession.fileInfo.filename := by decide
  refine (uploadResume_iff twoChunksAgain 1 ⟨⟨cutSession, by decide, rfl, rfl⟩, ?_, ?_, ⟨[7], ?_⟩,
    fun _ => rfl, fun _ => rfl⟩).mpr (by decide)
  · rw [count]
    decide
  · rw [count, size]
    decide
  · exact Upload.accepted_of_opens rfl (by rw [size]; decide) cutServer_facts.2.1
      (by rw [name]; exact cutServer_facts.2.2)

/-- The `FileInfo` of a file of 257 chunks. -/
def manyChunks : FileInfo := ⟨1048577, 257, ⟨List.replicate 32 0, length_zeroed⟩, cstr "/f"⟩

/-- The last chunk but one of such a file, shortened. -/
def lateChunk : List Byte := chunkWire default (sendChunk libraries 255 0 [7])

/-- The server after the upload of that chunk by a peer that disconnects after it. -/
def lateServer : Server :=
  runState libraries (boot [] []) [request .authReq someToken [] [], uploading manyChunks lateChunk .closed]

def lateSession : Session :=
  ⟨.upload, .interrupted, { manyChunks with filename := uploadName libraries someToken manyChunks [] }, 256⟩

def lateUser : User := { userInit someToken with sessions := [lateSession] }

theorem lateServer_facts : lateServer.uman.users[0]? = some lateUser ∧
    lateServer.fs.mkdir (getUserRoot libraries someToken) = .error .EEXIST ∧
      (lateServer.fs.openCreate lateSession.fileInfo.filename).isOk = true := by
  obtain ⟨served, prepared⟩ := @serve_uploading tokenKnown 0 _ manyChunks lateChunk .closed
    ⟨by decide, by decide, by decide, by decide⟩ tokenKnown_lookup tokenKnown_record
  have state : lateServer = ((uploading manyChunks lateChunk .closed).serve libraries tokenKnown).server := by
    rw [lateServer, runState_known]
    simp [runState]
  rw [state, served, handleUpload, prepared]
  decide +kernel

/-- Its upload again. -/
def manyChunksAgain : Upload where
  libs := libraries
  server := lateServer
  addr := 0
  user := lateUser
  token := someToken
  env := default
  name := cstr "/f"
  content := List.replicate 1048577 7
  readOk := fun _ => true
  lost := fun _ => 0
  record := lateServer_facts.1
  fits := ⟨by simp [cmdUploadInfo, -List.reduceReplicate], by simp [cmdUploadInfo, -List.reduceReplicate]; decide,
    by decide, by decide⟩
  content_lt := by simp [-List.reduceReplicate]

theorem manyChunksAgain_again : manyChunksAgain.Again 256 := by
  have size : manyChunksAgain.content.length = 1048577 := List.length_replicate
  have count : manyChunksAgain.info.chunkCount = 257 := by
    change chunkCount manyChunksAgain.content.length = 257
    rw [size]
    decide
  have name : manyChunksAgain.target = lateSession.fileInfo.filename := by decide
  refine ⟨⟨lateSession, by decide, rfl, rfl⟩, ?_, ?_, ?_, fun _ => rfl, fun _ => rfl⟩
  · rw [count]
    decide
  · intro j below
    rw [count] at below
    rw [size]
    simp only [CHUNK_SIZE]
    omega
  · cases opens : lateServer.fs.openCreate manyChunksAgain.target with
    | error errno =>
        rw [name] at opens
        simpa [opens, Except.isOk, Except.toBool] using lateServer_facts.2.2
    | ok found =>
        obtain ⟨fs', place, old⟩ := found
        have opened : (manyChunksAgain.server.fs.openCreate manyChunksAgain.target).map (·.2.2) = .ok old := by
          have server : manyChunksAgain.server = lateServer := by simp only [manyChunksAgain]
          rw [server, opens, Except.map]
        exact ⟨old, Upload.accepted_of_opens rfl (by rw [size]; decide) lateServer_facts.2.1 opened⟩

/-- Its client starts again at chunk 0. -/
theorem uploadResume_manyChunks : ¬ ∀ u k, Upload.Again u k → u.ResumesAt k := by
  intro resumes
  have decoded := (resumes manyChunksAgain 256 manyChunksAgain_again).1
  rw [cmdUploadStart_encode] at decoded
  cases decoded

end MiniDropbox
