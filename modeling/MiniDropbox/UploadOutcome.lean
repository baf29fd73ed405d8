/-
How `handle_upload` reports the outcome of a transfer.

`file_recv` gives up in two ways: the connection fails (`-1`, `-2`), or the peer's
messages make no sense to it (`-3`, `-4`). `handle_upload` tests only the first two
codes, so a derailed transfer is answered with `UPLOAD_FIN` and its session is
removed. `recvLoop_derails` and `recvLoop_disconnects` read the two ways off the
states the loop passes through; `uploadOutcome_iff` says for every run of the
server when all its uploads are reported as they went.
-/

import MiniDropbox.Edits
import MiniDropbox.Lib.Counted

namespace MiniDropbox

/-! ### How `file_recv` ends -/

section Receiving

variable (libs : Externals) (count : Nat)

/-- The states in which the loop of `file_recv` takes a step, with the system calls of
the step. -/
def recvTrace (sys : Nat → RecvSys) : Nat → RecvState → List (RecvSys × RecvState)
  | 0, _ => []
  | fuel + 1, s =>
      match recvStep libs count (sys fuel) s with
      | none => []
      | some (next, _) => (sys fuel, s) :: recvTrace sys fuel next

/-- An intact chunk that is not the expected one, and by which the receiver cannot move
its start either. -/
def OutOfPlace (sys : RecvSys) (seq received : Nat) : Prop :=
  received ≠ seq ∧ (seq = 0 → sys.lseekFails = true ∨ offT (received * CHUNK_SIZE) = none)

/-- The peer's next message makes no sense: it is shorter than a chunk header, or
carries a chunk out of place. -/
def Derails (x : RecvSys × RecvState) : Prop :=
  ∃ seq, x.2.pc = .top seq ∧ seq < count ∧
    ((∃ hdr rest, msgRecvHeader x.2.sock = .ok hdr rest ∧ hdr.length < sizeofChunkHdr) ∨
      ∃ n chunk rest, chunkRecv libs x.1.junk x.2.sock = .ok n chunk rest ∧
        OutOfPlace x.1 seq chunk.hdr.seq)

/-- The connection fails: no whole header comes any more, or a reply cannot be sent. -/
def Disconnects (x : RecvSys × RecvState) : Prop :=
  (∃ seq, x.2.pc = .top seq ∧ seq < count ∧ ∃ ret rest, msgRecvHeader x.2.sock = .fail ret rest) ∨
    ((∃ seq, x.2.pc = .again seq) ∨ ∃ seq chunk, x.2.pc = .ok seq chunk) ∧ x.1.sent ≠ .ok

variable {libs count}

theorem msgRecvHeader_fail {sock rest : Sock} {ret : Int} (failed : msgRecvHeader sock = .fail ret rest) :
    ret = -1 ∨ ret = -2 := by
  by_cases short : sock.rx.length < sizeofMessageHdr
  · obtain ⟨sched, received⟩ := msgRecvHeader_of_lt short
    rw [received] at failed
    cases fin : sock.fin with
    | opened =>
        rw [fin] at failed
        cases failed
    | closed =>
        rw [fin] at failed
        cases failed
        exact .inr rfl
    | failed =>
        rw [fin] at failed
        cases failed
        exact .inl rfl
  · obtain ⟨sched, received⟩ := recvAll_of_le (Nat.le_of_not_lt short)
    rw [msgRecvHeader, received] at failed
    cases failed

theorem chunkCheck_fail {memory : Nat → Byte} {readable length : Nat} {sock rest : Sock} {ret : Int}
    (refused : chunkCheck libs memory readable length sock = .fail ret rest) : ret = -3 := by
  unfold chunkCheck at refused
  dsimp only at refused
  split_ifs at refused
  cases refused
  rfl

/-- Where the error codes of `chunk_recv` come from. -/
theorem chunkRecv_fail {junk : Junk} {sock rest : Sock} {ret : Int}
    (failed : chunkRecv libs junk sock = .fail ret rest) :
    ret = -3 ∨
    ret = -4 ∧ (∃ hdr rest', msgRecvHeader sock = .ok hdr rest' ∧ hdr.length < sizeofChunkHdr) ∨
    (ret = -1 ∨ ret = -2) ∧ msgRecvHeader sock = .fail ret rest := by
  unfold chunkRecv at failed
  cases header : msgRecvHeader sock with
  | blocked =>
      rw [header] at failed
      cases failed
  | fail code rest' =>
      rw [header] at failed
      cases failed
      exact .inr (.inr ⟨msgRecvHeader_fail header, rfl⟩)
  | ok hdr rest' =>
      rw [header] at failed
      dsimp only at failed
      split_ifs at failed with short long
      · cases failed
        exact .inr (.inl ⟨rfl, hdr, _, rfl, short⟩)
      · split at failed
        · cases failed
        · exact .inl (chunkCheck_fail failed)
        · exact .inl (chunkCheck_fail failed)

/-- `chunk_recv` returns `-4` exactly for a message shorter than a chunk header. -/
theorem chunkRecv_short_iff {junk : Junk} {sock : Sock} :
    (∃ rest, chunkRecv libs junk sock = .fail (-4) rest) ↔
      ∃ hdr rest, msgRecvHeader sock = .ok hdr rest ∧ hdr.length < sizeofChunkHdr := by
  constructor
  · rintro ⟨rest, failed⟩
    rcases chunkRecv_fail failed with code | ⟨-, short⟩ | ⟨code | code, -⟩
    · cases code
    · exact short
    · cases code
    · cases code
  · rintro ⟨hdr, rest, header, short⟩
    exact ⟨rest, by simp [chunkRecv, header, short]⟩

/-- `chunk_recv` returns `-1` or `-2` exactly when no whole header comes any more. -/
theorem chunkRecv_cut_iff {junk : Junk} {sock : Sock} :
    (∃ ret rest, chunkRecv libs junk sock = .fail ret rest ∧ (ret = -1 ∨ ret = -2)) ↔
      ∃ ret rest, msgRecvHeader sock = .fail ret rest := by
  constructor
  · rintro ⟨ret, rest, failed, code⟩
    rcases chunkRecv_fail failed with rfl | ⟨rfl, -⟩ | ⟨-, header⟩
    · rcases code with code | code <;> cases code
    · rcases code with code | code <;> cases code
    · exact ⟨ret, rest, header⟩
  · rintro ⟨ret, rest, header⟩
    exact ⟨ret, rest, by simp [chunkRecv, header], msgRecvHeader_fail header⟩

/-- The state is a return with such an error code. -/
def EndsBy (codes : Int → Prop) (s : RecvState) : Prop :=
  ∃ stats, s.pc = .ret stats ∧ codes stats.errorCode

/-- A checked chunk ends the loop exactly when it is out of place. -/
theorem recvAccept_ret_iff {sys : RecvSys} {s : RecvState} {seq : Nat} {chunk : Chunk} {rest : Sock}
    {codes : Int → Prop} : EndsBy codes (recvAccept sys s seq chunk rest) ↔
      OutOfPlace sys seq chunk.hdr.seq ∧ (if seq = 0 then codes (-3) else codes (-4)) := by
  unfold recvAccept OutOfPlace EndsBy
  by_cases first : seq = 0
  · subst first
    cases received : chunk.hdr.seq with
    | zero => simp
    | succ k =>
        cases fails : sys.lseekFails with
        | true => simp
        | false =>
            cases pos : offT ((k + 1) * CHUNK_SIZE) with
            | none => simp
            | some pos => simp
  · by_cases expected : seq = chunk.hdr.seq
    · simp [← expected, first]
    · simp [expected, first, Ne.symm expected]

/-- One step of `file_recv` returns `-3` or `-4` exactly where the peer derails it. -/
theorem recvStep_derails {sys : RecvSys} {s : RecvState} :
    Derails libs count (sys, s) ↔ ∃ next out, recvStep libs count sys s = some (next, out) ∧
      EndsBy (fun code => code = -3 ∨ code = -4) next := by
  cases pc : s.pc with
  | top seq =>
      simp only [Derails, pc, RecvPc.top.injEq, exists_eq_left', recvStep]
      rw [← @chunkRecv_short_iff libs sys.junk]
      by_cases more : seq < count
      · simp only [more, if_true, true_and]
        cases chunkRecv libs sys.junk s.sock with
        | blocked => simp
        | fault => simp [EndsBy]
        | fail ret rest =>
            by_cases again : ret = -3
            · simp [again, EndsBy]
            · simp [again, EndsBy]
        | ok n chunk rest =>
            have ends := @recvAccept_ret_iff sys s seq chunk rest fun code => code = -3 ∨ code = -4
            simp only [reduceCtorEq, exists_false, false_or, ChunkRecv.ok.injEq, Option.some.injEq,
              Prod.mk.injEq]
            constructor
            · rintro ⟨_, _, _, ⟨rfl, rfl, rfl⟩, place⟩
              exact ⟨_, [], ⟨rfl, rfl⟩, ends.mpr ⟨place, by split_ifs <;> simp⟩⟩
            · rintro ⟨_, _, ⟨rfl, rfl⟩, returned⟩
              exact ⟨n, chunk, rest, ⟨rfl, rfl, rfl⟩, (ends.mp returned).1⟩
      · simp [more, EndsBy]
  | again seq =>
      cases sent : sys.sent with
      | ok => simp [Derails, recvStep, pc, EndsBy, sent, SendRet.code]
      | error => simp [Derails, recvStep, pc, EndsBy, sent, SendRet.code]
      | disconnected => simp [Derails, recvStep, pc, EndsBy, sent, SendRet.code]
  | ok seq chunk =>
      cases sent : sys.sent with
      | ok => simp [Derails, recvStep, pc, EndsBy, sent, SendRet.code]
      | error => simp [Derails, recvStep, pc, EndsBy, sent, SendRet.code]
      | disconnected => simp [Derails, recvStep, pc, EndsBy, sent, SendRet.code]
  | write seq chunk => simp [Derails, recvStep, pc, EndsBy]
  | ret stats => simp [Derails, recvStep, pc]
  | fault => simp [Derails, recvStep, pc]

/-- One step of `file_recv` returns `-1` or `-2` exactly where the connection fails. -/
theorem recvStep_disconnects {sys : RecvSys} {s : RecvState} :
    Disconnects count (sys, s) ↔ ∃ next out, recvStep libs count sys s = some (next, out) ∧
      EndsBy (fun code => code = -1 ∨ code = -2) next := by
  cases pc : s.pc with
  | top seq =>
      simp only [Disconnects, pc, RecvPc.top.injEq, exists_eq_left', recvStep, reduceCtorEq,
        exists_false, or_self, false_and, or_false]
      rw [← @chunkRecv_cut_iff libs sys.junk]
      by_cases more : seq < count
      · simp only [more, if_true, true_and]
        cases chunkRecv libs sys.junk s.sock with
        | blocked => simp
        | fault => simp [EndsBy]
        | fail ret rest =>
            by_cases again : ret = -3
            · simp [again, EndsBy]
            · simp [again, EndsBy]
        | ok n chunk rest =>
            have ends := @recvAccept_ret_iff sys s seq chunk rest fun code => code = -1 ∨ code = -2
            simp only [reduceCtorEq, false_and, exists_false, Option.some.injEq, Prod.mk.injEq,
              false_iff, not_exists, not_and]
            rintro _ _ ⟨rfl, rfl⟩ returned
            have codes := (ends.mp returned).2
            split_ifs at codes <;> simp at codes
      · simp [more, EndsBy]
  | again seq =>
      cases sent : sys.sent with
      | ok => simp [Disconnects, recvStep, pc, EndsBy, sent, SendRet.code]
      | error => simp [Disconnects, recvStep, pc, EndsBy, sent, SendRet.code]
      | disconnected => simp [Disconnects, recvStep, pc, EndsBy, sent, SendRet.code]
  | ok seq chunk =>
      cases sent : sys.sent with
      | ok => simp [Disconnects, recvStep, pc, EndsBy, sent, SendRet.code]
      | error => simp [Disconnects, recvStep, pc, EndsBy, sent, SendRet.code]
      | disconnected => simp [Disconnects, recvStep, pc, EndsBy, sent, SendRet.code]
  | write seq chunk => simp [Disconnects, recvStep, pc, EndsBy]
  | ret stats => simp [Disconnects, recvStep, pc]
  | fault => simp [Disconnects, recvStep, pc]

/-- One step of `file_recv`, by what it meets. -/
inductive RecvMoves (libs : Externals) (count : Nat) (sys : RecvSys) (s : RecvState) : RecvState → List Byte → Prop where
  | done {seq : Nat} : s.pc = .top seq → count ≤ seq → RecvMoves libs count sys s { s with pc := .ret ⟨seq, 0⟩ } []
  | garbled {seq : Nat} : s.pc = .top seq → seq < count → chunkRecv libs sys.junk s.sock = .fault →
      RecvMoves libs count sys s { s with pc := .fault } []
  | refused {seq : Nat} {rest : Sock} : s.pc = .top seq → seq < count → chunkRecv libs sys.junk s.sock = .fail (-3) rest →
      RecvMoves libs count sys s { s with pc := .again seq, sock := rest } []
  | failed {seq : Nat} {ret : Int} {rest : Sock} : s.pc = .top seq → seq < count →
      chunkRecv libs sys.junk s.sock = .fail ret rest → ret ≠ -3 →
      RecvMoves libs count sys s { s with pc := .ret ⟨seq, ret⟩, sock := rest } []
  | received {seq n : Nat} {chunk : Chunk} {rest : Sock} : s.pc = .top seq → seq < count →
      chunkRecv libs sys.junk s.sock = .ok n chunk rest → RecvMoves libs count sys s (recvAccept sys s seq chunk rest) []
  | unasked {seq : Nat} : s.pc = .again seq → sys.sent.code < 0 →
      RecvMoves libs count sys s { s with pc := .ret ⟨seq, sys.sent.code⟩ } []
  | asked {seq : Nat} : s.pc = .again seq → ¬ sys.sent.code < 0 →
      RecvMoves libs count sys s { s with pc := .top seq } (msgWire sys.stamp .chunkAgain [] [])
  | unacknowledged {seq : Nat} {chunk : Chunk} : s.pc = .ok seq chunk → sys.sent.code < 0 →
      RecvMoves libs count sys s { s with pc := .ret ⟨seq, sys.sent.code⟩ } []
  | acknowledged {seq : Nat} {chunk : Chunk} : s.pc = .ok seq chunk → ¬ sys.sent.code < 0 →
      RecvMoves libs count sys s { s with pc := .write seq chunk } (msgWire sys.stamp .chunkOk [] [])
  | written {seq : Nat} {chunk : Chunk} {stored : List Byte} : s.pc = .write seq chunk →
      stored = chunk.data.take (chunk.data.length - sys.lost) →
      RecvMoves libs count sys s { s with
        pc := .top (sizeT (seq + 1)), pos := s.pos + stored.length, file := Splice.splice 0 s.file s.pos stored,
        writes := s.writes ++ [(s.pos, chunk.data)] } []

theorem recvStep_moves {sys : RecvSys} {s next : RecvState} {out : List Byte}
    (step : recvStep libs count sys s = some (next, out)) : RecvMoves libs count sys s next out := by
  cases pc : s.pc with
  | top seq =>
      simp only [recvStep, pc] at step
      by_cases more : seq < count
      · rw [if_pos more] at step
        cases received : chunkRecv libs sys.junk s.sock with
        | blocked => rw [received] at step; cases step
        | fault =>
            rw [received] at step
            cases step
            exact .garbled pc more received
        | fail ret rest =>
            rw [received] at step
            dsimp only at step
            by_cases again : ret = -3
            · rw [if_pos again] at step
              cases step
              exact .refused pc more (again ▸ received)
            · rw [if_neg again] at step
              cases step
              exact .failed pc more received again
        | ok n chunk rest =>
            rw [received] at step
            cases step
            exact .received pc more received
      · rw [if_neg more] at step
        cases step
        exact .done pc (Nat.le_of_not_lt more)
  | again seq =>
      simp only [recvStep, pc] at step
      by_cases fails : sys.sent.code < 0
      · rw [if_pos fails] at step
        cases step
        exact .unasked pc fails
      · rw [if_neg fails] at step
        cases step
        exact .asked pc fails
  | ok seq chunk =>
      simp only [recvStep, pc] at step
      by_cases fails : sys.sent.code < 0
      · rw [if_pos fails] at step
        cases step
        exact .unacknowledged pc fails
      · rw [if_neg fails] at step
        cases step
        exact .acknowledged pc fails
  | write seq chunk =>
      simp only [recvStep, pc] at step
      cases step
      exact .written pc rfl
  | ret stats =>
      simp only [recvStep, pc] at step
      cases step
  | fault =>
      simp only [recvStep, pc] at step
      cases step

/-- The error codes one step of `file_recv` returns. -/
theorem recvStep_code {sys : RecvSys} {s next : RecvState} {out : List Byte} {stats : FileRecvStats}
    (step : recvStep libs count sys s = some (next, out)) (returned : next.pc = .ret stats) :
    stats.errorCode = 0 ∨ (stats.errorCode = -3 ∨ stats.errorCode = -4) ∨
      (stats.errorCode = -1 ∨ stats.errorCode = -2) := by
  have replied : ∀ {q : Nat}, sys.sent.code < 0 → (⟨q, sys.sent.code⟩ : FileRecvStats) = stats →
      stats.errorCode = -1 ∨ stats.errorCode = -2 := by
    rintro q failed rfl
    cases sent : sys.sent with
    | ok => rw [sent] at failed; cases failed
    | error => exact .inl rfl
    | disconnected => exact .inr rfl
  cases recvStep_moves step with
  | done => cases returned; exact .inl rfl
  | garbled => cases returned
  | refused => cases returned
  | failed pc more broken other =>
      cases returned
      rcases chunkRecv_fail broken with code | ⟨code, -⟩ | ⟨code, -⟩
      · exact absurd code other
      · exact .inr (.inl (.inr code))
      · exact .inr (.inr code)
  | received pc more received =>
      have code := ((@recvAccept_ret_iff _ _ _ _ _ (· = stats.errorCode)).mp ⟨stats, returned, rfl⟩).2
      split_ifs at code
      · exact .inr (.inl (.inl code.symm))
      · exact .inr (.inl (.inr code.symm))
  | unasked pc fails =>
      cases returned
      exact .inr (.inr (replied fails rfl))
  | asked => cases returned
  | unacknowledged pc fails =>
      cases returned
      exact .inr (.inr (replied fails rfl))
  | acknowledged => cases returned
  | written => cases returned

theorem recvLoop_final {sys : Nat → RecvSys} {fuel : Nat} {s : RecvState} :
    (recvLoop libs count sys fuel s).1 = Counted.final (recvStep libs count) sys fuel s := by
  induction fuel generalizing s with
  | zero => rfl
  | succ fuel ih =>
      rw [recvLoop, Counted.final]
      cases recvStep libs count (sys fuel) s with
      | none => rfl
      | some move => exact ih

theorem recvTrace_eq {sys : Nat → RecvSys} {fuel : Nat} {s : RecvState} :
    recvTrace libs count sys fuel s = Counted.trace (recvStep libs count) sys fuel s := by
  induction fuel generalizing s with
  | zero => rfl
  | succ fuel ih =>
      rw [recvTrace, Counted.trace]
      cases recvStep libs count (sys fuel) s with
      | none => rfl
      | some move => exact congrArg _ ih

/-- The loop ends by such a code exactly when one of its steps does. -/
theorem recvLoop_endsBy {codes : Int → Prop} {P : RecvSys × RecvState → Prop}
    (ends : ∀ sys s, P (sys, s) ↔ ∃ next out, recvStep libs count sys s = some (next, out) ∧
      EndsBy codes next)
    {sys : Nat → RecvSys} {fuel : Nat} {s : RecvState} (running : ∀ stats, s.pc ≠ .ret stats) :
    EndsBy codes (recvLoop libs count sys fuel s).1 ↔ ∃ x ∈ recvTrace libs count sys fuel s, P x := by
  have stuck : ∀ s, EndsBy codes s → ∀ i, recvStep libs count i s = none := by
    rintro s ⟨stats, returned, -⟩ i
    simp [recvStep, returned]
  rw [recvLoop_final, recvTrace_eq]
  exact Counted.final_iff stuck ends fun ⟨stats, returned, _⟩ => running stats returned

end Receiving

/-! ### Sessions in place -/

/-- A change that leaves what a session is found by leaves the places of the table. -/
theorem userGetSession_modify {user : User} {type : SessionType} {filename : CStr} {i : Nat}
    {f : Session → Session} (same : ∀ s, (f s).matches type filename = s.matches type filename) :
    userGetSession { user with sessions := user.sessions.modify i f } type filename =
      userGetSession user type filename := by
  have shown : ∀ l : List Session, l.findIdx? (Session.matches type filename) =
      (l.map (Session.matches type filename)).findIdx? id := by
    intro l
    rw [List.findIdx?_map]
    rfl
  have marks : (user.sessions.modify i f).map (Session.matches type filename) =
      user.sessions.map (Session.matches type filename) := by
    apply List.ext_getElem?
    intro j
    rw [List.getElem?_map, List.getElem?_map, List.getElem?_modify]
    cases user.sessions[j]? with
    | none => rfl
    | some s =>
        by_cases here : i = j
        · simp [here, same]
        · simp [here]
  rw [userGetSession, userGetSession, shown, shown, marks]

/-- The user has an upload session for the path. -/
def HasUpload (server : Server) (addr : Nat) (filename : CStr) : Prop :=
  ∃ user, server.uman.users[addr]? = some user ∧ (userGetSession user .upload filename).isSome

/-- The user's upload session for the path is interrupted. -/
def Interrupted (server : Server) (addr : Nat) (filename : CStr) : Prop :=
  ∃ user i session, server.uman.users[addr]? = some user ∧
    userGetSession user .upload filename = some i ∧ user.sessions[i]? = some session ∧
      session.state = .interrupted

/-- The user has a session for the path, or room for one. -/
def TableHolds (server : Server) (addr : Nat) (filename : CStr) : Prop :=
  HasUpload server addr filename ∨
    ∃ user, server.uman.users[addr]? = some user ∧ user.sessions.length < user.sessionsCapacity

/-- The session of an upload: the one there is, a new one, or none. -/
inductive UploadSession (user : User) (info : FileInfo) : User → Option Nat → Prop
  | found {i : Nat} : userGetSession user .upload info.filename = some i → UploadSession user info user (some i)
  | added : userGetSession user .upload info.filename = none → user.sessions.length < user.sessionsCapacity →
      UploadSession user info { user with sessions := user.sessions ++ [sessionInit info .upload] } (some user.sessions.length)
  | full : userGetSession user .upload info.filename = none → user.sessions.length ≥ user.sessionsCapacity →
      UploadSession user info user none

theorem uploadSession_cases {user next : User} {info : FileInfo} {place : Option Nat} {seq : Nat}
    (made : uploadSession user info = (next, place, seq)) : UploadSession user info next place := by
  unfold uploadSession at made
  cases found : userGetSession user .upload info.filename with
  | some i =>
      rw [found] at made
      dsimp only at made
      split at made
      · cases made
        exact .found found
      · cases made
        exact .found found
  | none =>
      rw [found] at made
      by_cases full : user.sessions.length ≥ user.sessionsCapacity
      · simp only [userAddSession, if_pos full] at made
        cases made
        exact .full found full
      · simp only [userAddSession, if_neg full, if_true] at made
        cases made
        rw [List.length_append, List.length_singleton, Nat.add_sub_cancel]
        exact .added found (Nat.lt_of_not_le full)

theorem matches_sessionInit {info : FileInfo} : (sessionInit info .upload).matches .upload info.filename = true := by
  simp [Session.matches, sessionInit]

/-- The session `handle_upload` works with is the one found under the path afterwards,
and there is one if the table holds it. -/
theorem uploadSession_place {user next : User} {info : FileInfo} {place : Option Nat} {seq : Nat}
    (made : uploadSession user info = (next, place, seq)) :
    place = userGetSession next .upload info.filename ∧
      (∀ filename, (userGetSession user .upload filename).isSome →
        (userGetSession next .upload filename).isSome) ∧
      (place.isSome ↔ (userGetSession user .upload info.filename).isSome ∨
        user.sessions.length < user.sessionsCapacity) := by
  cases uploadSession_cases made with
  | found here => exact ⟨here.symm, fun _ has => has, by simp [here]⟩
  | full missing none => exact ⟨missing.symm, fun _ has => has, by simp [missing, Nat.not_lt.mpr none]⟩
  | added missing room =>
      refine ⟨?_, fun filename has => ?_, by simp [room]⟩
      · rw [userGetSession] at missing
        simp [userGetSession, List.findIdx?_append, missing, matches_sessionInit]
      · rw [userGetSession] at has ⊢
        obtain ⟨i, hit⟩ := Option.isSome_iff_exists.mp has
        simp [List.findIdx?_append, hit]

@[simp] theorem modifyUser_users (server : Server) (addr : Nat) (f : User → User) :
    (server.modifyUser addr f).uman.users[addr]? = server.uman.users[addr]?.map f := by
  simp [Server.modifyUser]

/-- A change of the handler's session does not move sessions, and shows in the session
found under the handler's path. -/
theorem modifySession_record {server : Server} {addr : Nat} {place : Option Nat} {f : Session → Session}
    {user : User} (same : ∀ type filename s, (f s).matches type filename = s.matches type filename)
    (record : server.uman.users[addr]? = some user) :
    ∃ next, (server.modifySession addr place f).uman.users[addr]? = some next ∧
      (∀ type filename, userGetSession next type filename = userGetSession user type filename) ∧
      next.sessions = match place with
        | none => user.sessions
        | some i => user.sessions.modify i f := by
  cases place with
  | none => exact ⟨user, record, fun _ _ => rfl, rfl⟩
  | some i =>
      refine ⟨{ user with sessions := user.sessions.modify i f }, ?_, ?_, rfl⟩
      · simp [Server.modifySession, record]
      · intro type filename
        exact userGetSession_modify (same type filename)

theorem HasUpload.modifySession {server : Server} {addr : Nat} {place : Option Nat}
    {f : Session → Session} {filename : CStr} (has : HasUpload server addr filename)
    (same : ∀ type filename s, (f s).matches type filename = s.matches type filename) :
    HasUpload (server.modifySession addr place f) addr filename := by
  obtain ⟨user, record, found⟩ := has
  obtain ⟨next, record', places, -⟩ := @modifySession_record server addr place f user same record
  exact ⟨next, record', by rw [places]; exact found⟩

/-! ### What `handle_upload` reports -/

/-- A call of `file_recv` by `handle_upload`. -/
structure UploadCall where
  fs : Fs
  info : FileInfo
  sock : Sock

variable (libs : Externals)

/-- The call of `file_recv` an upload request leads to, if it gets there. -/
def uploadCall (server : Server) (addr : Nat) (r : Request) : Option UploadCall :=
  match uploadPrepare libs r.env server (some addr) r.hdr r.sock with
  | .ready server _ info _ sock => some ⟨server.fs, info, sock⟩
  | _ => none

namespace UploadCall

variable (env : Env) (call : UploadCall)

/-- The statistics the call returns. -/
def received : Option FileRecvStats :=
  match fileRecv libs env call.fs call.info call.sock with
  | .ret _ _ stats => some stats
  | _ => none

/-- The steps of the call's loop, `none` if the file cannot be opened. -/
def steps : Option (List (RecvSys × RecvState)) :=
  match perform env.faults .recvOpen call.info.filename (call.fs.openCreate call.info.filename) with
  | .error _ => none
  | .ok (_, _, bytes) =>
      some (recvTrace libs call.info.chunkCount env.recv call.sock.fuel (recvStart bytes call.sock))

/-- The peer derails the transfer. -/
def Derailed : Prop := ∃ steps ∈ call.steps libs env, ∃ x ∈ steps, Derails libs call.info.chunkCount x

/-- The file cannot be opened, or the connection fails during the transfer. -/
def Failed : Prop :=
  ∀ steps ∈ call.steps libs env, ∃ x ∈ steps, Disconnects call.info.chunkCount x

variable {libs env call}

/-- The codes of a call whose file is opened are read off the steps of its loop. -/
theorem received_endsBy {codes : Int → Prop} {P : RecvSys × RecvState → Prop}
    {steps : List (RecvSys × RecvState)} (opened : call.steps libs env = some steps)
    (ends : ∀ sys s, P (sys, s) ↔ ∃ next out,
      recvStep libs call.info.chunkCount sys s = some (next, out) ∧ EndsBy codes next) :
    (∃ stats ∈ call.received libs env, codes stats.errorCode) ↔ ∃ x ∈ steps, P x := by
  unfold UploadCall.steps at opened
  unfold received fileRecv
  cases found : perform env.faults .recvOpen call.info.filename
      (call.fs.openCreate call.info.filename) with
  | error errno =>
      rw [found] at opened
      cases opened
  | ok target =>
      obtain ⟨fs, place, bytes⟩ := target
      rw [found] at opened
      cases opened
      have running : ∀ stats, (recvStart bytes call.sock).pc ≠ .ret stats := fun _ => nofun
      rw [← recvLoop_endsBy ends running, EndsBy]
      dsimp only
      cases (recvLoop libs call.info.chunkCount env.recv call.sock.fuel
        (recvStart bytes call.sock)).1.pc <;> simp

/-- A file that cannot be opened is reported with `-1`. -/
theorem received_of_closed (closed : call.steps libs env = none) :
    call.received libs env = some ⟨0, -1⟩ := by
  unfold UploadCall.steps at closed
  unfold received fileRecv
  cases found : perform env.faults .recvOpen call.info.filename
      (call.fs.openCreate call.info.filename) with
  | error errno => rfl
  | ok target =>
      rw [found] at closed
      cases closed

/-- The transfer ends with `-3` or `-4` exactly when the peer derails it. -/
theorem received_derailed :
    (∃ stats ∈ call.received libs env, stats.errorCode = -3 ∨ stats.errorCode = -4) ↔
      call.Derailed libs env := by
  cases opened : call.steps libs env with
  | none => simp [received_of_closed opened, Derailed, opened]
  | some steps =>
      have ends := @received_endsBy libs env call (fun code => code = -3 ∨ code = -4) _ steps opened
        fun sys s => recvStep_derails
      rw [ends]
      simp [Derailed, opened]

/-- The transfer ends with `-1` or `-2` exactly when it fails. -/
theorem received_failed :
    (∃ stats ∈ call.received libs env, stats.errorCode = -1 ∨ stats.errorCode = -2) ↔
      call.Failed libs env := by
  cases opened : call.steps libs env with
  | none => simp [received_of_closed opened, Failed, opened]
  | some steps =>
      have ends := @received_endsBy libs env call (fun code => code = -1 ∨ code = -2) _ steps opened
        fun sys s => recvStep_disconnects
      rw [ends]
      simp [Failed, opened]

/-- There are no other error codes. -/
theorem received_code {stats : FileRecvStats} (returned : call.received libs env = some stats) :
    stats.errorCode = 0 ∨ (stats.errorCode = -3 ∨ stats.errorCode = -4) ∨
      (stats.errorCode = -1 ∨ stats.errorCode = -2) := by
  cases opened : call.steps libs env with
  | none =>
      rw [received_of_closed opened] at returned
      cases returned
      exact .inr (.inr (.inl rfl))
  | some steps =>
      by_contra other
      have ends := @received_endsBy libs env call
        (fun code => ¬ (code = 0 ∨ (code = -3 ∨ code = -4) ∨ (code = -1 ∨ code = -2)))
        (fun _ => False) steps opened fun sys s => by
          simp only [false_iff]
          rintro ⟨next, out, step, stats, returned, odd⟩
          exact odd (recvStep_code step returned)
      obtain ⟨_, _, impossible⟩ := ends.mp ⟨stats, returned, other⟩
      exact impossible

end UploadCall

/-- What is reported of an upload: `UPLOAD_FIN` is sent and sessions are removed only
after `file_recv` has returned 0, and after any negative code the session for the
path is there and interrupted. -/
structure OutcomeReported (server : Server) (addr : Nat) (r : Request) : Prop where
  fin : ∀ body, Event.sent .uploadFin body ∈ (r.serve libs server).events →
    ∃ call ∈ uploadCall libs server addr r, ∃ stats ∈ call.received libs r.env, stats.errorCode = 0
  kept : ∀ filename, HasUpload server addr filename →
    HasUpload (r.serve libs server).server addr filename ∨
    ∃ call ∈ uploadCall libs server addr r, ∃ stats ∈ call.received libs r.env, stats.errorCode = 0
  interrupted : ∀ call ∈ uploadCall libs server addr r, ∀ stats ∈ call.received libs r.env,
    stats.errorCode < 0 → Interrupted (r.serve libs server).server addr call.info.filename

/-- The uploads reported as they went: the peer does not derail the transfer, and the
table holds the session or the transfer does not fail. -/
def ReportCondition (server : Server) (addr : Nat) (r : Request) : Prop :=
  ∀ call ∈ uploadCall libs server addr r, ¬ call.Derailed libs r.env ∧
    (TableHolds server addr call.info.filename ∨ ¬ call.Failed libs r.env)

variable {libs} {server : Server} {addr : Nat} {r : Request}

/-- What the end of a stretch before a transfer has done to the uploads of a user: no
`UPLOAD_FIN` is sent and no session removed, and the transfer goes on with the session
under the path, if the table holds one. -/
def UploadPrepared.Careful (server : Server) (addr : Nat) : UploadPrepared → Prop
  | .blocked => True
  | .returned next _ events => (∀ body, Event.sent .uploadFin body ∉ events) ∧
      ∀ filename, HasUpload server addr filename → HasUpload next addr filename
  | .ready next place info _ _ =>
      (∀ filename, HasUpload server addr filename → HasUpload next addr filename) ∧
      (∃ user, next.uman.users[addr]? = some user ∧
        place = userGetSession user .upload info.filename) ∧
      (place.isSome ↔ TableHolds server addr info.filename)

theorem uploadAccept_careful {env : Env} {user : User} {token : Token} {info : FileInfo}
    {behind : List Byte} {sock : Sock} (record : server.uman.users[addr]? = some user) :
    (uploadAccept libs env server addr user token info behind sock).Careful server addr := by
  unfold uploadAccept
  by_cases large : sizeT (user.usedSpace + info.size) > user.totalSpace
  · rw [if_pos large]
    exact ⟨by simp [sendError], fun _ has => has⟩
  · rw [if_neg large]
    generalize FileInfo.mk _ _ _ (uploadName libs token info behind) = info
    obtain ⟨⟨next, place, seq⟩, made⟩ : ∃ m, uploadSession user info = m := ⟨_, rfl⟩
    obtain ⟨place_eq, keeps, holds⟩ := uploadSession_place made
    simp only [made]
    have kept : ∀ filename, HasUpload server addr filename →
        HasUpload (server.modifyUser addr fun _ => next) addr filename := by
      rintro filename ⟨user', same, has⟩
      cases record.symm.trans same
      exact ⟨next, by simp [record], keeps filename has⟩
    have held : place.isSome ↔ TableHolds server addr info.filename := by
      rw [holds]
      simp [TableHolds, HasUpload, record]
    have ready : ∀ fs, (UploadPrepared.ready { server.modifyUser addr fun _ => next with fs := fs }
        place info seq sock).Careful server addr :=
      fun fs => ⟨kept, ⟨next, by simp [record], place_eq⟩, held⟩
    split
    · exact ready _
    · split_ifs
      · exact ready _
      · exact ⟨by simp [sendError], kept⟩

theorem uploadPrepare_careful {env : Env} {hdr : MessageHdr} {sock : Sock} :
    (uploadPrepare libs env server (some addr) hdr sock).Careful server addr := by
  unfold uploadPrepare
  cases record : server.uman.users[addr]? with
  | none =>
      simp only [Option.bind_some, record, Option.map_none]
      exact ⟨by simp [sendError], fun _ has => has⟩
  | some user =>
      simp only [Option.bind_some, record, Option.map_some]
      cases msgRecvPayload sock hdr.length sizeofFileInfo with
      | blocked => trivial
      | fail ret got rest => exact ⟨fun _ => nofun, fun _ has => has⟩
      | ok payload rest => exact uploadAccept_careful record

/-- After `-1` and `-2` no `UPLOAD_FIN` is sent and no session removed, and the session
under the path is interrupted if there is one. -/
theorem uploadFinish_failed {place : Option Nat} {info : FileInfo} {stats : FileRecvStats} {user : User}
    (record : server.uman.users[addr]? = some user)
    (found : place = userGetSession user .upload info.filename)
    (failed : stats.errorCode = -1 ∨ stats.errorCode = -2) :
    (∀ body, Event.sent .uploadFin body ∉ (uploadFinish server addr place info stats).2) ∧
    (∀ filename, HasUpload server addr filename →
      HasUpload (uploadFinish server addr place info stats).1 addr filename) ∧
    (Interrupted (uploadFinish server addr place info stats).1 addr info.filename ↔ place.isSome) := by
  have negative : stats.errorCode < 0 := by
    rcases failed with code | code <;> rw [code] <;> decide
  have after : (uploadFinish server addr place info stats).1 =
      server.modifySession addr place fun session =>
        { session with state := .interrupted, lastTransferedChunk := stats.lastChunkRecvd } := by
    rcases failed with code | code <;> simp [uploadFinish, code]
  rw [after]
  refine ⟨?_, fun filename has => has.modifySession fun _ _ _ => rfl, ?_⟩
  · rcases failed with code | code <;> simp [uploadFinish, code, sendError]
  · obtain ⟨next, record', places, sessions⟩ := @modifySession_record server addr place
      (fun session =>
        { session with state := .interrupted, lastTransferedChunk := stats.lastChunkRecvd })
      user (fun _ _ _ => rfl) record
    constructor
    · rintro ⟨user', i, session, same, hit, -⟩
      cases record'.symm.trans same
      rw [places, ← found] at hit
      simp [hit]
    · intro held
      obtain ⟨i, rfl⟩ := Option.isSome_iff_exists.mp held
      obtain ⟨inside, -⟩ := List.findIdx?_eq_some_iff_getElem.mp (show user.sessions.findIdx?
        (Session.matches .upload info.filename) = some i from found.symm)
      refine ⟨next, i, { user.sessions[i] with
        state := .interrupted, lastTransferedChunk := stats.lastChunkRecvd }, record', ?_, ?_, rfl⟩
      · rw [places, ← found]
      · rw [sessions]
        simp [inside]

/-- After any other code the client is told that the upload succeeded. -/
theorem uploadFinish_fin {place : Option Nat} {info : FileInfo} {stats : FileRecvStats}
    (other : stats.errorCode ≠ -1 ∧ stats.errorCode ≠ -2) :
    Event.sent .uploadFin (cstr "file successfully uploaded" ++ [0]) ∈
      (uploadFinish server addr place info stats).2 := by
  simp [uploadFinish, other]

/-- One upload is reported as it went exactly under the condition. -/
theorem outcomeReported_iff (upload : dispatch r.hdr = .accept .uploadReq)
    (registered : umanGetUser server.uman r.hdr.token = some (some addr)) :
    OutcomeReported libs server addr r ↔ ReportCondition libs server addr r := by
  have prepared := @uploadPrepare_careful libs server addr r.env r.hdr r.sock
  have served := @serve_upload libs server r addr upload registered
  cases early : uploadPrepare libs r.env server (some addr) r.hdr r.sock with
  | blocked =>
      have nocall : uploadCall libs server addr r = none := by rw [uploadCall, early]
      have handled : r.serve libs server = ⟨server, r.sock, [], .blocked⟩ := by
        rw [served, handleUpload, early]
      exact ⟨fun _ => by simp [ReportCondition, nocall], fun _ => ⟨by simp [handled],
        fun _ has => .inl (by rw [handled]; exact has), by simp [nocall]⟩⟩
  | returned next sock events =>
      rw [early] at prepared
      have nocall : uploadCall libs server addr r = none := by rw [uploadCall, early]
      have handled : r.serve libs server = ⟨next, sock, events, .closed⟩ := by
        rw [served, handleUpload, early]
      exact ⟨fun _ => by simp [ReportCondition, nocall], fun _ => ⟨by simp [handled, prepared.1],
        fun filename has => .inl (by rw [handled]; exact prepared.2 filename has), by simp [nocall]⟩⟩
  | ready next place info seq sock =>
      rw [early] at prepared
      obtain ⟨keeps, ⟨user, record, found⟩, held⟩ := prepared
      have call : uploadCall libs server addr r = some ⟨next.fs, info, sock⟩ := by
        rw [uploadCall, early]
      have derailed := @UploadCall.received_derailed libs r.env ⟨next.fs, info, sock⟩
      have failed := @UploadCall.received_failed libs r.env ⟨next.fs, info, sock⟩
      have codes := @UploadCall.received_code libs r.env ⟨next.fs, info, sock⟩
      obtain ⟨user', record', places, -⟩ := @modifySession_record next addr place
        (fun session => { session with state := .running }) user (fun _ _ _ => rfl) record
      have goesOn : ∀ filename, HasUpload server addr filename →
          HasUpload (next.modifySession addr place fun session =>
            { session with state := .running }) addr filename :=
        fun filename has => (keeps filename has).modifySession fun _ _ _ => rfl
      rw [handleUpload, early] at served
      simp only [modifySession_fs, Option.getD_some] at served
      generalize next.modifySession addr place _ = running at served record' goesOn
      -- an unfinished transfer leaves nothing to report
      have unfinished : ∀ fs status, r.serve libs server = ⟨{ running with fs := fs }, sock,
            [uploadRes seq, .fileRecv info.filename], status⟩ →
          (UploadCall.mk next.fs info sock).received libs r.env = none →
          (OutcomeReported libs server addr r ↔ ReportCondition libs server addr r) := by
        intro fs status handled waiting
        rw [waiting] at derailed failed
        have whole : ReportCondition libs server addr r := by
          intro c made
          cases call.symm.trans made
          exact ⟨fun bad => by simpa using derailed.mpr bad,
            .inr fun bad => by simpa using failed.mpr bad⟩
        refine ⟨fun _ => whole, fun _ => ⟨by simp [handled, uploadRes],
          fun filename has => .inl (by rw [handled]; exact goesOn filename has), ?_⟩⟩
        intro c made stats returned
        cases call.symm.trans made
        cases waiting.symm.trans returned
      cases transfer : fileRecv libs r.env next.fs info sock with
      | blocked fs =>
          rw [transfer] at served
          exact unfinished fs .blocked served (by simp [UploadCall.received, transfer])
      | faulted fs =>
          rw [transfer] at served
          exact unfinished fs .faulted served (by simp [UploadCall.received, transfer])
      | ret fs rest stats =>
          have returned : (UploadCall.mk next.fs info sock).received libs r.env = some stats := by
            simp [UploadCall.received, transfer]
          rw [transfer] at served
          rw [returned] at derailed failed
          simp only [Option.mem_def, Option.some.injEq, exists_eq_left'] at derailed failed
          have condition : ReportCondition libs server addr r ↔
              ¬ (stats.errorCode = -3 ∨ stats.errorCode = -4) ∧
              (TableHolds server addr info.filename ∨ ¬ (stats.errorCode = -1 ∨ stats.errorCode = -2)) := by
            simp [ReportCondition, call, derailed, failed]
          have events := congrArg Handled.events served
          have state := congrArg Handled.server served
          dsimp only at events state
          rw [condition]
          rcases codes returned with done | code | code
          · -- a completed transfer
            have completed : ∃ c ∈ uploadCall libs server addr r,
                ∃ stats ∈ c.received libs r.env, stats.errorCode = 0 :=
              ⟨_, call, stats, returned, done⟩
            refine ⟨fun _ => by simp [done], fun _ => ⟨fun _ _ => completed, fun _ _ => .inr completed, ?_⟩⟩
            intro c made stats' returned' negative
            cases call.symm.trans made
            cases returned.symm.trans returned'
            rw [done] at negative
            exact absurd negative (by decide)
          · -- a derailed one is answered with `UPLOAD_FIN`
            refine ⟨fun reported => ?_, fun clean => absurd code clean.1⟩
            have other : stats.errorCode ≠ -1 ∧ stats.errorCode ≠ -2 := by
              rcases code with code | code <;> rw [code] <;> decide
            obtain ⟨c, made, stats', returned', zero⟩ :=
              reported.fin _ (by rw [events]; exact List.mem_append_right _ (uploadFinish_fin other))
            cases call.symm.trans made
            cases returned.symm.trans returned'
            rcases code with code | code <;> rw [code] at zero <;> cases zero
          · -- a failed one keeps its session, if the table holds one
            obtain ⟨silent, kept, mark⟩ := @uploadFinish_failed { running with fs := fs } addr place
              info stats user' record' (by rw [places, found]) code
            have negative : stats.errorCode < 0 := by
              rcases code with code | code <;> rw [code] <;> decide
            have clean : ¬ (stats.errorCode = -3 ∨ stats.errorCode = -4) := by
              rcases code with code | code <;> rw [code] <;> decide
            simp only [code, not_true_eq_false, or_false, clean, not_false_eq_true, true_and]
            rw [← held, ← mark, ← state]
            refine ⟨fun reported => reported.interrupted _ call stats returned negative,
              fun interrupted => ⟨?_, fun filename has => .inl ?_, ?_⟩⟩
            · intro body sent
              rw [events] at sent
              rcases List.mem_append.mp sent with early | late
              · simp [uploadRes] at early
              · exact absurd late (silent body)
            · rw [state]
              exact kept filename (goesOn filename has)
            · intro c made stats' returned' _
              cases call.symm.trans made
              exact interrupted

/-- Which runs report every upload as it went: for every start state and every sequence
of messages, the uploads of registered users are reported truly throughout the run if
and only if each meets the condition in the state that receives it. -/
theorem uploadOutcome_iff (libs : Externals) (start : Server) (rs : List Request) :
    (∀ p ∈ run libs start rs, ∀ addr, dispatch p.2.hdr = .accept .uploadReq →
      umanGetUser p.1.uman p.2.hdr.token = some (some addr) → OutcomeReported libs p.1 addr p.2) ↔
    (∀ p ∈ run libs start rs, ∀ addr, dispatch p.2.hdr = .accept .uploadReq →
      umanGetUser p.1.uman p.2.hdr.token = some (some addr) → ReportCondition libs p.1 addr p.2) := by
  constructor
  · intro reported p served addr upload registered
    exact (outcomeReported_iff upload registered).mp (reported p served addr upload registered)
  · intro clean p served addr upload registered
    exact (outcomeReported_iff upload registered).mpr (clean p served addr upload registered)

def smallInfo : FileInfo := ⟨1, 1, ⟨List.replicate 32 0, length_zeroed⟩, cstr "/f"⟩

theorem smallInfo_fits : smallInfo.Fits := ⟨by decide, by decide, by decide, by decide⟩

/-- A peer that answers the resume point with a `SEND_CHUNK` without payload is told that
its upload succeeded. -/
theorem uploadOutcome_derailed :
    let rs := [request .authReq someToken [] [],
      request .uploadReq someToken smallInfo.encode (msgWire default .sendChunk [] [])]
    ¬ ∀ p ∈ run libraries (boot [] []) rs, ∀ addr, dispatch p.2.hdr = .accept .uploadReq →
      umanGetUser p.1.uman p.2.hdr.token = some (some addr) → OutcomeReported libraries p.1 addr p.2 := by
  intro rs reported
  have answered : ((request .authReq someToken [] []).serve libraries (boot [] [])).status.goesOn = true := by
    decide
  have state : ((request .authReq someToken [] []).serve libraries (boot [] [])).server = tokenKnown := by
    simp [tokenKnown, runState, answered]
  have second : (tokenKnown, request .uploadReq someToken smallInfo.encode
      (msgWire default .sendChunk [] [])) ∈ run libraries (boot [] []) rs := by
    simp [rs, run, answered, state]
  have lookup : umanGetUser tokenKnown.uman someToken = some (some 0) := by decide
  have record : tokenKnown.uman.users[0]? = some (userInit someToken) := by decide
  have received := @request_received .uploadReq someToken smallInfo.encode
    (msgWire default .sendChunk [] []) sizeofFileInfo (by simp)
  have prepared := @uploadPrepare_of_received libraries default tokenKnown 0 (userInit someToken)
    _ _ _ smallInfo record smallInfo_fits received
  have stats : (uploadCall libraries tokenKnown 0 (request .uploadReq someToken smallInfo.encode
      (msgWire default .sendChunk [] []))).bind (·.received libraries default) = some ⟨0, -4⟩ := by
    rw [uploadCall]
    simp only [request] at prepared ⊢
    simp only [prepared]
    decide
  obtain ⟨call, made, returned⟩ := Option.bind_eq_some_iff.mp stats
  have type : dispatch (request .uploadReq someToken smallInfo.encode
      (msgWire default .sendChunk [] [])).hdr = .accept .uploadReq := by
    simp [request, dispatch]
    decide
  have clean := (outcomeReported_iff type lookup).mp (reported _ second 0 type lookup) call made
  exact clean.1 (UploadCall.received_derailed.mp ⟨_, returned, .inr rfl⟩)

end MiniDropbox
