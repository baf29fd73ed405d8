/-
From one client to the other: a file that is uploaded and downloaded again.

An upload may be broken off any number of times, with messages of other users in between. When an attempt is told
that the file has been uploaded, the server has stored it; it stays whatever the others do, and a download that ends
well brings it back (`delivered`).
-/

import MiniDropbox.Independence
import MiniDropbox.ResumedDownload
import MiniDropbox.UploadProgress

namespace MiniDropbox

open Transition

/-! ### The loop of `file_recv` up to its end -/

section Receiving

variable {libs : Externals} {content : List Byte} {count : Nat} {sys : Nat → RecvSys} {fuel seq pos i a : Nat}
  {file : List Byte} {writes : List (Nat × List Byte)} {sock : Sock} {stats : FileRecvStats} {inflow : Inflow}

/-- The loop ends well where no chunk is missing. -/
theorem completed_short (short : sock.rx.length < sizeofMessageHdr)
    (returned : (Counted.final (recvStep libs count) sys fuel ⟨.top seq, pos, file, writes, sock⟩).pc = .ret stats)
    (done : stats.errorCode = 0) :
    count ≤ seq ∧ (Counted.final (recvStep libs count) sys fuel ⟨.top seq, pos, file, writes, sock⟩).file = file := by
  cases fuel with
  | zero => cases returned
  | succ fuel =>
      by_cases more : seq < count
      · rcases @chunkRecv_dry libs sock (sys fuel).junk short with ⟨-, blocked⟩ | ⟨-, ret, rest, broken, code⟩
        · have step : recvStep libs count (sys fuel) ⟨.top seq, pos, file, writes, sock⟩ = none := by
            simp only [recvStep, if_pos more, blocked]
          rw [Counted.final, step] at returned
          cases returned
        · rw [final_fails more broken code] at returned
          cases returned
          have nonzero : ret ≠ 0 := by omega
          exact absurd done nonzero
      · have step : recvStep libs count (sys fuel) ⟨.top seq, pos, file, writes, sock⟩ =
            some (⟨.ret ⟨seq, 0⟩, pos, file, writes, sock⟩, []) := by
          simp only [recvStep, if_neg more]
        rw [final_step step, final_ret]
        exact ⟨Nat.le_of_not_lt more, rfl⟩

theorem completed_unsent {sent : SendRet} (fails : ¬ sent = .ok) {n : Nat} (returned : (RecvPc.ret ⟨n, sent.code⟩) = .ret stats)
    (done : stats.errorCode = 0) : False := by
  have code := code_of_unsent fails
  cases returned
  have zero : sent.code = 0 := done
  omega

/-- Where the loop ends, all chunks have been counted. -/
theorem count_le_of_due (due : Due content i seq pos) (reached : i ≤ a) (ended : count ≤ seq) : count ≤ a := by
  rcases due with ⟨rfl, -⟩ | ⟨rfl, -⟩
  · exact Nat.le_trans ended reached
  · exact Nat.le_trans ended (Nat.zero_le a)

theorem completed_of_torn (works : FileWorks sys) (small : content.length < 2 ^ 63)
    (delivers : Delivers libs content count i (if inflow.bytes = 0 then [] else [inflow.cut]))
    (short : inflow.bytes < (chunkWire inflow.cut.1 inflow.cut.2).length) (sound : inflow.Sound libs content sys)
    (due : Due content i seq pos) (reached : i ≤ a) (arrived : sock.rx = inflow.torn)
    (returned : (Counted.final (recvStep libs count) sys (fuel + 3)
      ⟨.top seq, pos, content.take (a * CHUNK_SIZE), writes, sock⟩).pc = .ret stats) (done : stats.errorCode = 0) :
    (Counted.final (recvStep libs count) sys (fuel + 3)
      ⟨.top seq, pos, content.take (a * CHUNK_SIZE), writes, sock⟩).file = content.take (max a count * CHUNK_SIZE) := by
  by_cases enough : sizeofMessageHdr ≤ inflow.torn.length
  · rw [if_neg (bytes_ne_zero enough)] at delivers
    obtain ⟨below, inside, -⟩ := delivers.first
    have seqs : inflow.cut.2.hdr.seq = i := by rw [delivers.header.1, chunkAt_seq]
    have more := due.lt below
    obtain ⟨rest, drained, -, received⟩ := @chunkRecv_torn libs inflow (sys (fuel + 2)).junk sock
      (delivers.shape small).2.2 short enough arrived
    have dry : rest.rx.length < sizeofMessageHdr := by
      rw [drained]
      decide
    by_cases waits : sock.fin = .opened
    · rw [if_pos waits] at received
      have step : recvStep libs count (sys (fuel + 2)) ⟨.top seq, pos, content.take (a * CHUNK_SIZE), writes, sock⟩ = none := by
        simp only [recvStep, if_pos more, received]
      rw [Counted.final, step] at returned
      cases returned
    rw [if_neg waits, chunkCheck_eq] at received
    by_cases overruns : Overruns (inflow.memory (sys (fuel + 2)).junk) (inflow.readable (sys (fuel + 2)).junk)
    · rw [if_pos overruns] at received
      rw [final_faults more received] at returned
      cases returned
    rw [if_neg overruns] at received
    by_cases passes : ChecksOut libs (inflow.memory (sys (fuel + 2)).junk)
    · obtain ⟨numbered, data⟩ := sound (fuel + 2) ⟨enough, overruns, passes⟩
      rw [seqs] at numbered data
      rw [if_pos passes] at received
      have whole : chunkRecv libs (sys (fuel + 2)).junk sock = .ok _ (inflow.passed (sys (fuel + 2)).junk) rest := received
      rw [final_accept works small inside due more whole numbered, final_acknowledge works small inside reached data]
        at returned ⊢
      by_cases sent : (sys (fuel + 1)).sent = .ok
      · rw [if_pos sent] at returned ⊢
        obtain ⟨ended, stored⟩ := completed_short dry returned done
        have all : max a (i + 1) = max a count := by omega
        rw [stored, all]
      · rw [if_neg sent] at returned
        exact (completed_unsent sent returned done).elim
    · rw [if_neg passes] at received
      rw [final_again more received] at returned ⊢
      by_cases sent : (sys (fuel + 1)).sent = .ok
      · rw [if_pos sent] at returned ⊢
        exact absurd (completed_short dry returned done).1 (Nat.not_le_of_lt more)
      · rw [if_neg sent] at returned
        exact (completed_unsent sent returned done).elim
  · obtain ⟨ended, stored⟩ := completed_short (by rw [arrived]; exact Nat.lt_of_not_le enough) returned done
    rw [stored, Nat.max_eq_left (count_le_of_due due reached ended)]

/-- What `file_recv` has stored when it reports success, for every stretch of messages. -/
theorem completed_of_cut (works : FileWorks sys) (small : content.length < 2 ^ 63) {msgs : List (Stamp × Chunk)}
    (delivers : Delivers libs content count i (msgs ++ if inflow.bytes = 0 then [] else [inflow.cut]))
    (short : inflow.bytes < (chunkWire inflow.cut.1 inflow.cut.2).length) (sound : inflow.Sound libs content sys)
    (due : Due content i seq pos) (reached : i ≤ a) {sched : List (Option Nat)} {fin : SockEnd}
    (time : 4 * (peerWire msgs ++ inflow.torn).length + 3 ≤ fuel)
    (returned : (Counted.final (recvStep libs count) sys fuel
      ⟨.top seq, pos, content.take (a * CHUNK_SIZE), writes, ⟨peerWire msgs ++ inflow.torn, sched, fin⟩⟩).pc = .ret stats)
    (done : stats.errorCode = 0) :
    (Counted.final (recvStep libs count) sys fuel
      ⟨.top seq, pos, content.take (a * CHUNK_SIZE), writes, ⟨peerWire msgs ++ inflow.torn, sched, fin⟩⟩).file =
        content.take (max a count * CHUNK_SIZE) := by
  induction msgs generalizing i a seq pos fuel writes sched with
  | nil =>
      obtain ⟨fuel, rfl⟩ : ∃ k, fuel = k + 3 := ⟨fuel - 3, by omega⟩
      exact completed_of_torn works small delivers short sound due reached rfl returned done
  | cons x msgs ih =>
      obtain ⟨below, inside, -⟩ := delivers.first
      obtain ⟨fits, length, width⟩ := delivers.shape small
      have more := due.lt below
      obtain ⟨fuel, rfl, left⟩ := fuel_peer time
      obtain ⟨sched', received⟩ := @chunkRecv_chunkWire libs (sys (fuel + 2)).junk
        ⟨peerWire (x :: msgs) ++ inflow.torn, sched, fin⟩ x.1 x.2 (peerWire msgs ++ inflow.torn) fits length width
        (by rw [peerWire_cons, List.append_assoc])
      rcases delivers.turn with ⟨checksum, numbered, data, later⟩ | ⟨checksum, later⟩
      · rw [if_pos checksum] at received
        rw [final_accept works small inside due more received numbered, final_acknowledge works small inside reached data]
          at returned ⊢
        by_cases sent : (sys (fuel + 1)).sent = .ok
        · rw [if_pos sent] at returned ⊢
          have all : max (max a (i + 1)) count = max a count := by omega
          rw [ih later (.inl ⟨rfl, rfl⟩) (Nat.le_max_right _ _) (by omega) returned, all]
        · rw [if_neg sent] at returned
          exact (completed_unsent sent returned done).elim
      · rw [if_neg checksum] at received
        rw [final_again more received] at returned ⊢
        by_cases sent : (sys (fuel + 1)).sent = .ok
        · rw [if_pos sent] at returned ⊢
          exact ih later due reached (by omega) returned
        · rw [if_neg sent] at returned
          exact (completed_unsent sent returned done).elim

/-- The same from the beginning of the loop, where the first chunks are stored. -/
theorem completed_of_start (works : FileWorks sys) (small : content.length < 2 ^ 63) {s r : Nat}
    (from_ : inflow.From libs content count s) (sound : inflow.Sound libs content sys) (below : s ≤ r)
    (arrived : sock.rx = inflow.rx)
    (returned : (recvLoop libs count sys sock.fuel (recvStart (content.take (r * CHUNK_SIZE)) sock)).1.pc = .ret stats)
    (done : stats.errorCode = 0) :
    (recvLoop libs count sys sock.fuel (recvStart (content.take (r * CHUNK_SIZE)) sock)).1.file =
      content.take (max r count * CHUNK_SIZE) := by
  obtain ⟨rx, sched, fin⟩ := sock
  obtain rfl : rx = inflow.rx := arrived
  rw [recvLoop_final] at returned ⊢
  exact completed_of_cut works small from_.delivers from_.short sound due_first below (Nat.le_refl _) returned done

end Receiving

/-! ### The attempt that is told -/

section Finishing

variable {f : LocalFile} {addr : Nat} {target : CStr} {server : Server} {user : User} {a : Attempt}

open LocalFile

/-- The path an upload is stored under begins with the user's directory. -/
theorem uploadName_starts (libs : Externals) (token : Token) (info : FileInfo) (behind : List Byte) :
    ∃ rest, uploadName libs token info behind = getUserRoot libs token ++ rest := by
  have front : ∀ n, 49 ≤ n → ∀ rest, ∃ more, (getUserRoot libs token ++ rest).take n = getUserRoot libs token ++ more := by
    intro n room rest
    refine ⟨rest.take (n - (getUserRoot libs token).length), ?_⟩
    rw [List.take_append, List.take_of_length_le (length_getUserRoot libs token ▸ room)]
  obtain ⟨more, text⟩ : ∃ more, snprintf (PATH_MAX * 2) (getUserRoot libs token ++ printed (strrchr info.filename)) =
      getUserRoot libs token ++ more := front _ (by decide) _
  unfold uploadName
  rw [← getUserRoot]
  dsimp only
  rw [text]
  split_ifs
  · exact ⟨more, rfl⟩
  · obtain ⟨cut, text'⟩ := front PATH_MAX (by decide) more
    rw [text', List.append_assoc, cString, List.takeWhile_append_of_pos]
    · exact ⟨_, rfl⟩
    · intro c among
      rw [decide_eq_true_eq]
      rintro rfl
      exact zero_not_mem_root libs token among

theorem ours_uploadName {libs : Externals} {token : Token} {info : FileInfo} {behind : List Byte} :
    Ours libs token (components (uploadName libs token info behind)) := by
  obtain ⟨rest, starts⟩ := uploadName_starts libs token info behind
  obtain ⟨x, more, names⟩ := components_root_append libs token rest
  rw [starts, names]
  exact ours_stack

/-- `UPLOAD_FIN` is sent after a call of `file_recv` that has returned, and not an error of the
connection. -/
theorem returned_of_fin {libs : Externals} {r : Request} {next : Server} {place : Option Nat} {info : FileInfo} {seq : Nat}
    {sock : Sock} (upload : dispatch r.hdr = .accept .uploadReq) (known : umanGetUser server.uman r.hdr.token = some (some addr))
    (early : uploadPrepare libs r.env server (some addr) r.hdr r.sock = .ready next place info seq sock) {body : List Byte}
    (finished : Event.sent .uploadFin body ∈ (r.serve libs server).events) :
    ∃ fs rest stats, fileRecv libs r.env next.fs info sock = .ret fs rest stats ∧
      ¬ (stats.errorCode = -1 ∨ stats.errorCode = -2) := by
  rw [serve_upload upload known] at finished
  simp only [handleUpload, early, modifySession_fs] at finished
  have neither : Event.sent .uploadFin body ∉ [uploadRes seq, Event.fileRecv info.filename] := by simp [uploadRes]
  cases transfer : fileRecv libs r.env next.fs info sock with
  | blocked fs =>
      rw [transfer] at finished
      exact absurd finished neither
  | faulted fs =>
      rw [transfer] at finished
      exact absurd finished neither
  | ret fs rest stats =>
      rw [transfer] at finished
      refine ⟨fs, rest, stats, rfl, fun failed => ?_⟩
      have reply := (List.mem_append.mp finished).resolve_left neither
      rcases failed with code | code
      · simp [uploadFinish, code, sendError] at reply
      · simp [uploadFinish, code] at reply

/-- What `file_recv` leaves when it reports success. -/
theorem fileRecv_completed {call : UploadCall} {s r : Nat} (free : LinkFree call.fs)
    (named : call.info.filename = uploadName f.libs f.token f.info a.env.tail) (count : call.info.chunkCount = f.info.chunkCount)
    (arrived : call.sock.rx = a.inflow.rx) (from_ : a.inflow.From f.libs f.content f.info.chunkCount s) (below : s ≤ r)
    (works : FileWorks a.env.recv) (sound : a.inflow.Sound f.libs f.content a.env.recv)
    (stored : call.fs.bytesAt call.info.filename = f.content.take (r * CHUNK_SIZE)) {fs : Fs} {rest : Sock} {stats : FileRecvStats}
    (returned : fileRecv f.libs a.env call.fs call.info call.sock = .ret fs rest stats) (done : stats.errorCode = 0) :
    fs.get? (components call.info.filename) = some (.file (f.content.take (max r f.info.chunkCount * CHUNK_SIZE))) := by
  unfold fileRecv at returned
  cases opens : perform a.env.faults .recvOpen call.info.filename (call.fs.openCreate call.info.filename) with
  | error errno =>
      rw [opens] at returned
      cases returned
      cases done
  | ok opened =>
      obtain ⟨fs', place, old⟩ := opened
      rw [opens] at returned
      dsimp only at returned
      have creates := named ▸ perform_ok opens
      obtain ⟨held, -⟩ := @bytesAt_opened f.libs call.fs fs' f.token place old f.info a.env.tail free f.fits.name creates
      have here := @openCreate_components f.libs f.token call.fs fs' f.info a.env.tail place old free f.fits.name creates
      rw [← named] at held here
      rw [stored] at held
      rw [← held, count] at returned
      cases pc : (recvLoop f.libs f.info.chunkCount a.env.recv call.sock.fuel
          (recvStart (f.content.take (r * CHUNK_SIZE)) call.sock)).1.pc with
      | ret found =>
          rw [pc] at returned
          cases returned
          rw [← here, get?_set (openCreate_ne_nil free f.fits.name creates), if_pos rfl,
            completed_of_start works f.content_lt from_ sound below arrived pc done]
      | top seq => rw [pc] at returned; cases returned
      | again seq => rw [pc] at returned; cases returned
      | ok seq chunk => rw [pc] at returned; cases returned
      | write seq chunk => rw [pc] at returned; cases returned
      | fault => rw [pc] at returned; cases returned

/-- What an attempt stores that is told the file has been uploaded. -/
theorem finished_stored (known : f.Known addr target server) (tries : f.Tries target server a) (works : FileWorks a.env.recv)
    (sound : f.Sound addr server a) {body : List Byte}
    (finished : Event.sent .uploadFin body ∈ ((f.request a).serve f.libs server).events) :
    (f.serve server a).fs.get? (components target) =
      some (.file (f.content.take (max (server.recorded addr target) f.info.chunkCount * CHUNK_SIZE))) := by
  obtain ⟨lookup, user, record⟩ := known.registered
  have whole := @serve_upload f.libs server (f.request a) addr upload_request lookup
  have recorded := @recorded_of_record addr target server user record
  have prepared := prepares record tries.target tries.comes
  cases early : uploadPrepare f.libs (f.request a).env server (some addr) (f.request a).hdr (f.request a).sock with
  | blocked =>
      rw [whole, handleUpload, early] at finished
      cases finished
  | returned next sock events =>
      have careful := @uploadPrepare_careful f.libs server addr (f.request a).env (f.request a).hdr (f.request a).sock
      rw [early] at careful
      rw [whole, handleUpload, early] at finished
      exact absurd finished (careful.1 body)
  | ready next place info seq sock =>
      rw [early] at prepared
      cases prepared with
      | @ready w _ _ fs _ made root arrived ends =>
          have seqs : seq = server.recorded addr target := by
            have point := uploadSession_seq user { f.info with filename := target }
            rw [made] at point
            exact point.trans ((known.inStep.resumes user record).trans recorded.symm)
          have from_ := tries.chunks (LittleEndian.encode 8 seq) (whole ▸ (uploadRes_sent early).1)
          rw [cmdUploadStart_encode, seqs] at from_
          have call : uploadCall f.libs server addr (f.request a) = some ⟨fs, { f.info with filename := target }, sock⟩ := by
            rw [uploadCall, early]
          have ordinary : LinkFree fs := fun place target link => known.ordinary.links place target (links_of_edits (rootMade_edits root) link)
          have stored := (bytesAt_rootMade known.ordinary.links root).trans known.inStep.stored
          obtain ⟨left, rest, stats, transfer, connected⟩ := returned_of_fin upload_request lookup early finished
          have received : UploadCall.received f.libs a.env ⟨fs, { f.info with filename := target }, sock⟩ = some stats := by
            have returned : fileRecv f.libs a.env fs { f.info with filename := target } sock = .ret left rest stats := transfer
            simp only [UploadCall.received, returned]
          have done : stats.errorCode = 0 := by
            by_contra failed
            obtain ⟨_, _, other, again, code, -⟩ := fileRecv_progress ordinary f.fits.name tries.target.symm rfl arrived from_
              (Nat.mod_le _ _) works (sound _ call) stored ⟨stats, received, failed⟩
            cases transfer.symm.trans again
            exact connected code
          obtain ⟨disk, -⟩ := @serve_transferred f.libs server addr (f.request a) _ _ _ _ _ rest w _ _
            upload_request lookup early rfl transfer
          rw [LocalFile.serve, disk]
          exact @fileRecv_completed f a ⟨fs, { f.info with filename := target }, sock⟩ _ _ ordinary tries.target.symm rfl arrived
            from_ (Nat.mod_le _ _) works (sound _ call) stored left rest stats transfer done

end Finishing

/-! ### Among the others' messages -/

section Others

variable {f : LocalFile} {addr : Nat} {target : CStr} {server : Server} {r : Request} {rs : List Request}

/-- A message of another user leaves a user where he is found. -/
theorem lookup_apart {libs : Externals} {t : Token} (serving : Serving t server) (inOrder : InOrder libs t server r)
    (different : r.hdr.token ≠ t) (found : umanGetUser server.uman t = some (some addr)) :
    umanGetUser (r.serve libs server).server.uman t = some (some addr) := by
  obtain ⟨tokens, registry, apart⟩ := serving.registry
  by_cases auth : dispatch r.hdr = .accept .authReq
  · obtain ⟨next, events, -, same, registry'⟩ := @Registry.serve_auth libs tokens server r registry inOrder.fresh auth
    rw [same, lookup_registered registry registry' apart, if_neg fun both => different both.2, found]
  · rw [(registry.sameUsers (@serve_users libs server r auth)).lookup, ← registry.lookup, found]

theorem get?_apart {libs : Externals} {t : Token} {place : Place} (serving : Serving t server) (different : r.hdr.token ≠ t)
    (ours : Ours libs t place) : (r.serve libs server).server.fs.get? place = server.fs.get? place := by
  rw [Fs.get?, Fs.get?, if_neg ours.ne_nil, if_neg ours.ne_nil, ← lookup_files ours, ← lookup_files ours,
    files_serve serving.housed different]

/-- What is known of the upload stays known. -/
theorem LocalFile.Known.apart (known : f.Known addr target server) (serving : Serving f.token server) (inOrder : InOrder f.libs f.token server r)
    (different : r.hdr.token ≠ f.token) (ours : Ours f.libs f.token (components target)) :
    f.Known addr target (r.serve f.libs server).server := by
  obtain ⟨found, user, record⟩ := known.registered
  have found' := lookup_apart serving inOrder different found
  have views : recordOf f.token (r.serve f.libs server).server.uman = recordOf f.token server.uman :=
    congrArg Prod.snd (serve_apart serving inOrder different)
  have record' : (r.serve f.libs server).server.uman.users[addr]? = some user := by
    rw [recordOf, recordOf, found', found] at views
    exact views.trans record
  have recorded : (r.serve f.libs server).server.recorded addr target = server.recorded addr target := by
    rw [Server.recorded, Server.recorded, record', record]
  refine ⟨⟨found', user, record'⟩, ordinary_serve known.ordinary, fun other here => ?_, ?_, ?_⟩
  · cases record'.symm.trans here
    exact known.inStep.resumes user record
  · rw [recorded]
    exact known.inStep.within
  · rw [Fs.bytesAt, get?_apart serving different ours, ← Fs.bytesAt, recorded]
    exact known.inStep.stored

/-- A turn of a run in which a file is uploaded: a message of the user's is an attempt that is interrupted
and regains what was recorded. -/
structure LocalFile.Turn (f : LocalFile) (addr : Nat) (target : CStr) (server : Server) (r : Request) : Prop where
  inOrder : InOrder f.libs f.token server r
  attempt : r.hdr.token = f.token → ∃ a, r = f.request a ∧ f.Tries target server a ∧ f.Interrupted addr server a ∧
    f.Regains addr target server a

/-- What holds of the messages of a run, one after the other. -/
theorem forall_run_cons {libs : Externals} (P : Server → Request → Prop) (goesOn : (r.serve libs server).status.goesOn = true)
    (here : P server r) (later : ∀ p ∈ run libs (r.next libs server) rs, P p.1 p.2) :
    ∀ p ∈ run libs server (r :: rs), P p.1 p.2 := by
  rw [run, if_pos goesOn]
  exact List.forall_mem_cons.mpr ⟨here, later⟩

/-- After any number of turns the record says what is stored. -/
theorem known_runState (known : f.Known addr target server) (serving : Serving f.token server)
    (ours : Ours f.libs f.token (components target)) (turns : ∀ p ∈ run f.libs server rs, f.Turn addr target p.1 p.2) :
    f.Known addr target (runState f.libs server rs) ∧ Serving f.token (runState f.libs server rs) := by
  have each := met_of_run (fun p turn => turn.inOrder.goesOn) turns
  rw [(run_eq_met fun p among => (each p among).inOrder.goesOn).2]
  clear turns
  induction rs generalizing server with
  | nil => exact ⟨known, serving⟩
  | cons r rs ih =>
      obtain ⟨here, later⟩ := (forall_met_cons (f.Turn addr target)).mp each
      refine ih ?_ (serving_serve serving here.inOrder) later
      by_cases mine : r.hdr.token = f.token
      · obtain ⟨a, rfl, tries, interrupted, regains⟩ := here.attempt mine
        exact known.serve tries interrupted regains
      · exact known.apart serving here.inOrder mine ours

/-- What stands at a place of a user's stays there among the messages of the others. -/
theorem get?_runState {libs : Externals} {t : Token} {place : Place} (serving : Serving t server) (ours : Ours libs t place)
    (others : ∀ p ∈ run libs server rs, InOrder libs t p.1 p.2 ∧ p.2.hdr.token ≠ t) :
    (runState libs server rs).fs.get? place = server.fs.get? place ∧ Serving t (runState libs server rs) := by
  have each := met_of_run (fun p other => other.1.goesOn) others
  rw [(run_eq_met fun p among => (each p among).1.goesOn).2]
  clear others
  induction rs generalizing server with
  | nil => exact ⟨rfl, serving⟩
  | cons r rs ih =>
      obtain ⟨⟨inOrder, different⟩, later⟩ :=
        (forall_met_cons fun server (r : Request) => InOrder libs t server r ∧ r.hdr.token ≠ t).mp each
      obtain ⟨same, serving'⟩ := ih (serving_serve serving inOrder) later
      exact ⟨same.trans (get?_apart serving different ours), serving'⟩

end Others

/-! ### An upload and its downloads -/

/-- An upload to its end: attempts that are interrupted, among messages of the others, then one that is told
that the file has been uploaded, and after it messages of the others. -/
structure FinishedUpload where
  file : LocalFile
  addr : Nat
  target : CStr
  start : Server
  before : List Request
  last : Attempt
  after : List Request
  serving : Serving file.token start
  known : file.Known addr target start
  turns : ∀ p ∈ run file.libs start before, file.Turn addr target p.1 p.2
  inOrder : InOrder file.libs file.token (runState file.libs start before) (file.request last)
  tries : file.Tries target (runState file.libs start before) last
  works : FileWorks last.env.recv
  sound : file.Sound addr (runState file.libs start before) last
  told : ∃ body, Event.sent .uploadFin body ∈ ((file.request last).serve file.libs (runState file.libs start before)).events
  others : ∀ p ∈ run file.libs (file.serve (runState file.libs start before) last) after,
    InOrder file.libs file.token p.1 p.2 ∧ p.2.hdr.token ≠ file.token

namespace FinishedUpload

variable {u : FinishedUpload} {b : Download}

/-- The server at the end. -/
def server (u : FinishedUpload) : Server := runState u.file.libs (u.file.serve (runState u.file.libs u.start u.before) u.last) u.after

theorem ours : Ours u.file.libs u.file.token (components u.target) := by
  rw [← u.tries.target]
  exact ours_uploadName

/-- The file is there. -/
theorem stored (covered : u.file.content.length ≤ u.file.info.chunkCount * CHUNK_SIZE) :
    u.server.fs.get? (components u.target) = some (.file u.file.content) ∧ LinkFree u.server.fs := by
  obtain ⟨known, serving⟩ := known_runState u.known u.serving ours u.turns
  obtain ⟨body, told⟩ := u.told
  have finished := finished_stored known u.tries u.works u.sound told
  have all : u.file.content.length ≤ max ((runState u.file.libs u.start u.before).recorded u.addr u.target)
      u.file.info.chunkCount * CHUNK_SIZE :=
    Nat.le_trans covered (Nat.mul_le_mul_right _ (Nat.le_max_right _ _))
  rw [List.take_of_length_le all] at finished
  obtain ⟨kept, serving'⟩ := get?_runState (serving_serve serving u.inOrder) ours u.others
  exact ⟨kept.trans finished, serving'.housed.links⟩

/-- A download of the path is one of the file. -/
theorem content_eq (free : LinkFree b.server.fs) {content : List Byte} (same : components b.path = components u.target)
    (there : b.server.fs.get? (components u.target) = some (.file content)) : b.content = content := by
  obtain ⟨x, more, route⟩ := getUserPath_route b.resolved
  obtain ⟨q, resolved, found⟩ := lstat_place (perform_ok b.regular)
  rw [route.toBelow.place free resolved, ← route.names, same, there] at found
  cases found
  rfl

end FinishedUpload

theorem pair_fits : (cmdUploadInfo libraries (cstr "/f") [1, 2]).Fits := ⟨by decide, by decide, by decide, by decide⟩

theorem pair_lt : [(1 : Byte), 2].length < 2 ^ 63 := by decide

/-- A file of two bytes. -/
def pair : LocalFile where
  libs := libraries
  token := someToken
  name := cstr "/f"
  content := [1, 2]
  named := someToken_ne_null
  fits := pair_fits
  content_lt := pair_lt

namespace pair

def target : CStr := uploadName libraries someToken pair.info []

/-- The connection ends in the header of the chunk. -/
def broken : Attempt :=
  let inflow : Inflow := ⟨[], (default, chunkAt libraries [1, 2] 0), 10⟩
  ⟨(0, 0), pair.info.encode ++ inflow.rx, [], .closed, default, inflow⟩

def whole : Attempt :=
  let inflow : Inflow := ⟨[(default, chunkAt libraries [1, 2] 0)], (default, chunkAt libraries [1, 2] 0), 0⟩
  ⟨(0, 0), pair.info.encode ++ inflow.rx, [], .opened, default, inflow⟩

/-- Another user registers in between, and makes a directory afterwards. -/
def before : List Request := [pair.request broken, request .authReq otherToken [] []]

def after : List Request := [request .mkdirReq otherToken (cstr "d" ++ [0]) []]

theorem known : pair.Known 0 target tokenKnown := by
  have nothing : tokenKnown.recorded 0 target = 0 := LocalFile.recorded_of_record tokenKnown_record
  refine ⟨⟨tokenKnown_lookup, _, tokenKnown_record⟩, sevens_known.ordinary, fun user record => ?_, ?_, ?_⟩
  · cases tokenKnown_record.symm.trans record
    rfl
  · rw [nothing]
    exact Nat.zero_le _
  · rw [nothing, Nat.zero_mul, List.take_zero]
    decide

theorem serving : Serving someToken tokenKnown := by
  have inOrder : InOrder libraries someToken (boot [] []) (request .authReq someToken [] []) :=
    inOrder_of_neither rfl (by decide) (by decide) (by decide)
  have state : tokenKnown = ((request .authReq someToken [] []).serve libraries (boot [] [])).server := by
    rw [tokenKnown]
    simp [runState]
  rw [state]
  exact serving_serve (serving_boot someToken [] []) inOrder

/-- What comes in is too short for a chunk. -/
theorem broken_passes {junk : Junk} : ¬ broken.inflow.Passes libraries junk := fun passes => absurd passes.1 (by decide)

theorem broken_legible : broken.inflow.Legible broken.env.recv := fun _ enough => absurd enough (by decide)

theorem broken_sound {server : Server} : pair.Sound 0 server broken := fun _ _ _ passes => absurd passes broken_passes

theorem works {a : Attempt} (default_ : a.env = default) : FileWorks a.env.recv := by
  rw [default_]
  exact ⟨fun _ => rfl, fun _ => rfl⟩

theorem broken_from : broken.inflow.From libraries pair.content pair.info.chunkCount 0 :=
  ⟨.intact (by decide) (by decide) .stop, by decide⟩

theorem broken_took {call : UploadCall} : (pair.took broken call).getD 0 = 0 := by
  rw [LocalFile.took]
  cases perform broken.env.faults .recvOpen call.info.filename (call.fs.openCreate call.info.filename) with
  | error errno => rfl
  | ok opened =>
      have none : broken.inflow.taken libraries broken.env.recv broken.inflow.whole call.sock.fuel = none := if_neg broken_passes
      dsimp only
      rw [show pair.libs = libraries from rfl, none]
      rfl

theorem unrecorded : tokenKnown.recorded 0 target = 0 := LocalFile.recorded_of_record tokenKnown_record

theorem broken_tries : pair.Tries target tokenKnown broken := by
  refine LocalFile.tries_of_from known rfl (.inr rfl) ?_
  rw [unrecorded]
  exact broken_from

theorem broken_interrupted : pair.Interrupted 0 tokenKnown broken := by
  refine LocalFile.interrupted_of_ended known broken_tries (works rfl) broken_sound broken_legible (by decide) ?_ fun call called => ?_
  · rw [unrecorded]
    exact broken_from
  · rw [broken_took, unrecorded]
    decide

theorem broken_regains : pair.Regains 0 target tokenKnown broken :=
  ⟨broken_sound, fun _ _ => ⟨.inl unrecorded, .inr broken_took⟩⟩

theorem own {a : Attempt} : (pair.request a).hdr.token = someToken := rfl

theorem neither {a : Attempt} : dispatch (pair.request a).hdr ≠ .accept .removeReq ∧
    dispatch (pair.request a).hdr ≠ .accept .downloadReq := by
  rw [LocalFile.upload_request]
  decide

/-- What the four messages come to. -/
theorem ran :
    ((pair.request broken).serve libraries tokenKnown).status.goesOn = true ∧
    ((request .authReq otherToken [] []).serve libraries ((pair.request broken).next libraries tokenKnown)).status.goesOn = true ∧
    (runState libraries tokenKnown before).recorded 0 target = 0 ∧
    Event.sent .uploadFin (cstr "file successfully uploaded" ++ [0]) ∈
      ((pair.request whole).serve libraries (runState libraries tokenKnown before)).events ∧
    ((pair.request whole).serve libraries (runState libraries tokenKnown before)).status.goesOn = true ∧
    ((request .mkdirReq otherToken (cstr "d" ++ [0]) []).serve libraries
      (pair.serve (runState libraries tokenKnown before) whole)).status.goesOn = true ∧
    (runState libraries (pair.serve (runState libraries tokenKnown before) whole) after).uman.users[0]? =
      some (userInit someToken) ∧
    (runState libraries (pair.serve (runState libraries tokenKnown before) whole) after).fs.lstat filePath =
      .ok (.file [1, 2]) := by
  decide +kernel

theorem turns : ∀ p ∈ run libraries tokenKnown before, pair.Turn 0 target p.1 p.2 := by
  obtain ⟨brokenOn, authOn, -⟩ := ran
  have first : InOrder libraries someToken tokenKnown (pair.request broken) :=
    inOrder_of_neither rfl (fun other => (other (@own broken)).elim) neither brokenOn
  have second : InOrder libraries someToken ((pair.request broken).next libraries tokenKnown) (request .authReq otherToken [] []) :=
    inOrder_of_neither rfl (by decide) (by decide) authOn
  refine forall_run_cons (pair.Turn 0 target) first.goesOn
    ⟨first, fun _ => ⟨broken, rfl, broken_tries, broken_interrupted, broken_regains⟩⟩ ?_
  refine forall_run_cons (pair.Turn 0 target) second.goesOn ⟨second, fun mine => absurd mine (by decide)⟩ ?_
  exact List.forall_mem_nil _

theorem met_known : pair.Known 0 target (runState libraries tokenKnown before) :=
  (known_runState known serving ours_uploadName turns).1

theorem met_recorded : (runState libraries tokenKnown before).recorded 0 target = 0 := ran.2.2.1

theorem whole_tries : pair.Tries target (runState libraries tokenKnown before) whole := by
  refine LocalFile.tries_of_from met_known rfl (.inr rfl) ?_
  rw [show pair.libs = libraries from rfl, met_recorded]
  exact ⟨.intact (by decide) (by decide) .stop, by decide⟩

theorem whole_sound {server : Server} : pair.Sound 0 server whole := fun _ _ _ passes => absurd rfl (bytes_ne_zero passes.1)

theorem whole_told : Event.sent .uploadFin (cstr "file successfully uploaded" ++ [0]) ∈
    ((pair.request whole).serve libraries (runState libraries tokenKnown before)).events :=
  ran.2.2.2.1

theorem whole_inOrder : InOrder libraries someToken (runState libraries tokenKnown before) (pair.request whole) :=
  inOrder_of_neither rfl (fun other => (other (@own whole)).elim) neither ran.2.2.2.2.1

theorem others : ∀ p ∈ run libraries (pair.serve (runState libraries tokenKnown before) whole) after,
    InOrder libraries someToken p.1 p.2 ∧ p.2.hdr.token ≠ someToken := by
  obtain ⟨-, -, -, -, -, mkdirOn, -⟩ := ran
  have made : InOrder libraries someToken (pair.serve (runState libraries tokenKnown before) whole)
      (request .mkdirReq otherToken (cstr "d" ++ [0]) []) :=
    inOrder_of_neither rfl (by decide) (by decide) mkdirOn
  refine forall_run_cons (fun server r => InOrder libraries someToken server r ∧ r.hdr.token ≠ someToken) made.goesOn
    ⟨made, by decide⟩ ?_
  exact List.forall_mem_nil _

def finished : FinishedUpload where
  file := pair
  addr := 0
  target := target
  start := tokenKnown
  before := before
  last := whole
  after := after
  serving := serving
  known := known
  turns := turns
  inOrder := whole_inOrder
  tries := whole_tries
  works := works rfl
  sound := whole_sound
  told := ⟨_, whole_told⟩
  others := others

theorem server_finished : finished.server = runState libraries (pair.serve (runState libraries tokenKnown before) whole) after := by
  rw [FinishedUpload.server]
  rfl

theorem fetched_record : finished.server.uman.users[0]? = some (userInit someToken) := by
  rw [server_finished]
  exact ran.2.2.2.2.2.2.1

theorem fetched_fits : (cmdDownloadInfo (cstr "/f") none).Fits := ⟨by decide, by decide, by decide, by decide⟩

theorem fetched_resolved : getUserPath libraries (cstr "/f") someToken = some filePath := by decide

theorem fetched_regular : perform (default : Env).faults .infoLstat filePath (finished.server.fs.lstat filePath) =
    .ok (.file [1, 2]) := by
  rw [server_finished, ran.2.2.2.2.2.2.2]
  rfl

theorem fetched_le : [(1 : Byte), 2].length ≤ 10 ^ 10 := by decide

/-- A client that holds nothing of it. -/
def fetched : Download where
  libs := libraries
  server := finished.server
  addr := 0
  user := userInit someToken
  token := someToken
  env := default
  name := cstr "/f"
  path := filePath
  content := [1, 2]
  held := none
  readOk := fun _ => true
  lost := fun _ => 0
  record := fetched_record
  fits := fetched_fits
  resolved := fetched_resolved
  regular := fetched_regular
  content_le := fetched_le
  held_prefix := List.nil_prefix

end pair

theorem pair.fetched_server : pair.fetched.server = pair.finished.server := by simp only [pair.fetched]

end MiniDropbox
