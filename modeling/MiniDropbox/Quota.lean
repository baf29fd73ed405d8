/-
The space of a user.

`handle_upload` compares the declared size of an upload with the space of the user,
less what he uses; nothing ever counts what he uses, and nothing compares the declared
size with what is written. So the first byte that is stored in a user's directory is
more than he uses, and a run keeps to the quota exactly if no upload stores one
(`quota_iff`). An upload without a slash in its name is not stored in the directory,
but beside it.
-/

import MiniDropbox.Isolation
import MiniDropbox.Registry
import MiniDropbox.UploadOutcome

namespace MiniDropbox

/-! ### What is stored -/

/-- The bytes of a file. -/
def Node.bytes : Node → List Byte
  | .file bytes => bytes
  | _ => []

/-- The total size of the files under a place. -/
def Fs.stored (fs : Fs) (place : Place) : Nat :=
  ((fs.nodes.filter fun entry => place <+: entry.1).map fun entry => entry.2.bytes.length).sum

theorem stored_eq_zero_iff {fs : Fs} {place : Place} : fs.stored place = 0 ↔
    ∀ q node, (q, node) ∈ fs.nodes → place <+: q → node.bytes = [] := by
  rw [Fs.stored, List.sum_eq_zero_iff_forall_eq_nat]
  constructor
  · intro zero q node mem below
    exact List.length_eq_zero_iff.mp (zero _ (List.mem_map.mpr
      ⟨(q, node), List.mem_filter.mpr ⟨mem, decide_eq_true below⟩, rfl⟩))
  · intro empty n mem
    obtain ⟨⟨q, node⟩, entry, rfl⟩ := List.mem_map.mp mem
    obtain ⟨entry, below⟩ := List.mem_filter.mp entry
    exact List.length_eq_zero_iff.mpr (empty q node entry (of_decide_eq_true below))

/-- What is put under a place counts. -/
theorem length_le_stored {fs : Fs} {place q : Place} {node : Node} (below : place <+: q) :
    node.bytes.length ≤ (fs.set q node).stored place := by
  simp only [Fs.stored, Fs.set, List.filter_cons, decide_eq_true below, if_true, List.map_cons, List.sum_cons]
  exact Nat.le_add_right _ _

/-- Nothing comes to be stored where no bytes are put. -/
theorem stored_of_changes {allowed : Place → Option Node → Prop} {fs fs' : Fs} {place : Place}
    (none : fs.stored place = 0) (changes : Changes allowed fs fs')
    (empty : ∀ q node, allowed q (some node) → place <+: q → node.bytes = []) :
    fs'.stored place = 0 := by
  induction changes with
  | refl => exact none
  | tail _ change ih =>
      rw [stored_eq_zero_iff] at ih ⊢
      intro p kept mem below
      cases change with
      | put may =>
          rcases List.mem_cons.mp mem with new | old
          · cases new
            exact empty _ _ may below
          · exact ih p kept (List.mem_filter.mp old).1 below
      | drop may => exact ih p kept (List.mem_filter.mp mem).1 below

theorem put_only {fs : Fs} (place : Place) (node : Node) :
    Change (fun q left => q = place ∧ left = some node) fs (fs.set place node) := .put ⟨rfl, rfl⟩

/-! ### What the loop of `file_recv` stores -/

section Receiving

variable {libs : Externals} {count : Nat}

/-- A chunk is about to be written of which the write stores a byte. -/
def StoresByte (x : RecvSys × RecvState) : Prop :=
  ∃ seq chunk, x.2.pc = .write seq chunk ∧ x.1.lost < chunk.data.length

theorem recvAccept_file {sys : RecvSys} {s : RecvState} {seq : Nat} {chunk : Chunk} {sock : Sock} :
    (recvAccept sys s seq chunk sock).file = s.file := by
  unfold recvAccept
  split_ifs
  · rfl
  · split <;> rfl
  · rfl
  · rfl

theorem not_storesByte {x : RecvSys × RecvState} (other : ∀ seq chunk, x.2.pc ≠ .write seq chunk) :
    ¬ StoresByte x := by
  rintro ⟨seq, chunk, pc, -⟩
  exact other seq chunk pc

/-- A step leaves the file as it is, or stores a byte behind the offset of the write. -/
theorem recvStep_file {sys : RecvSys} {s next : RecvState} {out : List Byte}
    (step : recvStep libs count sys s = some (next, out)) :
    ¬ StoresByte (sys, s) ∧ next.file = s.file ∨
      StoresByte (sys, s) ∧ s.file.length ≤ next.file.length ∧ s.pos < next.file.length := by
  cases recvStep_moves step with
  | written pc stored =>
      rename_i seq chunk part
      have length : part.length = chunk.data.length - sys.lost := by
        rw [stored]
        exact List.length_take_of_le (Nat.sub_le _ _)
      by_cases lost : sys.lost < chunk.data.length
      · have nonempty : part ≠ [] := List.ne_nil_of_length_pos (by rw [length]; exact Nat.sub_pos_of_lt lost)
        refine .inr ⟨⟨seq, chunk, pc, lost⟩, ?_⟩
        rw [Splice.length_splice nonempty, length]
        refine ⟨Nat.le_max_left _ _, Nat.lt_of_lt_of_le ?_ (Nat.le_max_right _ _)⟩
        exact Nat.lt_add_of_pos_right (Nat.sub_pos_of_lt lost)
      · refine .inl ⟨?_, ?_⟩
        · rintro ⟨seq', chunk', at_write, stores⟩
          cases pc.symm.trans at_write
          exact lost stores
        · rw [stored, Nat.sub_eq_zero_of_le (Nat.le_of_not_lt lost), List.take_zero, Splice.splice_nil]
  | received pc => exact .inl ⟨not_storesByte (by simp [pc]), recvAccept_file⟩
  | done pc => exact .inl ⟨not_storesByte (by simp [pc]), rfl⟩
  | garbled pc => exact .inl ⟨not_storesByte (by simp [pc]), rfl⟩
  | refused pc => exact .inl ⟨not_storesByte (by simp [pc]), rfl⟩
  | failed pc => exact .inl ⟨not_storesByte (by simp [pc]), rfl⟩
  | unasked pc => exact .inl ⟨not_storesByte (by simp [pc]), rfl⟩
  | asked pc => exact .inl ⟨not_storesByte (by simp [pc]), rfl⟩
  | unacknowledged pc => exact .inl ⟨not_storesByte (by simp [pc]), rfl⟩
  | acknowledged pc => exact .inl ⟨not_storesByte (by simp [pc]), rfl⟩

/-- The file only grows, and a byte that is written is in it. -/
theorem recvLoop_length {sys : Nat → RecvSys} {fuel : Nat} {s : RecvState} :
    s.file.length ≤ (recvLoop libs count sys fuel s).1.file.length ∧
      ∀ x ∈ recvTrace libs count sys fuel s, StoresByte x →
        x.2.pos < (recvLoop libs count sys fuel s).1.file.length := by
  induction fuel generalizing s with
  | zero => exact ⟨Nat.le_refl _, List.forall_mem_nil _⟩
  | succ fuel ih =>
      rw [recvLoop, recvTrace]
      cases step : recvStep libs count (sys fuel) s with
      | none => exact ⟨Nat.le_refl _, List.forall_mem_nil _⟩
      | some move =>
          obtain ⟨next, out⟩ := move
          obtain ⟨grows, inside⟩ := @ih next
          dsimp only
          refine ⟨?_, fun x hx stores => ?_⟩
          · rcases recvStep_file step with ⟨-, same⟩ | ⟨-, larger, -⟩
            · rw [← same]
              exact grows
            · exact Nat.le_trans larger grows
          · rcases List.mem_cons.mp hx with rfl | later
            · rcases recvStep_file step with ⟨quiet, -⟩ | ⟨-, -, behind⟩
              · exact absurd stores quiet
              · exact Nat.lt_of_lt_of_le behind grows
            · exact inside x later stores

/-- Where no byte is stored, the file stays as it is. -/
theorem recvLoop_file {sys : Nat → RecvSys} {fuel : Nat} {s : RecvState}
    (quiet : ∀ x ∈ recvTrace libs count sys fuel s, ¬ StoresByte x) :
    (recvLoop libs count sys fuel s).1.file = s.file := by
  induction fuel generalizing s with
  | zero => rfl
  | succ fuel ih =>
      rw [recvTrace] at quiet
      rw [recvLoop]
      cases step : recvStep libs count (sys fuel) s with
      | none => rfl
      | some move =>
          obtain ⟨next, out⟩ := move
          rw [step] at quiet
          dsimp only
          rw [ih fun x hx => quiet x (List.mem_cons_of_mem _ hx)]
          rcases recvStep_file step with ⟨-, same⟩ | ⟨stores, -⟩
          · exact same
          · exact absurd stores (quiet _ List.mem_cons_self)

/-- An empty file stays empty exactly if no byte is stored. -/
theorem recvLoop_file_eq_nil_iff {sys : Nat → RecvSys} {fuel : Nat} {s : RecvState} (empty : s.file = []) :
    (recvLoop libs count sys fuel s).1.file = [] ↔ ∀ x ∈ recvTrace libs count sys fuel s, ¬ StoresByte x := by
  constructor
  · intro nothing x hx stores
    have inside := recvLoop_length.2 x hx stores
    rw [nothing] at inside
    exact absurd inside (Nat.not_lt_zero _)
  · intro quiet
    rw [recvLoop_file quiet, empty]

end Receiving

/-! ### What an upload stores -/

section Uploads

variable {libs : Externals} {env : Env} {server : Server} {addr : Nat} {r : Request}

/-- A write of the call stores a byte. -/
def UploadCall.StoresByte (libs : Externals) (env : Env) (call : UploadCall) : Prop :=
  ∃ steps ∈ call.steps libs env, ∃ x ∈ steps, MiniDropbox.StoresByte x

/-- The tree `file_recv` leaves. -/
def FileRecv.tree : FileRecv → Fs
  | .ret fs _ _ => fs
  | .blocked fs => fs
  | .faulted fs => fs

theorem fileRecv_tree {fs : Fs} {info : FileInfo} {sock : Sock} : (fileRecv libs env fs info sock).tree =
    match perform env.faults .recvOpen info.filename (fs.openCreate info.filename) with
    | .error _ => fs
    | .ok (fs, place, bytes) => fs.set place
        (.file (recvLoop libs info.chunkCount env.recv sock.fuel (recvStart bytes sock)).1.file) := by
  unfold fileRecv
  cases perform env.faults .recvOpen info.filename (fs.openCreate info.filename) with
  | error errno => rfl
  | ok target =>
      dsimp only
      split <;> rfl

theorem handleUpload_tree {next : Server} {place : Option Nat} {info : FileInfo} {seq : Nat} {sock : Sock}
    (ready : uploadPrepare libs r.env server (some addr) r.hdr r.sock = .ready next place info seq sock) :
    (handleUpload libs r.env server (some addr) r.hdr r.sock).server.fs =
      (fileRecv libs r.env next.fs info sock).tree := by
  unfold handleUpload
  rw [ready]
  simp only [modifySession_fs]
  cases fileRecv libs r.env next.fs info sock with
  | blocked fs => rfl
  | faulted fs => rfl
  | ret fs rest stats => simp only [uploadFinish_fs, FileRecv.tree]

/-- A file is stored in the user's directory exactly when its path lies there. -/
theorem uploadName_lies {token : Token} {info received : FileInfo} {behind : List Byte} {fs fs' : Fs}
    {place : Place} {old : List Byte} (free : LinkFree fs) (clean : 0 ∉ received.filename)
    (named : info.filename = uploadName libs token received behind)
    (ok : fs.openCreate info.filename = .ok (fs', place, old)) :
    userPlace libs token <+: place ↔ LiesIn (getUserRoot libs token) info.filename := by
  rw [named] at ok ⊢
  obtain ⟨inside, beside⟩ := uploadName_place free clean ok
  rw [uploadName_of_short clean (resolve_fits (openCreate_place ok).1).2]
  rcases strrchr_cases received.filename with ⟨nowhere, none⟩ | ⟨has, last, here, -, -⟩
  · rw [beside nowhere, none]
    refine iff_of_false (sibling_beside libs token) ?_
    rintro (same | inside)
    · exact absurd ((List.append_right_inj _).mp (same.trans (List.append_nil _).symm)) (by decide)
    · exact absurd ((List.prefix_append_right_inj _).mp inside) (by decide)
  · obtain ⟨name, -, there⟩ := inside has
    rw [there, here]
    refine ⟨fun _ => .inr ⟨last, by simp [printed]⟩, fun _ => List.prefix_append _ _⟩

/-- An upload leaves the user's directory without bytes exactly if it stores none in it. -/
theorem handleUpload_stored (ordinary : Ordinary server.fs)
    (none : server.fs.stored (userPlace libs r.hdr.token) = 0) :
    (handleUpload libs r.env server (some addr) r.hdr r.sock).server.fs.stored (userPlace libs r.hdr.token) = 0 ↔
      ∀ call ∈ uploadCall libs server addr r, LiesIn (getUserRoot libs r.hdr.token) call.info.filename →
        ¬ call.StoresByte libs r.env := by
  have prepared := @uploadPrepare_changes libs r.env server (some addr) r.hdr r.sock ordinary
  cases early : uploadPrepare libs r.env server (some addr) r.hdr r.sock with
  | returned next sock events =>
      rw [early] at prepared
      simp only [handleUpload, uploadCall, early, prepared, none]
      simp
  | blocked =>
      simp only [handleUpload, uploadCall, early, none]
      simp
  | ready next place info seq sock =>
      rw [early] at prepared
      obtain ⟨rooted, received, behind, clean, named⟩ := prepared
      have free : LinkFree next.fs :=
        (ordinary.changes rooted fun _ _ root => Stores.mild _ _ (.inl root)).links
      have still : next.fs.stored (userPlace libs r.hdr.token) = 0 :=
        stored_of_changes none rooted fun _ node root _ => by cases root.2; rfl
      simp only [handleUpload_tree early, fileRecv_tree, uploadCall, early, Option.mem_def, Option.some.injEq,
        forall_eq', UploadCall.StoresByte, UploadCall.steps]
      cases opened : perform r.env.faults .recvOpen info.filename (next.fs.openCreate info.filename) with
      | error errno => simp [still]
      | ok target =>
          obtain ⟨fs, target, bytes⟩ := target
          have opens := perform_ok opened
          have lies := uploadName_lies free clean named opens
          have old : userPlace libs r.hdr.token <+: target → bytes = [] := by
            intro inside
            rcases (openCreate_place opens).2 with ⟨-, -, fresh⟩ | ⟨there, -⟩
            · exact fresh
            · exact stored_eq_zero_iff.mp still target _ (mem_of_get? (by rintro rfl; cases there) there) inside
          have rest : fs.stored (userPlace libs r.hdr.token) = 0 := by
            rcases (openCreate_place opens).2 with ⟨-, rfl, -⟩ | ⟨-, rfl⟩
            · exact stored_of_changes still (.single (put_only target (.file []))) fun _ node only _ => by
                cases only.2
                rfl
            · exact still
          simp only [Option.some.injEq, exists_eq_left', ← lies, not_exists, not_and]
          have empty : userPlace libs r.hdr.token <+: target → _ := fun inside =>
            @recvLoop_file_eq_nil_iff libs info.chunkCount r.env.recv sock.fuel (recvStart bytes sock) (old inside)
          generalize (recvLoop libs info.chunkCount r.env.recv sock.fuel (recvStart bytes sock)).1.file = file at empty
          constructor
          · intro zero inside
            have bound := @length_le_stored fs _ target (.file file) inside
            rw [zero] at bound
            exact (empty inside).mp (List.eq_nil_of_length_eq_zero (Nat.le_zero.mp bound))
          · intro quiet
            refine stored_of_changes rest (.single (put_only target _)) fun q node only inside => ?_
            obtain ⟨rfl, same⟩ := only
            cases same
            exact (empty inside).mpr (quiet inside)

end Uploads

/-! ### The quota -/

/-- What a user has stored is within his space, and within what he is known to use. -/
def WithinQuota (libs : Externals) (server : Server) : Prop :=
  ∀ t addr user, umanGetUser server.uman t = some (some addr) → server.uman.users[addr]? = some user →
    server.fs.stored (userPlace libs t) ≤ user.totalSpace ∧
      server.fs.stored (userPlace libs t) ≤ user.usedSpace

/-- An upload that would exceed the space of its user is refused before it writes. -/
def RefusesExcess (libs : Externals) (server : Server) (r : Request) : Prop :=
  ∀ addr user payload rest, dispatch r.hdr = .accept .uploadReq →
    umanGetUser server.uman r.hdr.token = some (some addr) → server.uman.users[addr]? = some user →
    msgRecvPayload r.sock r.hdr.length sizeofFileInfo = .ok payload rest →
    user.totalSpace < server.fs.stored (userPlace libs r.hdr.token) +
      (FileInfo.decode (payload ++ r.env.tail)).size →
    (r.serve libs server).server.fs = server.fs ∧
      (r.serve libs server).events = [sendError (cstr "user storage space is not sufficient")]

/-- An upload of a registered user that stores a byte in his directory. -/
def Fills (libs : Externals) (server : Server) (r : Request) : Prop :=
  dispatch r.hdr = .accept .uploadReq ∧ ∃ addr, umanGetUser server.uman r.hdr.token = some (some addr) ∧
    ∃ call ∈ uploadCall libs server addr r, LiesIn (getUserRoot libs r.hdr.token) call.info.filename ∧
      call.StoresByte libs r.env

section Quota

variable {libs : Externals} {server : Server} {r : Request}

/-- Nothing is stored for anybody, and nothing counted. -/
structure Vacant (libs : Externals) (server : Server) : Prop where
  ordinary : Ordinary server.fs
  empty : ∀ t, server.fs.stored (userPlace libs t) = 0
  accounts : ∀ a ∈ server.uman.users.map User.account, a.usedSpace = 0 ∧ a.totalSpace = MAX_USER_SPACE

theorem Vacant.record (vacant : Vacant libs server) {addr : Nat} {user : User}
    (record : server.uman.users[addr]? = some user) : user.usedSpace = 0 ∧ user.totalSpace = MAX_USER_SPACE :=
  vacant.accounts user.account (List.mem_map_of_mem (List.mem_of_getElem? record))

theorem Vacant.withinQuota (vacant : Vacant libs server) : WithinQuota libs server := by
  intro t addr user _ _
  rw [vacant.empty t]
  exact ⟨Nat.zero_le _, Nat.zero_le _⟩

theorem FileInfo.decode_size_lt (memory : List Byte) : (FileInfo.decode memory).size < 2 ^ 64 := by
  have bound := LittleEndian.decode_lt (memory.take 8)
  refine Nat.lt_of_lt_of_le bound (Nat.le_trans (Nat.pow_le_pow_right (by decide) (List.length_take_le _ _)) ?_)
  decide

/-- With nothing counted, the test of the declared size is exact. -/
theorem Vacant.refusesExcess (vacant : Vacant libs server) : RefusesExcess libs server r := by
  intro addr user payload rest upload registered record received large
  obtain ⟨used, -⟩ := vacant.record record
  have size := FileInfo.decode_size_lt (payload ++ r.env.tail)
  rw [vacant.empty, Nat.zero_add] at large
  have refused : uploadPrepare libs r.env server (some addr) r.hdr r.sock =
      .returned server rest [sendError (cstr "user storage space is not sufficient")] := by
    simp only [uploadPrepare, Option.bind_some, record, Option.map_some, received, uploadAccept, used,
      Nat.zero_add, sizeT_of_lt size]
    rw [if_pos large]
  rw [serve_upload upload registered, handleUpload, refused]
  exact ⟨rfl, rfl⟩

theorem onOneshotReq_stored {type : MessageType} {user : Option Nat} {payload : Option (List Byte)}
    {next : Server} {events : List Event} (vacant : Vacant libs server)
    (ok : onOneshotReq libs r.env server user r.hdr type payload = some (next, events)) :
    next.fs.stored (userPlace libs r.hdr.token) = 0 := by
  have none := vacant.empty r.hdr.token
  unfold onOneshotReq at ok
  split at ok
  · refine stored_of_changes none (handleAuth_changes vacant.ordinary.links ok) fun q node root _ => ?_
    cases root.2
    rfl
  · have removed := @handleRemove_changes libs r.env server user r.hdr payload vacant.ordinary
    rw [Option.some.inj ok] at removed
    rcases removed with same | ⟨bytes, path, x, more, -, -, -, changes⟩
    · rw [same]
      exact none
    · exact stored_of_changes none changes fun q node removes _ => by cases removes.1
  · obtain ⟨x, more, -, changes⟩ := @handleMkdir_changes libs r.env server user r.hdr payload vacant.ordinary
    rw [Option.some.inj ok] at changes
    refine stored_of_changes none changes fun q node makes _ => ?_
    cases makes.1
    rfl
  · cases ok
    exact none

/-- A message that is no upload of a registered user stores nothing. -/
theorem Vacant.other (vacant : Vacant libs server)
    (other : ∀ addr, dispatch r.hdr = .accept .uploadReq → umanGetUser server.uman r.hdr.token ≠ some (some addr)) :
    (r.serve libs server).server.fs.stored (userPlace libs r.hdr.token) = 0 := by
  have none := vacant.empty r.hdr.token
  unfold Request.serve onClientMessageReceived
  cases dispatched : dispatch r.hdr with
  | abort => exact none
  | refuse => exact none
  | accept type =>
      dsimp only
      cases found : umanGetUser server.uman r.hdr.token with
      | none => exact none
      | some user =>
          dsimp only
          cases kind : type.kind with
          | ignored => exact none
          | stream =>
              cases type
              case uploadReq =>
                cases user with
                | none => exact none
                | some addr => exact absurd found (other addr dispatched)
              case downloadReq =>
                simp only [onStreamReq, handleDownload_fs]
                exact none
              case listReq =>
                simp only [onStreamReq, handleList_fs]
                exact none
              all_goals exact none
          | oneshot =>
              dsimp only
              split
              · exact none
              · rename_i handled
                exact onOneshotReq_stored vacant handled

/-- What a message leaves in the directory of its user. -/
theorem Vacant.own_iff (vacant : Vacant libs server) :
    (r.serve libs server).server.fs.stored (userPlace libs r.hdr.token) = 0 ↔ ¬ Fills libs server r := by
  by_cases upload : ∃ addr, dispatch r.hdr = .accept .uploadReq ∧ umanGetUser server.uman r.hdr.token = some (some addr)
  · obtain ⟨addr, dispatched, registered⟩ := upload
    rw [serve_upload dispatched registered, handleUpload_stored vacant.ordinary (vacant.empty _)]
    constructor
    · rintro quiet ⟨-, addr', registered', call, called, inside, stores⟩
      cases registered.symm.trans registered'
      exact quiet call called inside stores
    · intro quiet call called inside stores
      exact quiet ⟨dispatched, addr, registered, call, called, inside, stores⟩
  · refine iff_of_true (vacant.other fun addr dispatched registered => upload ⟨addr, dispatched, registered⟩) ?_
    rintro ⟨dispatched, addr, registered, -⟩
    exact upload ⟨addr, dispatched, registered⟩

/-- No message changes what is counted. -/
theorem serve_accounts
    (accounts : ∀ a ∈ server.uman.users.map User.account, a.usedSpace = 0 ∧ a.totalSpace = MAX_USER_SPACE) :
    ∀ a ∈ (r.serve libs server).server.uman.users.map User.account,
      a.usedSpace = 0 ∧ a.totalSpace = MAX_USER_SPACE := by
  by_cases auth : dispatch r.hdr = .accept .authReq
  · unfold Request.serve onClientMessageReceived
    rw [auth]
    dsimp only
    cases umanGetUser server.uman r.hdr.token with
    | none => exact accounts
    | some user =>
        dsimp only [MessageType.kind, onOneshotReq]
        split
        · exact accounts
        · rename_i handled
          obtain ⟨uman, registered, handled⟩ := Option.bind_eq_some_iff.mp handled
          obtain ⟨put, -, made⟩ := Option.bind_eq_some_iff.mp registered
          cases handled
          cases made
          intro a mem
          rw [List.map_append] at mem
          rcases List.mem_append.mp mem with old | new
          · exact accounts a old
          · rw [List.mem_singleton.mp new]
            exact ⟨rfl, rfl⟩
  · rw [(serve_users auth).2]
    exact accounts

theorem Vacant.serve (vacant : Vacant libs server) (quiet : ¬ Fills libs server r) :
    Vacant libs (r.serve libs server).server := by
  refine ⟨ordinary_serve vacant.ordinary, fun t => ?_, serve_accounts vacant.accounts⟩
  by_cases own : t = r.hdr.token
  · rw [own]
    exact vacant.own_iff.mpr quiet
  · exact stored_of_changes (vacant.empty t) (serve_touches vacant.ordinary)
      fun _ _ touches inside => absurd inside (touches.elsewhere own)

theorem uploadCall_inside {addr : Nat} {call : UploadCall} (called : call ∈ uploadCall libs server addr r) :
    addr < server.uman.users.length := by
  refine Nat.lt_of_not_le fun beyond => ?_
  have nobody : uploadPrepare libs r.env server (some addr) r.hdr r.sock =
      .returned server r.sock [sendError (cstr "user not found")] := by
    simp only [uploadPrepare, Option.bind_some, List.getElem?_eq_none beyond, Option.map_none]
  rw [uploadCall, nobody] at called
  cases called

/-- A stored byte is more than is counted. -/
theorem Vacant.exceeds (vacant : Vacant libs server) (fills : Fills libs server r) :
    ¬ WithinQuota libs (r.serve libs server).server := by
  have stores := mt vacant.own_iff.mp (not_not.mpr fills)
  obtain ⟨dispatched, addr, registered, call, called, -⟩ := fills
  intro within
  have same := @serve_users libs server r (by rw [dispatched]; nofun)
  have lengths := congrArg List.length same.2
  rw [List.length_map, List.length_map] at lengths
  have inside : addr < (r.serve libs server).server.uman.users.length := by
    rw [lengths]
    exact uploadCall_inside called
  have record := List.getElem?_eq_getElem inside
  have account := serve_accounts vacant.accounts _ (List.mem_map_of_mem (List.mem_of_getElem? record))
  have kept : umanGetUser (r.serve libs server).server.uman r.hdr.token = some (some addr) := by
    rw [umanGetUser, same.1]
    exact registered
  have used := (within _ _ _ kept record).2
  exact stores (Nat.le_zero.mp (Nat.le_trans used (Nat.le_of_eq account.1)))

/-- A run from a state in which nothing is stored keeps to the quota exactly if no upload
stores a byte in its user's directory. -/
theorem quota_run {rs : List Request} (vacant : Vacant libs server) :
    (Always libs (WithinQuota libs) server rs ∧ ∀ p ∈ run libs server rs, RefusesExcess libs p.1 p.2) ↔
      ∀ p ∈ run libs server rs, ¬ Fills libs p.1 p.2 := by
  induction rs generalizing server with
  | nil => exact ⟨fun _ => List.forall_mem_nil _,
      fun _ => ⟨⟨List.forall_mem_nil _, vacant.withinQuota⟩, List.forall_mem_nil _⟩⟩
  | cons r rs ih =>
      rw [always_cons, run, List.forall_mem_cons, List.forall_mem_cons]
      by_cases fills : Fills libs server r
      · refine iff_of_false (fun kept => vacant.exceeds fills kept.1.2.first) (fun quiet => quiet.1 fills)
      · have next := vacant.serve fills
        have first : RefusesExcess libs server r := vacant.refusesExcess
        split_ifs with goes
        · have rest := ih next
          constructor
          · rintro ⟨⟨-, later⟩, -, refused⟩
            exact ⟨fills, rest.mp ⟨later, refused⟩⟩
          · rintro ⟨-, quiet⟩
            obtain ⟨later, refused⟩ := rest.mpr quiet
            exact ⟨⟨vacant.withinQuota, later⟩, first, refused⟩
        · exact iff_of_true
            ⟨⟨vacant.withinQuota, List.forall_mem_nil _, next.withinQuota⟩, first, List.forall_mem_nil _⟩
            ⟨fills, List.forall_mem_nil _⟩

theorem vacant_boot (libs : Externals) (outside : List (Place × Node)) (cwd : Place) :
    Vacant libs (boot outside cwd) := by
  refine ⟨ordinary_boot outside cwd, fun t => ?_, nofun⟩
  rw [stored_eq_zero_iff]
  intro q node mem inside
  have within : storagePlace <+: q := (List.prefix_append storagePlace [libs.uuidUnparse t]).trans inside
  rcases List.mem_cons.mp mem with storage | mem
  · cases storage
    rfl
  rcases List.mem_cons.mp mem with var | other
  · cases var
    rfl
  · have beside := (List.mem_filter.mp other).2
    rw [decide_eq_true_eq] at beside
    exact absurd within beside

end Quota

/-- In a run from an empty storage directory, what every user has stored is always within
his space and what he is known to use, and every upload that would exceed it is refused,
if and only if no upload stores a byte in its user's directory. -/
theorem quota_iff (libs : Externals) (outside : List (Place × Node)) (cwd : Place) (rs : List Request) :
    (Always libs (WithinQuota libs) (boot outside cwd) rs ∧
        ∀ p ∈ run libs (boot outside cwd) rs, RefusesExcess libs p.1 p.2) ↔
      ∀ p ∈ run libs (boot outside cwd) rs, ¬ Fills libs p.1 p.2 :=
  quota_run (vacant_boot libs outside cwd)

/-- The `FileInfo` of a file that is declared to have one byte and many chunks. -/
def smallFile : FileInfo := ⟨1, 2441408, ⟨List.replicate 32 0, length_zeroed⟩, cstr "/f"⟩

/-- The last of these chunks, shortened. -/
def farChunk : List Byte := chunkWire default (sendChunk libraries 2441407 0 [7])

theorem smallFile_fits : smallFile.Fits := ⟨by decide, by decide, by decide, by decide⟩

/-- The write is behind the space of a user. -/
def writesFar (x : RecvSys × RecvState) : Bool :=
  match x.2.pc with
  | .write _ chunk => decide (x.1.lost < chunk.data.length ∧ MAX_USER_SPACE < x.2.pos)
  | _ => false

theorem storesByte_of_writesFar {x : RecvSys × RecvState} (far : writesFar x = true) :
    StoresByte x ∧ MAX_USER_SPACE < x.2.pos := by
  unfold writesFar at far
  split at far
  · rename_i seq chunk pc
    obtain ⟨lost, pos⟩ := of_decide_eq_true far
    exact ⟨⟨seq, chunk, pc, lost⟩, pos⟩
  · cases far

/-- A byte is written behind the space of the user. -/
theorem farChunk_stored : ∃ x ∈ recvTrace libraries smallFile.chunkCount (default : Env).recv
    (Sock.fuel ⟨farChunk, [], .opened⟩) (recvStart [] ⟨farChunk, [], .opened⟩),
      StoresByte x ∧ MAX_USER_SPACE < x.2.pos := by
  have found : ((recvTrace libraries smallFile.chunkCount (default : Env).recv
      (Sock.fuel ⟨farChunk, [], .opened⟩) (recvStart [] ⟨farChunk, [], .opened⟩)).any writesFar) = true := by
    decide +kernel
  obtain ⟨x, mem, far⟩ := List.any_eq_true.mp found
  exact ⟨x, mem, storesByte_of_writesFar far⟩

/-- The tree after that upload: a file in the user's directory, with that byte in it. -/
theorem smallFile_tree : ∃ (fs : Fs) (file : List Byte),
    ((uploading smallFile farChunk .opened).serve libraries tokenKnown).server.fs =
      fs.set (userPlace libraries someToken ++ [cstr "f"]) (.file file) ∧
    MAX_USER_SPACE < file.length := by
  obtain ⟨served, prepared⟩ := @serve_uploading tokenKnown 0 _ smallFile farChunk .opened smallFile_fits
    tokenKnown_lookup tokenKnown_record
  have ends := @uploadAccept_ends libraries default tokenKnown 0 (userInit someToken) someToken smallFile []
    ⟨farChunk, [], .opened⟩
  cases ready : uploadAccept libraries default tokenKnown 0 (userInit someToken) someToken smallFile []
      ⟨farChunk, [], .opened⟩ with
  | blocked =>
      rw [ready] at ends
      exact ends.elim
  | returned next sock events =>
      rw [ready] at ends
      exact absurd ends.2 (by decide)
  | ready next place info seq sock =>
      rw [ready] at ends prepared
      obtain ⟨-, made, rfl, rfl⟩ := ends
      have there : rootMade libraries (default : Env).faults tokenKnown.fs someToken = some tokenKnown.fs := by
        decide
      have opened : (tokenKnown.fs.openCreate (uploadName libraries someToken smallFile [])).map (·.2) =
          .ok (userPlace libraries someToken ++ [cstr "f"], []) := by decide
      have tree := @handleUpload_tree libraries tokenKnown 0 (uploading smallFile farChunk .opened) _ _ _ _ _ prepared
      rw [← Option.some.inj (there.symm.trans made), fileRecv_tree] at tree
      cases opens : tokenKnown.fs.openCreate (uploadName libraries someToken smallFile []) with
      | error errno =>
          rw [opens] at opened
          cases opened
      | ok found =>
          obtain ⟨fs, target, bytes⟩ := found
          rw [opens, Except.map] at opened
          cases opened
          obtain ⟨x, mem, stores, pos⟩ := farChunk_stored
          refine ⟨fs, _, ?_, Nat.lt_trans pos (recvLoop_length.2 x mem stores)⟩
          have env : (uploading smallFile farChunk .opened).env = default := rfl
          have performed : perform (default : Env).faults .recvOpen (uploadName libraries someToken smallFile [])
              (tokenKnown.fs.openCreate (uploadName libraries someToken smallFile [])) =
                .ok (fs, userPlace libraries someToken ++ [cstr "f"], []) := opens
          rw [env] at tree
          dsimp only at tree
          rw [performed] at tree
          rw [served, tree]

/-- The user comes to have more stored than the space he has. -/
theorem quota_exceeded :
    let rs := [request .authReq someToken [] [], uploading smallFile farChunk .opened]
    let final := runState libraries (boot [] []) rs
    (∃ user, umanGetUser final.uman someToken = some (some 0) ∧ final.uman.users[0]? = some user ∧
      user.totalSpace < final.fs.stored (userPlace libraries someToken)) ∧
    ¬ Always libraries (WithinQuota libraries) (boot [] []) rs := by
  intro rs final
  have state : final = ((uploading smallFile farChunk .opened).serve libraries tokenKnown).server := by
    simp only [final, rs, runState_known]
    simp [runState]
  have upload : dispatch (uploading smallFile farChunk .opened).hdr = .accept .uploadReq := by decide
  have same : SameUsers tokenKnown.uman final.uman := by
    rw [state]
    exact serve_users (by rw [upload]; simp)
  have known : umanGetUser final.uman someToken = some (some 0) := by
    rw [umanGetUser, same.1]
    exact tokenKnown_lookup
  obtain ⟨user, found, space⟩ : ∃ user, final.uman.users[0]? = some user ∧ user.totalSpace = MAX_USER_SPACE := by
    have listed := congrArg (·[0]?) same.2
    simp only [List.getElem?_map, tokenKnown_record, Option.map_some] at listed
    obtain ⟨user, found, account⟩ := Option.map_eq_some_iff.mp listed
    exact ⟨user, found, congrArg User.totalSpace account⟩
  have large : user.totalSpace < final.fs.stored (userPlace libraries someToken) := by
    obtain ⟨fs, file, tree, long⟩ := smallFile_tree
    have bound : file.length ≤ (fs.set (userPlace libraries someToken ++ [cstr "f"]) (.file file)).stored
        (userPlace libraries someToken) :=
      @length_le_stored fs _ _ (.file file) (List.prefix_append _ _)
    rw [state, tree, space]
    exact Nat.lt_of_lt_of_le long bound
  refine ⟨⟨user, known, found, large⟩, fun kept => ?_⟩
  have within : WithinQuota libraries final := kept.2
  exact absurd (within someToken 0 user known found).1 (Nat.not_le.mpr large)

end MiniDropbox
