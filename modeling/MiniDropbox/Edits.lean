/-
What the server does to the file system.

Whatever a request makes the server do to the tree is a sequence of `Edit`s: a
directory is made, a regular file is written, an entry is removed. `serve_edits`
says it of every message, `run_edits` of every run. Since no edit makes a symbolic
link, the links a run meets are those it started with (`links_of_edits`).
-/

import Mathlib.Logic.Relation
import MiniDropbox.Server

namespace MiniDropbox

/-- One change of the tree. -/
inductive Edit (fs : Fs) : Fs → Prop
  | mkdir (place : Place) : Edit fs (fs.set place .dir)
  | write (place : Place) (bytes : List Byte) : Edit fs (fs.set place (.file bytes))
  | remove (place : Place) : Edit fs (fs.erase place)

/-- A sequence of changes. -/
abbrev Edits : Fs → Fs → Prop := Relation.ReflTransGen Edit

/-! ### System calls and the functions that use them -/

section Calls

variable {faults : Faults} {fs fs' : Fs} {path : CStr} {errno : Errno}

theorem unfailed_of_perform {α : Type} {site : Site} {call : Except Errno α} {value : α}
    (ok : perform faults site path call = .ok value) : faults site path = none := by
  unfold perform at ok
  split at ok
  · cases ok
  · assumption

theorem perform_ok {α : Type} {site : Site} {call : Except Errno α} {value : α}
    (ok : perform faults site path call = .ok value) : call = .ok value := by
  unfold perform at ok
  split at ok
  · cases ok
  · exact ok

theorem mkdir_edits (ok : fs.mkdir path = .ok fs') : Edits fs fs' := by
  obtain ⟨place, -, ok⟩ := ok_of_bind ok
  split at ok
  · cases ok
    exact .single (.mkdir place)
  · cases ok

theorem unlink_edits (ok : fs.unlink path = .ok fs') : Edits fs fs' := by
  obtain ⟨place, -, ok⟩ := ok_of_bind ok
  split at ok
  · cases ok
  · cases ok
  · cases ok
    exact .single (.remove place)

/-- What `rmdir` removes is an empty directory that the path ends in the name of. -/
theorem rmdir_place (ok : fs.rmdir path = .ok fs') :
    ∃ place, fs.resolve false (trimSlashes path) = .ok place ∧ refusedName (components path).getLast? = none ∧
      fs.get? place = some .dir ∧ fs.names place = [] ∧ fs' = fs.erase place := by
  obtain ⟨place, resolved, ok⟩ := ok_of_bind ok
  cases refused : refusedName (components path).getLast? with
  | some errno =>
      rw [refused] at ok
      cases ok
  | none =>
      rw [refused] at ok
      dsimp only at ok
      split at ok
      · cases ok
      · rename_i directory
        split_ifs at ok with empty
        cases ok
        exact ⟨place, resolved, rfl, directory, empty, rfl⟩
      · cases ok

theorem rmdir_edits (ok : fs.rmdir path = .ok fs') : Edits fs fs' := by
  obtain ⟨place, -, -, -, -, rfl⟩ := rmdir_place ok
  exact .single (.remove place)

theorem openCreate_edits {place : Place} {bytes : List Byte}
    (ok : fs.openCreate path = .ok (fs', place, bytes)) : Edits fs fs' := by
  obtain ⟨found, -, ok⟩ := ok_of_bind ok
  split at ok
  · cases ok
    exact .single (.write _ [])
  · cases ok
    exact .refl
  · cases ok
  · cases ok

theorem createDirectories_edits {fuel : Nat} {iter : PathIter} :
    Edits fs (createDirectories faults fs fuel iter).1 := by
  induction fuel generalizing fs iter with
  | zero => exact .refl
  | succ fuel ih =>
      rw [createDirectories]
      split
      · exact .refl
      · rename_i dir next _
        cases made : perform faults .mkdir dir (fs.mkdir dir) with
        | ok fs' => exact (mkdir_edits (perform_ok made)).trans ih
        | error errno =>
            dsimp only
            split_ifs
            · exact ih
            · exact .refl

theorem createDirectoriesFromPath_edits {rootDir userPath : CStr} :
    Edits fs (createDirectoriesFromPath faults fs rootDir userPath).1 := by
  unfold createDirectoriesFromPath
  dsimp only
  split_ifs
  · have edits := @createDirectories_edits faults fs
    split
    · rename_i made
      rw [← congrArg Prod.fst made]
      exact edits
    · rename_i made
      rw [← congrArg Prod.fst made]
      exact edits
  · exact .refl

theorem rmR_edits {fuel : Nat} : Edits fs (rmR faults fuel fs path).1 := by
  induction fuel generalizing fs path with
  | zero => exact .refl
  | succ fuel ih =>
      have emptied : ∀ (names : List CStr) (fs : Fs), Edits fs (names.foldl (fun fs name =>
          (rmR faults fuel fs (snprintf PATH_MAX (path ++ slash :: name))).1) fs) := by
        intro names
        induction names with
        | nil => exact fun _ => .refl
        | cons name names rest => exact fun fs => ih.trans (rest _)
      rw [rmR]
      split
      · exact .refl
      · split
        · exact .refl
        · rename_i names _
          dsimp only
          split
          · exact emptied names fs
          · rename_i removed
            exact (emptied names fs).trans (rmdir_edits (perform_ok removed))
      · split
        · exact .refl
        · rename_i removed
          exact unlink_edits (perform_ok removed)

end Calls

/-! ### Handlers -/

section Handlers

variable {libs : Externals} {env : Env} {server : Server} {user : Option Nat} {hdr : MessageHdr}

@[simp] theorem modifyUser_fs (addr : Nat) (f : User → User) :
    (server.modifyUser addr f).fs = server.fs := rfl

@[simp] theorem modifySession_fs (addr : Nat) (place : Option Nat) (f : Session → Session) :
    (server.modifySession addr place f).fs = server.fs := by
  cases place <;> rfl

theorem handleAuth_edits {next : Server} {events : List Event}
    (ok : handleAuth libs env server hdr = some (next, events)) : Edits server.fs next.fs := by
  obtain ⟨uman, -, ok⟩ := Option.bind_eq_some_iff.mp ok
  cases made : perform env.faults .mkdir (snprintf PATH_MAX (STORAGE_DIR ++ slash :: libs.uuidUnparse hdr.token))
      (server.fs.mkdir (snprintf PATH_MAX (STORAGE_DIR ++ slash :: libs.uuidUnparse hdr.token))) with
  | error errno =>
      rw [made] at ok
      cases ok
      exact .refl
  | ok fs =>
      rw [made] at ok
      cases ok
      exact mkdir_edits (perform_ok made)

theorem handleRemove_edits {payload : Option (List Byte)} :
    Edits server.fs (handleRemove libs env server user hdr payload).1.fs := by
  unfold handleRemove
  split
  · exact .refl
  · exact .refl
  · split
    · exact .refl
    · rename_i filepath _
      have edits := @rmR_edits env.faults server.fs filepath server.fs.depth
      dsimp only
      split_ifs
      · exact .refl
      all_goals
        split
        all_goals
          rename_i removed
          rw [removed] at edits
          exact edits

theorem handleMkdir_edits {payload : Option (List Byte)} :
    Edits server.fs (handleMkdir libs env server user hdr payload).1.fs := by
  unfold handleMkdir
  split
  · exact .refl
  · exact .refl
  · exact createDirectoriesFromPath_edits

theorem onOneshotReq_edits {type : MessageType} {payload : Option (List Byte)} {next : Server}
    {events : List Event}
    (ok : onOneshotReq libs env server user hdr type payload = some (next, events)) :
    Edits server.fs next.fs := by
  unfold onOneshotReq at ok
  split at ok
  · exact handleAuth_edits ok
  · have edits := @handleRemove_edits libs env server user hdr payload
    rw [Option.some.inj ok] at edits
    exact edits
  · have edits := @handleMkdir_edits libs env server user hdr payload
    rw [Option.some.inj ok] at edits
    exact edits
  · cases ok
    exact .refl

theorem fileRecv_edits {fs : Fs} {info : FileInfo} {sock : Sock} :
    match fileRecv libs env fs info sock with
    | .ret next _ _ => Edits fs next
    | .blocked next => Edits fs next
    | .faulted next => Edits fs next := by
  unfold fileRecv
  cases opened : perform env.faults .recvOpen info.filename (fs.openCreate info.filename) with
  | error errno => exact .refl
  | ok target =>
      obtain ⟨next, place, bytes⟩ := target
      have edits : ∀ content, Edits fs (next.set place (.file content)) :=
        fun content => (openCreate_edits (perform_ok opened)).tail (.write place content)
      dsimp only
      split <;> rename_i shape <;> split at shape <;> cases shape <;> exact edits _

/-- The tree in which an upload goes on, with the user's directory there or made. -/
def rootMade (libs : Externals) (faults : Faults) (fs : Fs) (token : Token) : Option Fs :=
  match perform faults .mkdir (getUserRoot libs token) (fs.mkdir (getUserRoot libs token)) with
  | .ok fs => some fs
  | .error errno => if errno = .EEXIST then some fs else none

/-- An upload gets to `file_recv` exactly when its declared size passes the quota test and
the user's directory is there. -/
theorem uploadAccept_ends {addr : Nat} {user : User} {token : Token} {info : FileInfo} {behind : List Byte}
    {sock : Sock} :
    match uploadAccept libs env server addr user token info behind sock with
    | .ready next _ kept _ rest => sizeT (user.usedSpace + info.size) ≤ user.totalSpace ∧
        rootMade libs env.faults server.fs token = some next.fs ∧
          kept = { info with filename := uploadName libs token info behind } ∧ rest = sock
    | .returned next _ _ => next.fs = server.fs ∧ ¬ (sizeT (user.usedSpace + info.size) ≤ user.totalSpace ∧
        (rootMade libs env.faults server.fs token).isSome)
    | .blocked => False := by
  unfold uploadAccept rootMade getUserRoot
  split_ifs with exceeds
  · exact ⟨rfl, fun both => absurd exceeds (Nat.not_lt.mpr both.1)⟩
  · have within := Nat.le_of_not_lt exceeds
    dsimp only [modifyUser_fs]
    cases perform env.faults .mkdir (snprintf PATH_MAX (STORAGE_DIR ++ slash :: libs.uuidUnparse token))
        (server.fs.mkdir (snprintf PATH_MAX (STORAGE_DIR ++ slash :: libs.uuidUnparse token))) with
    | ok fs => exact ⟨within, rfl, rfl, rfl⟩
    | error errno =>
        by_cases there : errno = .EEXIST
        · simp only [there, if_true]
          exact ⟨within, rfl, trivial, trivial⟩
        · simp only [there, if_false]
          exact ⟨rfl, fun found => by cases found.2⟩

theorem rootMade_edits {faults : Faults} {fs fs' : Fs} {token : Token} (made : rootMade libs faults fs token = some fs') :
    Edits fs fs' := by
  unfold rootMade at made
  split at made
  · rename_i created
    cases made
    exact mkdir_edits (perform_ok created)
  · split_ifs at made
    cases made
    exact .refl

theorem uploadAccept_edits {addr : Nat} {user : User} {token : Token} {info : FileInfo} {behind : List Byte} {sock : Sock} :
    match uploadAccept libs env server addr user token info behind sock with
    | .ready next _ _ _ _ => Edits server.fs next.fs
    | .returned next _ _ => Edits server.fs next.fs
    | .blocked => True := by
  have ends := @uploadAccept_ends libs env server addr user token info behind sock
  cases accepted : uploadAccept libs env server addr user token info behind sock with
  | ready next place kept seq rest =>
      rw [accepted] at ends
      exact rootMade_edits ends.2.1
  | returned next rest events =>
      rw [accepted] at ends
      exact ends.1 ▸ .refl
  | blocked => trivial

theorem uploadPrepare_edits {sock : Sock} :
    match uploadPrepare libs env server user hdr sock with
    | .ready next _ _ _ _ => Edits server.fs next.fs
    | .returned next _ _ => Edits server.fs next.fs
    | .blocked => True := by
  unfold uploadPrepare
  cases user.bind fun addr => server.uman.users[addr]?.map fun user => (addr, user) with
  | none => exact .refl
  | some found =>
      dsimp only
      cases msgRecvPayload sock hdr.length sizeofFileInfo with
      | blocked => trivial
      | fail ret got rest => exact .refl
      | ok payload rest => exact uploadAccept_edits

@[simp] theorem uploadFinish_fs {addr : Nat} {place : Option Nat} {info : FileInfo} {stats : FileRecvStats} :
    (uploadFinish server addr place info stats).1.fs = server.fs := by
  unfold uploadFinish
  dsimp only
  split_ifs <;> simp

theorem handleUpload_edits {sock : Sock} :
    Edits server.fs (handleUpload libs env server user hdr sock).server.fs := by
  have prepared := @uploadPrepare_edits libs env server user hdr sock
  unfold handleUpload
  cases early : uploadPrepare libs env server user hdr sock with
  | returned next sock events =>
      rw [early] at prepared
      exact prepared
  | blocked => exact .refl
  | ready next place info seq sock =>
      rw [early] at prepared
      have received := @fileRecv_edits libs env next.fs info sock
      simp only [modifySession_fs]
      cases transfer : fileRecv libs env next.fs info sock with
      | blocked fs =>
          rw [transfer] at received
          exact prepared.trans received
      | faulted fs =>
          rw [transfer] at received
          exact prepared.trans received
      | ret fs rest stats =>
          rw [transfer] at received
          simp only [uploadFinish_fs]
          exact prepared.trans received

theorem downloadPrepare_fs {sock : Sock} :
    match downloadPrepare libs env server user hdr sock with
    | .ready next _ _ _ _ _ => next.fs = server.fs
    | .returned next _ _ => next.fs = server.fs
    | .blocked => True := by
  unfold downloadPrepare downloadAccept
  cases user.bind fun addr => server.uman.users[addr]?.map fun user => (addr, user) with
  | none => rfl
  | some found =>
      dsimp only
      cases msgRecvPayload sock hdr.length sizeofFileInfo with
      | blocked => trivial
      | fail ret got rest => rfl
      | ok payload rest =>
          dsimp only
          cases getUserPath libs (FileInfo.decode (payload ++ env.tail)).filename hdr.token with
          | none => rfl
          | some path =>
              dsimp only
              split_ifs <;> rfl

theorem handleDownload_fs {sock : Sock} :
    (handleDownload libs env server user hdr sock).server.fs = server.fs := by
  have prepared := @downloadPrepare_fs libs env server user hdr sock
  unfold handleDownload
  cases early : downloadPrepare libs env server user hdr sock with
  | returned next sock events =>
      rw [early] at prepared
      exact prepared
  | blocked => rfl
  | ready next place path info startChunk sock =>
      rw [early] at prepared
      dsimp only
      split
      · exact prepared
      · unfold downloadFinish
        split_ifs <;> simpa using prepared

theorem handleList_fs {sock : Sock} :
    (handleList libs env server user hdr sock).server.fs = server.fs := by
  unfold handleList
  repeat' split
  all_goals rfl

/-- What any message makes the server do to the tree. -/
theorem serve_edits (r : Request) : Edits server.fs (r.serve libs server).server.fs := by
  unfold Request.serve onClientMessageReceived
  cases dispatch r.hdr with
  | abort => exact .refl
  | refuse => exact .refl
  | accept type =>
      dsimp only
      cases umanGetUser server.uman r.hdr.token with
      | none => exact .refl
      | some user =>
          dsimp only
          cases type.kind with
          | ignored => exact .refl
          | stream =>
              cases type
              case uploadReq => exact handleUpload_edits
              case downloadReq => exact handleDownload_fs ▸ .refl
              case listReq => exact handleList_fs ▸ .refl
              all_goals exact .refl
          | oneshot =>
              dsimp only
              split
              · exact .refl
              · rename_i handled
                exact onOneshotReq_edits handled

end Handlers

/-! ### Runs -/

/-- Every state of a run is reached by changes of the tree. -/
theorem run_edits {libs : Externals} {server : Server} {rs : List Request} {p : Server × Request}
    (met : p ∈ run libs server rs) : Edits server.fs p.1.fs := by
  induction rs generalizing server with
  | nil => cases met
  | cons r rs ih =>
      rcases List.mem_cons.mp met with rfl | later
      · exact .refl
      · split at later
        · exact (serve_edits r).trans (ih later)
        · cases later

/-! ### What the changes leave -/

theorem lookup_cons_if {nodes : List (Place × Node)} {place q : Place} {node : Node} :
    ((place, node) :: nodes).lookup q = if q = place then some node else nodes.lookup q := by
  rw [List.lookup_cons]
  by_cases same : q = place
  · rw [if_pos same, beq_iff_eq.mpr same]
  · rw [if_neg same, beq_eq_false_iff_ne.mpr same]

theorem mem_of_lookup {nodes : List (Place × Node)} {place : Place} {node : Node}
    (there : nodes.lookup place = some node) : (place, node) ∈ nodes := by
  obtain ⟨before, behind, split, -⟩ := List.lookup_eq_some_iff.mp there
  rw [split]
  exact List.mem_append_right _ List.mem_cons_self

theorem mem_of_get? {fs : Fs} {place : Place} {node : Node} (named : place ≠ [])
    (there : fs.get? place = some node) : (place, node) ∈ fs.nodes := by
  rw [Fs.get?, if_neg named] at there
  exact mem_of_lookup there

theorem lookup_erase {fs : Fs} {place q : Place} :
    (fs.erase place).nodes.lookup q = if q = place then none else fs.nodes.lookup q := by
  rw [Fs.erase]
  dsimp only
  induction fs.nodes with
  | nil => simp
  | cons entry nodes ih =>
      obtain ⟨there, node⟩ := entry
      by_cases gone : there = place
      · rw [List.filter_cons_of_neg (by simpa using gone), ih, lookup_cons_if]
        by_cases same : q = place
        · rw [if_pos same, if_pos same]
        · rw [if_neg same, if_neg same, if_neg fun h => same (h.trans gone)]
      · rw [List.filter_cons_of_pos (by simpa using gone), lookup_cons_if, lookup_cons_if, ih]
        by_cases same : q = there
        · rw [if_pos same, if_pos same, if_neg fun h => gone (same.symm.trans h)]
        · rw [if_neg same, if_neg same]

theorem get?_erase {fs : Fs} {place q : Place} (named : q ≠ []) :
    (fs.erase place).get? q = if q = place then none else fs.get? q := by
  rw [Fs.get?, if_neg named, lookup_erase, Fs.get?, if_neg named]

theorem get?_set {fs : Fs} {place q : Place} {node : Node} (named : q ≠ []) :
    (fs.set place node).get? q = if q = place then some node else fs.get? q := by
  rw [Fs.get?, if_neg named, Fs.set, lookup_cons_if, lookup_erase, Fs.get?, if_neg named]
  by_cases same : q = place
  · rw [if_pos same, if_pos same]
  · rw [if_neg same, if_neg same, if_neg same]

/-- No change of the tree makes a symbolic link. -/
theorem links_of_edits {fs fs' : Fs} (edits : Edits fs fs') {place : Place} {target : CStr}
    (link : fs'.get? place = some (.link target)) : fs.get? place = some (.link target) := by
  have named : place ≠ [] := by
    rintro rfl
    cases link
  induction edits with
  | refl => exact link
  | tail _ edit ih =>
      apply ih
      cases edit with
      | mkdir q =>
          rw [get?_set named] at link
          split_ifs at link
          · cases link
          · exact link
      | write q bytes =>
          rw [get?_set named] at link
          split_ifs at link
          · cases link
          · exact link
      | remove q =>
          rw [get?_erase named] at link
          split_ifs at link
          exact link

end MiniDropbox
