/-
Which messages leave descriptors open.

A message leaves one open exactly when its handler comes to open the target of an
upload, the file of a download, the directory of a listing or the directory to be
removed (`LeavesOpen`): nothing closes these. Every other file is closed by the function
that opens it (`conserved_iff`). `descriptors_iff` says so of every run of the process, in
which clients connect and disconnect; a run without such messages has as many
descriptors open as it has clients, and those it started with.
-/

import MiniDropbox.Confinement
import MiniDropbox.Descriptors
import MiniDropbox.Registry

namespace MiniDropbox

open Handles

/-! ### What is closed again -/

section Calls

variable {faults : Faults} {libs : Externals} {fs : Fs} {path : CStr} {d : Descriptors}

@[simp] theorem table_fileExistsFds : (fileExistsFds faults fs path d).table = d.table := by
  unfold fileExistsFds
  split <;> simp

@[simp] theorem table_fileinfoFds {lstatSite openSite : Site} :
    (fileinfoFromFilenameFds faults lstatSite openSite fs path d).table = d.table := by
  unfold fileinfoFromFilenameFds fileChecksumFds
  split
  · split <;> simp
  · rfl

/-- A listing closes what it opens for its entries. -/
theorem table_listEntries {env : Env} {place : Place} (names : List CStr) :
    (names.foldl (listEntryFds env fs path place) d).table = d.table := by
  induction names generalizing d with
  | nil => rfl
  | cons name names ih =>
      rw [List.foldl_cons, ih]
      unfold listEntryFds
      split <;> simp

/-- A descriptor is left open under a condition, and else the table is as before. -/
structure Leaves (opens : Prop) (before after : Table) : Prop where
  open' : opens → acquire before <:+ after
  same : ¬ opens → after = before

theorem Leaves.of_opens {opens : Prop} {before after : Table} (opened : opens)
    (adds : acquire before <:+ after) : Leaves opens before after :=
  ⟨fun _ => adds, fun closed => absurd opened closed⟩

theorem Leaves.of_not {opens : Prop} {before after : Table} (closed : ¬ opens) (same : after = before) :
    Leaves opens before after :=
  ⟨fun opened => absurd opened closed, fun _ => same⟩

/-- A loop whose rounds only add to the table only adds to it. -/
theorem adds_foldl {step : Fs × Descriptors → CStr → Fs × Descriptors}
    (adds : ∀ x name, x.2.table <:+ (step x name).2.table) (names : List CStr) (x : Fs × Descriptors) :
    x.2.table <:+ (names.foldl step x).2.table := by
  induction names generalizing x with
  | nil => exact List.suffix_rfl
  | cons name names ih => exact (adds x name).trans (ih _)

theorem rmRFds_adds {fuel : Nat} : d.table <:+ (rmRFds faults fuel fs path d).table := by
  induction fuel generalizing fs path d with
  | zero => exact List.suffix_rfl
  | succ fuel ih =>
      rw [rmRFds]
      split
      · split
        · exact List.suffix_rfl
        · exact (List.suffix_cons _ _).trans (adds_foldl (fun x name => ih) _ (fs, d.opened path))
      · exact List.suffix_rfl

/-- The directory given to `rm_r` is found and opened. -/
def OpensDirectory (faults : Faults) (fs : Fs) (path : CStr) : Prop :=
  perform faults .rmLstat path (fs.lstat path) = .ok .dir ∧
    ∃ names, perform faults .rmOpendir path (fs.opendir path) = .ok names

/-- `rm_r` leaves the descriptor of a directory open, and none of anything else. -/
theorem rmRFds_leaves {fuel : Nat} : Leaves (OpensDirectory faults fs path) d.table
    (rmRFds faults (fuel + 1) fs path d).table := by
  constructor
  · rintro ⟨directory, names, opens⟩
    rw [rmRFds, directory, opens]
    exact adds_foldl (fun x name => rmRFds_adds) names (fs, d.opened path)
  · intro closed
    rw [rmRFds]
    split
    · rename_i directory
      split
      · rfl
      · rename_i names opens
        exact absurd ⟨directory, names, opens⟩ closed
    · rfl

end Calls

/-! ### What the handlers leave open -/

section Handlers

variable {libs : Externals} {env : Env} {server : Server} {hdr : MessageHdr} {sock : Sock} {addr : Nat}
  {d : Descriptors}

/-- The `FileInfo` of an upload arrives, its size passes the quota test, the user's
directory is there or is made, and the target can be opened. -/
def OpensTarget (libs : Externals) (env : Env) (server : Server) (addr : Nat) (hdr : MessageHdr)
    (sock : Sock) : Prop :=
  ∃ user ∈ server.uman.users[addr]?, ∃ payload rest,
    msgRecvPayload sock hdr.length sizeofFileInfo = .ok payload rest ∧
    let info := FileInfo.decode (payload ++ env.tail)
    let target := uploadName libs hdr.token info ((payload ++ env.tail).drop sizeofFileInfo)
    sizeT (user.usedSpace + info.size) ≤ user.totalSpace ∧
      ∃ fs ∈ rootMade libs env.faults server.fs hdr.token, ∃ opened,
        perform env.faults .recvOpen target (fs.openCreate target) = .ok opened

theorem handleUploadFds_leaves : Leaves (OpensTarget libs env server addr hdr sock) d.table
    (handleUploadFds libs env server (some addr) hdr sock d).table := by
  unfold handleUploadFds uploadPrepare
  cases record : server.uman.users[addr]? with
  | none =>
      apply Leaves.of_not
      · rintro ⟨user, found, -⟩
        cases record.symm.trans found
      · simp [record]
  | some user =>
      simp only [Option.bind_some, record, Option.map_some]
      cases received : msgRecvPayload sock hdr.length sizeofFileInfo with
      | blocked =>
          apply Leaves.of_not _ rfl
          rintro ⟨_, _, _, _, arrived, -⟩
          cases received.symm.trans arrived
      | fail ret got rest =>
          apply Leaves.of_not _ rfl
          rintro ⟨_, _, _, _, arrived, -⟩
          cases received.symm.trans arrived
      | ok payload rest =>
          have ends := @uploadAccept_ends libs env server addr user hdr.token
            (FileInfo.decode (payload ++ env.tail)) ((payload ++ env.tail).drop sizeofFileInfo) rest
          have condition : OpensTarget libs env server addr hdr sock ↔
              sizeT (user.usedSpace + (FileInfo.decode (payload ++ env.tail)).size) ≤ user.totalSpace ∧
                ∃ fs ∈ rootMade libs env.faults server.fs hdr.token, ∃ opened,
                  perform env.faults .recvOpen (uploadName libs hdr.token
                    (FileInfo.decode (payload ++ env.tail)) ((payload ++ env.tail).drop sizeofFileInfo))
                    (fs.openCreate (uploadName libs hdr.token (FileInfo.decode (payload ++ env.tail))
                      ((payload ++ env.tail).drop sizeofFileInfo))) = .ok opened := by
            simp [OpensTarget, record, received]
          rw [condition]
          dsimp only
          cases accepted : uploadAccept libs env server addr user hdr.token
              (FileInfo.decode (payload ++ env.tail)) ((payload ++ env.tail).drop sizeofFileInfo) rest with
          | blocked =>
              rw [accepted] at ends
              exact ends.elim
          | returned next sock events =>
              rw [accepted] at ends
              apply Leaves.of_not _ rfl
              rintro ⟨within, fs, made, -⟩
              exact ends.2 ⟨within, Option.isSome_iff_exists.mpr ⟨fs, made⟩⟩
          | ready next place kept seq sock =>
              rw [accepted] at ends
              obtain ⟨within, made, kept_eq, -⟩ := ends
              have named : kept.filename = uploadName libs hdr.token (FileInfo.decode (payload ++ env.tail))
                  ((payload ++ env.tail).drop sizeofFileInfo) := by rw [kept_eq]
              simp only [made, ← named, within, Option.mem_some_iff, exists_eq_left', true_and]
              rw [fileRecvFds]
              cases perform env.faults .recvOpen kept.filename (next.fs.openCreate kept.filename) with
              | error errno => exact .of_not (by simp) rfl
              | ok opened => exact .of_opens ⟨opened, rfl⟩ List.suffix_rfl

variable {r : Request}

/-- The requested path can be opened, and `file_send` finds and opens the file it is
given. -/
def OpensFile (libs : Externals) (server : Server) (r : Request) : Prop :=
  ∃ info path, Requested libs server r info path ∧
    let name := (fileinfoFromFilename r.env.faults libs .infoLstat .infoOpen server.fs path info).2.filename
    (∃ node, perform r.env.faults .sendLstat name (server.fs.lstat name) = .ok node) ∧
      ∃ node, perform r.env.faults .sendOpen name (server.fs.openRead name) = .ok node

theorem fileSendFds_leaves {faults : Faults} {fs : Fs} {name : CStr} :
    Leaves ((∃ node, perform faults .sendLstat name (fs.lstat name) = .ok node) ∧
        ∃ node, perform faults .sendOpen name (fs.openRead name) = .ok node)
      d.table (fileSendFds faults fs name d).table := by
  rw [fileSendFds]
  cases perform faults .sendLstat name (fs.lstat name) with
  | error errno => exact .of_not (by simp) table_fileinfoFds
  | ok node =>
      cases perform faults .sendOpen name (fs.openRead name) with
      | error errno => exact .of_not (by simp) table_fileinfoFds
      | ok node' =>
          apply Leaves.of_opens (by simp)
          dsimp only [Descriptors.opened]
          exact table_fileinfoFds ▸ List.suffix_rfl

theorem handleDownloadFds_leaves : Leaves (OpensFile libs server r) d.table
    (handleDownloadFds libs r.env server (some addr) r.hdr r.sock d).table := by
  unfold handleDownloadFds
  cases received : msgRecvPayload r.sock r.hdr.length sizeofFileInfo with
  | blocked =>
      apply Leaves.of_not _ rfl
      rintro ⟨info, path, ⟨arrived, -⟩, -⟩
      simp [downloadInfo, received] at arrived
  | fail ret got rest =>
      apply Leaves.of_not _ rfl
      rintro ⟨info, path, ⟨arrived, -⟩, -⟩
      simp [downloadInfo, received] at arrived
  | ok payload rest =>
      have arrived : downloadInfo r = some (FileInfo.decode (payload ++ r.env.tail)) := by
        rw [downloadInfo, received]
      dsimp only
      rw [downloadFds]
      cases resolved : getUserPath libs (FileInfo.decode (payload ++ r.env.tail)).filename r.hdr.token with
      | none =>
          apply Leaves.of_not _ rfl
          rintro ⟨info, path, ⟨same, found, -⟩, -⟩
          cases arrived.symm.trans same
          cases resolved.symm.trans found
      | some path =>
          by_cases opens : fileExists r.env.faults server.fs path = 1
          · have condition : OpensFile libs server r ↔
                let name := (fileinfoFromFilename r.env.faults libs .infoLstat .infoOpen server.fs path
                  (FileInfo.decode (payload ++ r.env.tail))).2.filename
                (∃ node, perform r.env.faults .sendLstat name (server.fs.lstat name) = .ok node) ∧
                  ∃ node, perform r.env.faults .sendOpen name (server.fs.openRead name) = .ok node := by
              refine ⟨?_, fun sends => ⟨_, path, ⟨arrived, resolved, opens⟩, sends⟩⟩
              rintro ⟨info, path', ⟨same, found, -⟩, sends⟩
              cases arrived.symm.trans same
              cases resolved.symm.trans found
              exact sends
            have sent := @fileSendFds_leaves (fileinfoFromFilenameFds r.env.faults .infoLstat .infoOpen
              server.fs path (fileExistsFds r.env.faults server.fs path d)) r.env.faults server.fs
            simp only [table_fileinfoFds, table_fileExistsFds] at sent
            rw [condition]
            simp only [opens, if_true]
            exact sent
          · dsimp only
            rw [if_neg opens]
            apply Leaves.of_not _ table_fileExistsFds
            rintro ⟨info, path', ⟨same, found, there⟩, -⟩
            cases arrived.symm.trans same
            cases resolved.symm.trans found
            exact opens there

/-- The path of a listing arrives, is resolved, and can be opened as a directory. -/
def OpensListing (libs : Externals) (server : Server) (r : Request) : Prop :=
  ∃ payload rest path names, msgRecvPayload r.sock r.hdr.length PATH_MAX = .ok payload rest ∧
    getUserPath libs (cString (payload ++ r.env.tail)) r.hdr.token = some path ∧
      perform r.env.faults .listOpendir path (server.fs.opendir path) = .ok names

theorem handleListFds_leaves : Leaves (OpensListing libs server r) d.table
    (handleListFds libs r.env server (some addr) r.hdr r.sock d).table := by
  unfold handleListFds
  cases received : msgRecvPayload r.sock r.hdr.length PATH_MAX with
  | blocked => exact .of_not (by simp [OpensListing, received]) rfl
  | fail ret got rest => exact .of_not (by simp [OpensListing, received]) rfl
  | ok payload rest =>
      dsimp only
      cases resolved : getUserPath libs (cString (payload ++ r.env.tail)) r.hdr.token with
      | none => exact .of_not (by simp [OpensListing, received, resolved]) rfl
      | some path =>
          dsimp only
          cases opens : perform r.env.faults .listOpendir path (server.fs.opendir path) with
          | error errno => exact .of_not (by simp [OpensListing, received, resolved, opens]) rfl
          | ok names =>
              apply Leaves.of_opens ⟨payload, rest, path, names, received, resolved, opens⟩
              dsimp only
              rw [table_listEntries]
              exact List.suffix_rfl

/-- The path to be removed arrives, is resolved, and is a directory that can be opened. -/
def OpensRemoved (libs : Externals) (server : Server) (r : Request) : Prop :=
  ∃ payload path, (recvOneshot r.sock r.hdr.length (some 8192)).1 = some payload ∧
    getUserPath libs (cString (payload ++ r.env.tail)) r.hdr.token = some path ∧
      r.env.faults .infoLstat path = none ∧ OpensDirectory r.env.faults server.fs path

theorem handleRemoveFds_leaves : Leaves (OpensRemoved libs server r) d.table
    (handleRemoveFds libs r.env server (some addr) r.hdr
      (recvOneshot r.sock r.hdr.length (some 8192)).1 d).table := by
  unfold handleRemoveFds
  cases received : (recvOneshot r.sock r.hdr.length (some 8192)).1 with
  | none => exact .of_not (by simp [OpensRemoved, received]) rfl
  | some payload =>
      dsimp only
      cases resolved : getUserPath libs (cString (payload ++ r.env.tail)) r.hdr.token with
      | none => exact .of_not (by simp [OpensRemoved, received, resolved]) rfl
      | some path =>
          have condition : OpensRemoved libs server r ↔
              r.env.faults .infoLstat path = none ∧ OpensDirectory r.env.faults server.fs path := by
            simp [OpensRemoved, received, resolved]
          rw [condition]
          dsimp only
          by_cases directory : r.env.faults .infoLstat path = none ∧ OpensDirectory r.env.faults server.fs path
          · have found := perform_ok directory.2.1
            have going : (fileinfoFromFilename r.env.faults libs .infoLstat .infoOpen server.fs path
                FileInfo.zero).1 = -2 := by
              simp [fileinfoFromFilename, perform, directory.1, found]
            have removed := @rmRFds_leaves r.env.faults server.fs path
              (fileinfoFromFilenameFds r.env.faults .infoLstat .infoOpen server.fs path d)
              server.fs.nodes.length
            rw [table_fileinfoFds] at removed
            rw [going, if_neg (by decide)]
            exact .of_opens directory (removed.open' directory.2)
          · apply Leaves.of_not directory
            split_ifs with stops
            · exact table_fileinfoFds
            · have closed : ¬ OpensDirectory r.env.faults server.fs path := by
                intro opens
                have found := perform_ok opens.1
                cases faulty : r.env.faults .infoLstat path with
                | none => exact directory ⟨faulty, opens⟩
                | some errno => exact stops (by simp [fileinfoFromFilename, perform, faulty])
              have removed := @rmRFds_leaves r.env.faults server.fs path
                (fileinfoFromFilenameFds r.env.faults .infoLstat .infoOpen server.fs path d)
                server.fs.nodes.length
              rw [table_fileinfoFds] at removed
              exact removed.same closed

end Handlers

/-! ### One message -/

/-- The message of a registered user leads to a file or directory that stays open. -/
def LeavesOpen (libs : Externals) (server : Server) (r : Request) : Prop :=
  ∃ addr, umanGetUser server.uman r.hdr.token = some (some addr) ∧
    match dispatch r.hdr with
    | .accept .uploadReq => OpensTarget libs r.env server addr r.hdr r.sock
    | .accept .downloadReq => OpensFile libs server r
    | .accept .listReq => OpensListing libs server r
    | .accept .removeReq => OpensRemoved libs server r
    | _ => False

/-- The open descriptors are those from before, but at most the socket of the message. -/
def Conserved (libs : Externals) (server : Server) (own : Nat) (r : Request) (d : Descriptors) : Prop :=
  ∀ fd, (fd ∈ (r.descriptors libs server own d).table → fd ∈ d.table) ∧
    (fd ∈ d.table → fd ≠ own → fd ∈ (r.descriptors libs server own d).table)

section Message

variable {libs : Externals} {server : Server} {r : Request} {own : Nat} {d : Descriptors}

/-- The descriptors of a message before its socket is closed. -/
theorem descriptors_leaves : ∃ handled, Leaves (LeavesOpen libs server r) d.table handled ∧
    (r.descriptors libs server own d).table =
      if (r.serve libs server).status = .closed then release handled own else handled := by
  have closing : ∀ handled : Descriptors,
      (if (r.serve libs server).status = .closed then handled.close own else handled).table =
        if (r.serve libs server).status = .closed then release handled.table own else handled.table := by
    intro handled
    split_ifs <;> rfl
  simp only [Request.descriptors, closing]
  refine ⟨_, ?_, rfl⟩
  unfold LeavesOpen
  cases dispatch r.hdr with
  | abort => exact .of_not (by simp) rfl
  | refuse => exact .of_not (by simp) rfl
  | accept type =>
      dsimp only
      cases lookup : umanGetUser server.uman r.hdr.token with
      | none => exact .of_not (by simp) rfl
      | some user =>
          cases user with
          | none =>
              apply Leaves.of_not (by simp)
              cases type <;> rfl
          | some addr =>
              simp only [Option.some.injEq, exists_eq_left']
              cases type
              case uploadReq => exact handleUploadFds_leaves
              case downloadReq => exact handleDownloadFds_leaves
              case listReq => exact handleListFds_leaves
              case removeReq => exact handleRemoveFds_leaves
              all_goals exact .of_not not_false rfl

/-- Whatever a message opens, it closes nothing but its socket. -/
theorem mem_descriptors {fd : Nat} (mem : fd ∈ d.table)
    (other : (r.serve libs server).status = .closed → fd ≠ own) :
    fd ∈ (r.descriptors libs server own d).table := by
  obtain ⟨handled, leaves, after⟩ := @descriptors_leaves libs server r own d
  have kept : fd ∈ handled := by
    by_cases opens : LeavesOpen libs server r
    · exact ((List.suffix_cons _ _).trans (leaves.open' opens)).subset mem
    · rw [leaves.same opens]
      exact mem
  rw [after]
  split_ifs with closed
  · exact mem_release.mpr ⟨kept, other closed⟩
  · exact kept

/-- A message conserves the descriptors exactly when it does not leave one open. -/
theorem conserved_iff (live : own ∈ d.table) :
    Conserved libs server own r d ↔ ¬ LeavesOpen libs server r := by
  obtain ⟨handled, leaves, after⟩ := @descriptors_leaves libs server r own d
  unfold Conserved
  rw [after]
  constructor
  · intro conserved opens
    have fresh := lowest_not_mem d.table
    have opened : lowest d.table ∈ handled := (leaves.open' opens).subset List.mem_cons_self
    apply fresh
    apply (conserved (lowest d.table)).1
    split_ifs
    · refine mem_release.mpr ⟨opened, ?_⟩
      rintro same
      exact fresh (same ▸ live)
    · exact opened
  · intro closed fd
    rw [leaves.same closed]
    split_ifs
    · simp only [mem_release]
      exact ⟨fun kept => kept.1, fun mem other => ⟨mem, other⟩⟩
    · exact ⟨fun mem => mem, fun mem _ => mem⟩

end Message

/-! ### Runs of the process -/

/-- The process, with the sockets of the clients connected to it. It stops running in a
message after which the server does not go on. -/
structure Process where
  server : Server
  descriptors : Descriptors
  live : List Nat
  running : Bool

/-- What the event loop meets: a client that connects, a message on a socket, or a socket
on which nothing more comes. -/
inductive Turn where
  | connect
  | message (own : Nat) (r : Request)
  | hangup (own : Nat)

namespace Process

/-- One turn of the event loop. Sockets it does not know are not reported to it. -/
def take (libs : Externals) (p : Process) : Turn → Process
  | .connect =>
      { p with
        descriptors := { p.descriptors with table := acquire p.descriptors.table }
        live := lowest p.descriptors.table :: p.live }
  | .message own r =>
      if own ∈ p.live then
        let handled := r.serve libs p.server
        ⟨handled.server, r.descriptors libs p.server own p.descriptors,
          if handled.status = .closed then release p.live own else p.live, handled.status.goesOn⟩
      else p
  | .hangup own =>
      if own ∈ p.live then
        { p with descriptors := p.descriptors.close own, live := release p.live own }
      else p

def turn (libs : Externals) (p : Process) (t : Turn) : Process :=
  if p.running then p.take libs t else p

def after (libs : Externals) (p : Process) (ts : List Turn) : Process := ts.foldl (turn libs) p

/-- In a run the process handles a message, in this state. -/
def Handles (libs : Externals) (start : Process) (ts : List Turn) (p : Process) (own : Nat)
    (r : Request) : Prop :=
  ∃ before later, ts = before ++ .message own r :: later ∧ p = start.after libs before ∧
    p.running ∧ own ∈ p.live ∧ (r.serve libs p.server).status.goesOn

/-- The process as it starts to wait for clients, with so many descriptors open: the
standard streams, the storage directory, the listening socket and the epoll set. -/
def started (server : Server) (n : Nat) : Process := ⟨server, ⟨List.range n, []⟩, [], true⟩

/-- Every client has a socket of its own in the table. -/
structure Connected (p : Process) : Prop where
  live : ∀ fd ∈ p.live, fd ∈ p.descriptors.table
  once : p.live.Nodup

/-- The table holds the sockets of the clients beside those open from the start. -/
structure Balanced (n : Nat) (p : Process) : Prop where
  table : ∀ fd, fd ∈ p.descriptors.table ↔ fd < n ∨ fd ∈ p.live
  apart : ∀ fd ∈ p.live, n ≤ fd
  once : p.descriptors.table.Nodup

variable {libs : Externals} {p : Process} {n : Nat}

theorem Connected.turn (connected : Connected p) (t : Turn) : Connected (p.turn libs t) := by
  unfold Process.turn
  split_ifs
  · cases t with
    | connect =>
        refine ⟨?_, List.nodup_cons.mpr ⟨?_, connected.once⟩⟩
        · intro fd mem
          rcases List.mem_cons.mp mem with rfl | mem
          · exact List.mem_cons_self
          · exact List.mem_cons_of_mem _ (connected.live fd mem)
        · exact fun mem => lowest_not_mem _ (connected.live _ mem)
    | message own r =>
        rw [take]
        by_cases known : own ∈ p.live
        · rw [if_pos known]
          by_cases closed : (r.serve libs p.server).status = .closed
          · simp only [closed, if_true]
            refine ⟨?_, nodup_release connected.once⟩
            intro fd mem
            obtain ⟨mem, other⟩ := mem_release.mp mem
            exact mem_descriptors (connected.live fd mem) fun _ => other
          · simp only [closed, if_false]
            exact ⟨fun fd mem => mem_descriptors (connected.live fd mem) fun ends => absurd ends closed,
              connected.once⟩
        · rw [if_neg known]
          exact connected
    | hangup own =>
        rw [take]
        split_ifs
        · refine ⟨?_, nodup_release connected.once⟩
          intro fd mem
          obtain ⟨mem, other⟩ := mem_release.mp mem
          exact mem_release.mpr ⟨connected.live fd mem, other⟩
        · exact connected
  · exact connected

theorem Connected.after (connected : Connected p) (ts : List Turn) : Connected (p.after libs ts) := by
  induction ts generalizing p with
  | nil => exact connected
  | cons t ts ih => exact ih (connected.turn t)

theorem Balanced.connected (balanced : Balanced n p) (once : p.live.Nodup) : Connected p :=
  ⟨fun fd mem => (balanced.table fd).mpr (.inr mem), once⟩

/-- As many descriptors are open as there are clients, and those from the start. -/
theorem Balanced.length (balanced : Balanced n p) (connected : Connected p) :
    p.descriptors.table.length = n + p.live.length := by
  have apart : (List.range n ++ p.live).Nodup := by
    refine List.nodup_append.mpr ⟨List.nodup_range, connected.once, ?_⟩
    rintro fd start _ mem rfl
    exact absurd (balanced.apart fd mem) (Nat.not_le.mpr (List.mem_range.mp start))
  rw [length_eq_of_mem_iff balanced.once apart (by simp [balanced.table]), List.length_append,
    List.length_range]

theorem Balanced.close {own : Nat} (balanced : Balanced n p) (known : own ∈ p.live) :
    ∀ fd, fd ∈ release p.descriptors.table own ↔ fd < n ∨ fd ∈ release p.live own := by
  intro fd
  have outside := balanced.apart own known
  rw [mem_release, mem_release, balanced.table]
  constructor
  · rintro ⟨start | mem, other⟩
    · exact .inl start
    · exact .inr ⟨mem, other⟩
  · rintro (start | ⟨mem, other⟩)
    · refine ⟨.inl start, ?_⟩
      rintro rfl
      exact absurd outside (Nat.not_le.mpr start)
    · exact ⟨.inr mem, other⟩

theorem Balanced.apart_release {own : Nat} (balanced : Balanced n p) :
    ∀ fd ∈ release p.live own, n ≤ fd :=
  fun fd mem => balanced.apart fd (mem_release.mp mem).1

/-- A turn keeps the balance, if the message it handles leaves nothing open. -/
theorem Balanced.turn (balanced : Balanced n p) {t : Turn} (goesOn : (p.turn libs t).running)
    (closes : ∀ own r, t = .message own r → own ∈ p.live → (r.serve libs p.server).status.goesOn →
      ¬ LeavesOpen libs p.server r) : Balanced n (p.turn libs t) := by
  unfold Process.turn at goesOn ⊢
  split_ifs at goesOn ⊢
  · cases t with
    | connect =>
        refine ⟨?_, ?_, nodup_acquire balanced.once⟩
        · intro fd
          simp only [take, acquire, List.mem_cons, balanced.table]
          tauto
        · intro fd mem
          rcases List.mem_cons.mp mem with rfl | mem
          · refine Nat.le_of_not_lt fun start => ?_
            exact lowest_not_mem p.descriptors.table ((balanced.table _).mpr (.inl start))
          · exact balanced.apart fd mem
    | message own r =>
        rw [take] at goesOn ⊢
        by_cases known : own ∈ p.live
        · rw [if_pos known] at goesOn ⊢
          obtain ⟨handled, leaves, after⟩ := @descriptors_leaves libs p.server r own p.descriptors
          rw [leaves.same (closes own r rfl known goesOn)] at after
          by_cases closed : (r.serve libs p.server).status = .closed
          · rw [if_pos closed] at after
            simp only [closed, if_true]
            refine ⟨?_, balanced.apart_release, ?_⟩
            · rw [after]
              exact balanced.close known
            · rw [after]
              exact nodup_release balanced.once
          · rw [if_neg closed] at after
            simp only [closed, if_false]
            refine ⟨?_, balanced.apart, ?_⟩
            · rw [after]
              exact balanced.table
            · rw [after]
              exact balanced.once
        · rw [if_neg known]
          exact balanced
    | hangup own =>
        rw [take]
        split_ifs with known
        · exact ⟨balanced.close known, balanced.apart_release, nodup_release balanced.once⟩
        · exact balanced
  · exact balanced

/-- A process that has stopped does not run again. -/
theorem running_of_after {ts : List Turn} (runs : (p.after libs ts).running) : p.running := by
  induction ts generalizing p with
  | nil => exact runs
  | cons t ts ih =>
      by_contra stopped
      have same : p.turn libs t = p := if_neg stopped
      exact stopped (same ▸ ih runs)

theorem Balanced.after {ts : List Turn} (balanced : Balanced n p) (runs : (p.after libs ts).running)
    (closes : ∀ q own r, Handles libs p ts q own r → ¬ LeavesOpen libs q.server r) :
    Balanced n (p.after libs ts) := by
  induction ts generalizing p with
  | nil => exact balanced
  | cons t ts ih =>
      have next : (p.turn libs t).running := running_of_after runs
      apply ih (p := p.turn libs t)
      · apply balanced.turn next
        rintro own r rfl known goesOn
        refine closes p own r ⟨[], ts, rfl, rfl, ?_, known, goesOn⟩
        by_contra stopped
        rw [Process.turn, if_neg stopped] at next
        exact stopped next
      · exact runs
      · rintro q own r ⟨before, later, rfl, rfl, rest⟩
        exact closes _ own r ⟨t :: before, later, rfl, rfl, rest⟩

theorem balanced_started (server : Server) (n : Nat) : Balanced n (started server n) :=
  ⟨fun fd => by simp [started], fun fd mem => absurd mem List.not_mem_nil, List.nodup_range⟩

end Process

/-- When descriptors are conserved: in every run of the process, from any state of the
server, all messages handled conserve them if and only if none of them leaves one open;
and then there are never more open than clients and those open from the start. -/
theorem descriptors_iff (libs : Externals) (server : Server) (n : Nat) (ts : List Turn) :
    ((∀ p own r, Process.Handles libs (.started server n) ts p own r →
        Conserved libs p.server own r p.descriptors) ↔
      ∀ p own r, Process.Handles libs (.started server n) ts p own r → ¬ LeavesOpen libs p.server r) ∧
    ((∀ p own r, Process.Handles libs (.started server n) ts p own r → ¬ LeavesOpen libs p.server r) →
      ∀ before, before <+: ts → ((Process.started server n).after libs before).running →
        ((Process.started server n).after libs before).descriptors.table.length =
          n + ((Process.started server n).after libs before).live.length) := by
  have balanced := Process.balanced_started server n
  have connected : Process.Connected (.started server n) := balanced.connected List.nodup_nil
  have known : ∀ p own r, Process.Handles libs (.started server n) ts p own r →
      own ∈ p.descriptors.table := by
    rintro _ own r ⟨before, later, -, rfl, -, mem, -⟩
    exact (connected.after before).live own mem
  refine ⟨⟨?_, ?_⟩, ?_⟩
  · intro conserved p own r handles
    exact (conserved_iff (known p own r handles)).mp (conserved p own r handles)
  · intro closes p own r handles
    exact (conserved_iff (known p own r handles)).mpr (closes p own r handles)
  · rintro closes before ⟨later, rfl⟩ runs
    apply Process.Balanced.length _ (connected.after before)
    apply balanced.after runs
    rintro p own r ⟨before', later', rfl, rfl, rest⟩
    exact closes _ own r ⟨before', later' ++ later, by simp, rfl, rest⟩

/-- The process after a first client has connected. -/
def oneClient : Process := (Process.started tokenKnown 6).after libraries [.connect]

/-- A listing of a user's directory leaves its descriptor open. -/
theorem descriptors_listing :
    ¬ ∀ p own r, Process.Handles libraries (.started tokenKnown 6)
      [.connect, .message 6 (request .listReq someToken [0] [])] p own r →
        Conserved libraries p.server own r p.descriptors := by
  intro conserved
  have handles : Process.Handles libraries (.started tokenKnown 6)
      [.connect, .message 6 (request .listReq someToken [0] [])] oneClient 6
      (request .listReq someToken [0] []) :=
    ⟨[.connect], [], rfl, rfl, by decide, by decide, by decide⟩
  have leaked : 7 ∈ ((request .listReq someToken [0] []).descriptors libraries oneClient.server 6
      oneClient.descriptors).table := by
    decide
  have unknown : 7 ∉ oneClient.descriptors.table := by
    decide
  exact unknown ((conserved oneClient 6 _ handles 7).1 leaked)

end MiniDropbox
