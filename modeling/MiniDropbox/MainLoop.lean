/-
The event loop of `main` with any number of clients.

`main` works off the descriptors `epoll_wait` has reported one after the other and knows them only by their
numbers. A socket that is closed sets its number free for the next client, and `main` closes it once more
after `on_client_disconnected` has. Meanwhile the clients connect, send and leave as they please.

`events_current` says that each report is still about the connection it was made for when `main` comes to it, and
`loop_refines` that what the loop does to the server is a run of messages, each of them read from the stream of
one client behind what was read before.
-/

import MiniDropbox.Boundary
import MiniDropbox.Conservation
import MiniDropbox.Lib.Transition

namespace MiniDropbox

open Handles Transition

def MAX_EVENTS : Nat := 64

/-- What `epoll_wait` reports about a descriptor: `EPOLLIN`, and `EPOLLERR` or `EPOLLHUP`. -/
structure Report where
  fd : Nat
  readable : Bool
  hangup : Bool
  deriving DecidableEq

/-- A client's connection: what has arrived on it, how much of that has been read, and how it goes on. -/
structure Connection where
  arrived : List Byte
  read : Nat
  fin : SockEnd

/-- What the calls for a new client come to. A failing `fcntl` ends the process. -/
inductive Admission where
  | refused | unset | unwatched | watched

/-- A message that has been handled, with the connection it came on and the stretch of the stream that was read
for it. -/
structure Handling where
  conn : Nat
  start : Nat
  stop : Nat
  request : Request

/-- `main` in the loop, in a handler that does not return, or at its end. -/
inductive Going where
  | on | stuck | ended
  deriving DecidableEq

/-- The process and its clients. `sockets` are the descriptors of the clients with their connections, `watched` those in
the epoll set, where `none` stands for the listening socket, and `batch` what has been reported and not yet been looked
at, with what it was reported about. -/
structure MainLoop where
  server : Server
  descriptors : Descriptors
  listener : Nat
  sockets : List (Nat × Nat)
  watched : List (Nat × Option Nat)
  batch : List (Report × Option Nat)
  connections : List Connection
  log : List Handling
  going : Going

def Connection.sock (c : Connection) (sched : List (Option Nat)) : Sock := ⟨c.arrived.drop c.read, sched, c.fin⟩

/-- So many bytes are left to read. -/
def Connection.left (c : Connection) (rest : List Byte) : Connection := { c with read := c.arrived.length - rest.length }

namespace MainLoop

variable (libs : Externals) (s : MainLoop)

/-- The connection a descriptor is a socket of. -/
def connOf (fd : Nat) : Option Nat := (s.sockets.find? fun socket => socket.1 = fd).map Prod.snd

/-- With its last descriptor a socket is gone, and no longer watched. -/
def drop (fd : Nat) : MainLoop :=
  { s with sockets := s.sockets.filter fun socket => socket.1 ≠ fd
           watched := s.watched.filter fun watch => watch.1 ≠ fd }

def close (fd : Nat) : MainLoop := { s.drop fd with descriptors := s.descriptors.close fd }

def unwatch (fd : Nat) : MainLoop := { s with watched := s.watched.filter fun watch => watch.1 ≠ fd }

def onClientDisconnected (fd : Nat) : MainLoop := s.close fd

/-- A client that is gone: `main` calls `on_client_disconnected`, takes the socket out of the epoll set and closes it. -/
def disconnect (fd : Nat) : MainLoop := ((s.onClientDisconnected fd).unwatch fd).close fd

/-- The listening socket is reported. -/
def onListening : Admission → MainLoop
  | .refused => s
  | .unset => { s with going := .ended }
  | .unwatched => ({ s with
      descriptors := { s.descriptors with table := acquire s.descriptors.table }
      sockets := (lowest s.descriptors.table, s.connections.length) :: s.sockets
      connections := s.connections ++ [⟨[], 0, .opened⟩] } : MainLoop).close (lowest s.descriptors.table)
  | .watched => { s with
      descriptors := { s.descriptors with table := acquire s.descriptors.table }
      sockets := (lowest s.descriptors.table, s.connections.length) :: s.sockets
      watched := (lowest s.descriptors.table, some s.connections.length) :: s.watched
      connections := s.connections ++ [⟨[], 0, .opened⟩] }

def goingAfter : Status → Going
  | .kept | .closed => .on
  | .blocked => .stuck
  | .aborted | .faulted => .ended

/-- `on_client_message_received`, and what `main` does about its return value. A socket is taken out of the epoll set
before a stream request is handled. What the handler of one reads is not followed, since it closes the socket. -/
def onMessage (fd c : Nat) (conn : Connection) (r : Request) : MainLoop :=
  let handled := r.serve libs s.server
  let after := if handled.status = .kept then conn.left handled.sock.rx else conn.left r.sock.rx
  let next : MainLoop := { s with
    server := handled.server
    descriptors := r.descriptors libs s.server fd s.descriptors
    connections := s.connections.set c after
    log := s.log ++ [⟨c, conn.read, after.read, r⟩]
    going := goingAfter handled.status }
  match handled.status with
  | .closed => if dispatch r.hdr = .refuse then (next.drop fd).close fd else next.drop fd
  | .blocked => next.unwatch fd
  | _ => next

/-- The socket of a client is reported readable. -/
def onReadable (fd : Nat) (env : Env) (sched : List (Option Nat)) : MainLoop :=
  match s.connOf fd with
  | none => s.disconnect fd
  | some c =>
      match s.connections[c]? with
      | none => s.disconnect fd
      | some conn =>
          match msgRecvHeader (conn.sock sched).nonblocking with
          | .ok hdr rest => s.onMessage libs fd c conn ⟨hdr, { rest with fin := conn.fin }, env⟩
          | .fail ret rest =>
              if ret = -1 ∧ conn.fin = .opened then { s with connections := s.connections.set c (conn.left rest.rx) }
              else s.disconnect fd
          | .blocked => s

/-- The socket of a client is reported broken. -/
def onHangup (fd : Nat) : MainLoop := ((s.unwatch fd).close fd).onClientDisconnected fd

/-- One pass of the loop over the events. -/
def onEvent (report : Report) (accepted : Admission) (env : Env) (sched : List (Option Nat)) : MainLoop :=
  if report.fd = s.listener then s.onListening accepted
  else if report.readable then s.onReadable libs report.fd env sched
  else if report.hangup then s.onHangup report.fd
  else s

end MainLoop

/-- What happens: bytes arrive at a connection, its stream ends, `epoll_wait` returns or fails, or `main` looks at the next
event. -/
inductive Happening where
  | arrive (c : Nat) (bytes : List Byte)
  | finish (c : Nat) (fin : SockEnd)
  | wait (reports : List Report)
  | fail
  | event (accepted : Admission) (env : Env) (sched : List (Option Nat))

namespace MainLoop

variable (libs : Externals) (s : MainLoop)

/-- What is reported has been watched. -/
def aboutOf (report : Report) : Option (Report × Option Nat) :=
  (s.watched.find? fun watch => watch.1 = report.fd).map fun watch => (report, watch.2)

/-- Whether it can happen, and what it leads to. Nothing comes on a stream that has ended. -/
def next : Happening → Option MainLoop
  | .arrive c bytes =>
      match s.connections[c]? with
      | some ⟨arrived, read, .opened⟩ => some { s with connections := s.connections.set c ⟨arrived ++ bytes, read, .opened⟩ }
      | _ => none
  | .finish c fin =>
      match s.connections[c]? with
      | some ⟨arrived, read, .opened⟩ => some { s with connections := s.connections.set c ⟨arrived, read, fin⟩ }
      | _ => none
  | .wait reports =>
      if s.going = .on ∧ s.batch = [] ∧ reports.length ≤ MAX_EVENTS ∧ (reports.map Report.fd).Nodup ∧
          ∀ report ∈ reports, (s.aboutOf report).isSome then
        some { s with batch := reports.filterMap s.aboutOf }
      else none
  | .fail => if s.going = .on ∧ s.batch = [] then some { s with going := .ended } else none
  | .event accepted env sched =>
      match s.going, s.batch with
      | .on, event :: batch => some (({ s with batch := batch } : MainLoop).onEvent libs event.1 accepted env sched)
      | _, _ => none

/-- One step of the process and its clients. -/
def Step (libs : Externals) (s t : MainLoop) : Prop := ∃ happening, s.next libs happening = some t

/-- `main` as it comes to the loop, with so many descriptors open and the listening socket among them. -/
def start (server : Server) (n listener : Nat) : MainLoop :=
  ⟨server, ⟨List.range n, []⟩, listener, [], [(listener, none)], [], [], [], .on⟩

end MainLoop

/-! ### Closing twice -/

section Closing

variable {s : MainLoop} {fd : Nat}

theorem close_close (d : Descriptors) : (d.close fd).close fd = d.close fd := by
  simp [Descriptors.close, release, List.filter_filter]

theorem descriptors_close {libs : Externals} {server : Server} {r : Request} {d : Descriptors}
    (closed : (r.serve libs server).status = .closed) :
    (r.descriptors libs server fd d).close fd = r.descriptors libs server fd d := by
  simp only [Request.descriptors, closed, if_true, close_close]

namespace MainLoop

theorem drop_drop : (s.drop fd).drop fd = s.drop fd := by simp [drop, List.filter_filter]

/-- The second time there is nothing to close. -/
theorem disconnect_eq : s.disconnect fd = s.close fd := by
  simp [disconnect, onClientDisconnected, close, unwatch, drop, List.filter_filter, close_close]

theorem onHangup_eq : s.onHangup fd = s.close fd := by
  simp [onHangup, onClientDisconnected, close, unwatch, drop, List.filter_filter, close_close]

end MainLoop

end Closing

/-- What a readable socket leads to: a message, of which the header is what comes next on its stream, a piece of a header
that is read and forgotten, or a client that is gone. -/
inductive Reads (libs : Externals) (s : MainLoop) (fd c : Nat) (conn : Connection) (env : Env) : MainLoop → Prop where
  | message {sched : List (Option Nat)} : conn.read + sizeofMessageHdr ≤ conn.arrived.length →
      Reads libs s fd c conn env (s.onMessage libs fd c conn
        ⟨MessageHdr.decode ((conn.arrived.drop conn.read).take sizeofMessageHdr),
          ⟨conn.arrived.drop (conn.read + sizeofMessageHdr), sched, conn.fin⟩, env⟩)
  | piece : Reads libs s fd c conn env { s with connections := s.connections.set c { conn with read := conn.arrived.length } }
  | gone : Reads libs s fd c conn env (s.close fd)

theorem onReadable_reads {libs : Externals} {s : MainLoop} {fd c : Nat} {conn : Connection} {env : Env}
    {sched : List (Option Nat)} (socket : s.connOf fd = some c) (here : s.connections[c]? = some conn) :
    Reads libs s fd c conn env (s.onReadable libs fd env sched) := by
  simp only [MainLoop.onReadable, socket, here, msgRecvHeader]
  cases received : recvAll (conn.sock sched).nonblocking sizeofMessageHdr with
  | ok data rest =>
      obtain ⟨front, left, enough⟩ := recvAll_rest.1 received
      have length : (conn.arrived.drop conn.read).length = conn.arrived.length - conn.read := List.length_drop
      have whole : conn.read + sizeofMessageHdr ≤ conn.arrived.length := by
        change sizeofMessageHdr ≤ (conn.arrived.drop conn.read).length at enough
        rw [length] at enough
        have positive : 0 < sizeofMessageHdr := by decide
        omega
      have behind : rest.rx = conn.arrived.drop (conn.read + sizeofMessageHdr) := by
        rw [left]
        exact List.drop_drop
      dsimp only
      rw [front, behind]
      exact .message whole
  | fail ret got rest =>
      have nothing := recvAll_rest.2 received
      dsimp only
      split_ifs
      · have left : conn.left rest.rx = { conn with read := conn.arrived.length } := by
          rw [nothing]
          rfl
        rw [left]
        exact .piece
      · rw [MainLoop.disconnect_eq]
        exact .gone
  | blocked =>
      exact absurd received (nonblocking_returns _ _)

/-! ### Descriptors and connections -/

/-- Each client has a socket of its own, which is watched while the loop goes on, and what has been reported is
still watched. -/
structure Current (s : MainLoop) : Prop where
  listens : s.listener ∈ s.descriptors.table
  socket : ∀ p ∈ s.sockets, p.1 ∈ s.descriptors.table ∧ p.1 ≠ s.listener ∧ p.2 < s.connections.length
  once : (s.sockets.map Prod.fst).Nodup
  own : (s.sockets.map Prod.snd).Nodup
  watching : ∀ w ∈ s.watched, w = (s.listener, none) ∨ ∃ p ∈ s.sockets, w = (p.1, some p.2)
  watched : s.going = .on → (s.listener, none) ∈ s.watched ∧ ∀ p ∈ s.sockets, (p.1, some p.2) ∈ s.watched
  reports : (s.batch.map fun event => event.1.fd).Nodup
  batch : ∀ event ∈ s.batch, (event.1.fd, event.2) ∈ s.watched

namespace Current

variable {s t : MainLoop} {fd : Nat}

/-- The sockets stay as they are, and with them what is watched, at least while the loop goes on. -/
theorem keep (current : Current s) (table : ∀ x ∈ s.descriptors.table, x ∈ t.descriptors.table)
    (sockets : t.sockets = s.sockets ∧ t.listener = s.listener ∧ s.connections.length ≤ t.connections.length)
    (fewer : ∀ w ∈ t.watched, w ∈ s.watched) (watched : t.going = .on → s.going = .on ∧ t.watched = s.watched)
    (reports : (t.batch.map fun event => event.1.fd).Nodup)
    (batch : ∀ event ∈ t.batch, (event.1.fd, event.2) ∈ t.watched) : Current t where
  listens := sockets.2.1 ▸ table _ current.listens
  socket p among := by
    obtain ⟨opened, other, below⟩ := current.socket p (sockets.1 ▸ among)
    rw [sockets.2.1]
    exact ⟨table _ opened, other, Nat.lt_of_lt_of_le below sockets.2.2⟩
  once := sockets.1 ▸ current.once
  own := sockets.1 ▸ current.own
  watching w among := by
    rw [sockets.1, sockets.2.1]
    exact current.watching w (fewer w among)
  watched on := by
    rw [sockets.1, sockets.2.1, (watched on).2]
    exact current.watched (watched on).1
  reports := reports
  batch := batch

/-- A socket is closed that is not among those still to be looked at. -/
theorem shut (current : Current s) (other : fd ≠ s.listener) (away : ∀ event ∈ s.batch, event.1.fd ≠ fd)
    (table : ∀ x ∈ s.descriptors.table, x ≠ fd → x ∈ t.descriptors.table) (sockets : t.sockets = (s.drop fd).sockets)
    (same : t.listener = s.listener ∧ t.connections.length = s.connections.length ∧ t.batch = s.batch)
    (watched : t.watched = (s.drop fd).watched) (going : t.going = .on → s.going = .on) : Current t where
  listens := same.1 ▸ table _ current.listens (Ne.symm other)
  socket p among := by
    rw [sockets, MainLoop.drop, List.mem_filter, decide_eq_true_eq] at among
    obtain ⟨opened, apart, below⟩ := current.socket p among.1
    rw [same.1, same.2.1]
    exact ⟨table _ opened among.2, apart, below⟩
  once := by
    rw [sockets]
    exact current.once.sublist (List.filter_sublist.map _)
  own := by
    rw [sockets]
    exact current.own.sublist (List.filter_sublist.map _)
  watching w among := by
    rw [watched, MainLoop.drop, List.mem_filter, decide_eq_true_eq] at among
    rw [sockets, same.1]
    rcases current.watching w among.1 with listening | ⟨p, socket, rfl⟩
    · exact .inl listening
    · exact .inr ⟨p, List.mem_filter.mpr ⟨socket, decide_eq_true among.2⟩, rfl⟩
  watched on := by
    obtain ⟨listening, clients⟩ := current.watched (going on)
    rw [watched, sockets, same.1]
    refine ⟨List.mem_filter.mpr ⟨listening, decide_eq_true (Ne.symm other)⟩, fun p among => ?_⟩
    obtain ⟨socket, apart⟩ := List.mem_filter.mp among
    exact List.mem_filter.mpr ⟨clients p socket, apart⟩
  reports := same.2.2 ▸ current.reports
  batch event among := by
    rw [same.2.2] at among
    rw [watched]
    exact List.mem_filter.mpr ⟨current.batch event among, decide_eq_true (away event among)⟩

/-- A new client takes a number that no socket has. -/
theorem accept (current : Current s) {accepted : Admission} : Current (s.onListening accepted) := by
  have fresh := lowest_not_mem s.descriptors.table
  have free : ∀ p ∈ s.sockets, p.1 ≠ lowest s.descriptors.table := fun p among same =>
    fresh (same ▸ (current.socket p among).1)
  cases accepted with
  | refused => exact current
  | unset =>
      exact current.keep (fun _ => id) ⟨rfl, rfl, Nat.le_refl _⟩ (fun _ => id) (fun on => by cases on) current.reports current.batch
  | unwatched =>
      have known : ∀ w ∈ s.watched, w.1 ≠ lowest s.descriptors.table := by
        intro w among
        rcases current.watching w among with rfl | ⟨p, socket, rfl⟩
        · exact fun same => fresh (same ▸ current.listens)
        · exact free p socket
      have closed : (s.onListening .unwatched) =
          { s with descriptors := { s.descriptors with table := s.descriptors.table }
                   connections := s.connections ++ [⟨[], 0, .opened⟩] } := by
        simp [MainLoop.onListening, MainLoop.close, MainLoop.drop, Descriptors.close]
        exact ⟨fun a b among => free (a, b) among, fun a b among => known (a, b) among⟩
      rw [closed]
      exact current.keep (fun _ => id) ⟨rfl, rfl, by simp⟩ (fun _ => id) (fun on => ⟨on, rfl⟩) current.reports current.batch
  | watched =>
      refine ⟨List.mem_cons_of_mem _ current.listens, ?_, ?_, ?_, ?_, ?_, current.reports, ?_⟩
      · intro p among
        rcases List.mem_cons.mp among with rfl | old
        · have apart : lowest s.descriptors.table ≠ s.listener := fun same => fresh (same ▸ current.listens)
          exact ⟨List.mem_cons_self, apart, by simp [MainLoop.onListening]⟩
        · obtain ⟨opened, apart, below⟩ := current.socket p old
          exact ⟨List.mem_cons_of_mem _ opened, apart, Nat.lt_of_lt_of_le below (by simp [MainLoop.onListening])⟩
      · refine List.nodup_cons.mpr ⟨fun among => ?_, current.once⟩
        obtain ⟨p, socket, same⟩ := List.mem_map.mp among
        exact free p socket same
      · refine List.nodup_cons.mpr ⟨fun among => ?_, current.own⟩
        obtain ⟨p, socket, same⟩ := List.mem_map.mp among
        exact Nat.ne_of_lt (current.socket p socket).2.2 same
      · intro w among
        rcases List.mem_cons.mp among with rfl | old
        · exact .inr ⟨_, List.mem_cons_self, rfl⟩
        · refine (current.watching w old).imp id ?_
          rintro ⟨p, socket, rfl⟩
          exact ⟨p, List.mem_cons_of_mem _ socket, rfl⟩
      · intro on
        obtain ⟨listening, clients⟩ := current.watched on
        refine ⟨List.mem_cons_of_mem _ listening, fun p among => ?_⟩
        rcases List.mem_cons.mp among with rfl | old
        · exact List.mem_cons_self
        · exact List.mem_cons_of_mem _ (clients p old)
      · exact fun event among => List.mem_cons_of_mem _ (current.batch event among)

end Current

namespace MainLoop

variable {libs : Externals} {s : MainLoop} {fd c : Nat} {conn : Connection} {r : Request}

/-- A message after which the connection is closed. -/
theorem onMessage_closed (closed : (r.serve libs s.server).status = .closed) :
    s.onMessage libs fd c conn r = ({ s with
      server := (r.serve libs s.server).server
      descriptors := r.descriptors libs s.server fd s.descriptors
      connections := s.connections.set c (conn.left r.sock.rx)
      log := s.log ++ [⟨c, conn.read, (conn.left r.sock.rx).read, r⟩]
      going := .on } : MainLoop).drop fd := by
  have again := @descriptors_close fd libs s.server r s.descriptors closed
  simp only [onMessage, closed, goingAfter, reduceCtorEq, if_false]
  split_ifs
  · rw [close, drop_drop]
    simp only [drop, again]
  · rfl

end MainLoop

namespace Current

variable {libs : Externals} {s : MainLoop} {fd c : Nat} {conn : Connection} {r : Request}

theorem message (current : Current s) (on : s.going = .on) (other : fd ≠ s.listener)
    (away : ∀ event ∈ s.batch, event.1.fd ≠ fd) : Current (s.onMessage libs fd c conn r) := by
  have table : ∀ x ∈ s.descriptors.table, ((r.serve libs s.server).status = .closed → x ≠ fd) →
      x ∈ (r.descriptors libs s.server fd s.descriptors).table := fun x => mem_descriptors
  by_cases closed : (r.serve libs s.server).status = .closed
  · rw [MainLoop.onMessage_closed closed]
    exact current.shut other away (fun x among apart => table x among fun _ => apart) rfl ⟨rfl, by simp [MainLoop.drop], rfl⟩ rfl
      fun _ => on
  have grown : ∀ x ∈ s.descriptors.table, x ∈ (r.descriptors libs s.server fd s.descriptors).table :=
    fun x among => table x among fun same => absurd same closed
  cases status : (r.serve libs s.server).status with
  | closed => exact absurd status closed
  | blocked =>
      simp only [MainLoop.onMessage, status, MainLoop.goingAfter]
      refine current.keep grown ⟨rfl, rfl, by simp [MainLoop.unwatch]⟩ (fun w among => List.mem_of_mem_filter among)
        (fun goes => by cases goes) current.reports fun event among => ?_
      exact List.mem_filter.mpr ⟨current.batch event among, decide_eq_true (away event among)⟩
  | kept =>
      simp only [MainLoop.onMessage, status, MainLoop.goingAfter]
      exact current.keep grown ⟨rfl, rfl, by simp⟩ (fun _ => id) (fun _ => ⟨on, rfl⟩) current.reports current.batch
  | aborted =>
      simp only [MainLoop.onMessage, status, MainLoop.goingAfter]
      exact current.keep grown ⟨rfl, rfl, by simp⟩ (fun _ => id) (fun _ => ⟨on, rfl⟩) current.reports current.batch
  | faulted =>
      simp only [MainLoop.onMessage, status, MainLoop.goingAfter]
      exact current.keep grown ⟨rfl, rfl, by simp⟩ (fun _ => id) (fun _ => ⟨on, rfl⟩) current.reports current.batch

theorem close (current : Current s) (on : s.going = .on) (other : fd ≠ s.listener)
    (away : ∀ event ∈ s.batch, event.1.fd ≠ fd) : Current (s.close fd) :=
  current.shut other away (fun _ among apart => mem_release.mpr ⟨among, apart⟩) rfl ⟨rfl, rfl, rfl⟩ rfl fun _ => on

theorem reads (current : Current s) (on : s.going = .on) (other : fd ≠ s.listener) (away : ∀ event ∈ s.batch, event.1.fd ≠ fd)
    {env : Env} {t : MainLoop} (reads : Reads libs s fd c conn env t) : Current t := by
  cases reads with
  | message whole => exact current.message on other away
  | piece =>
      exact current.keep (fun _ => id) ⟨rfl, rfl, by simp⟩ (fun _ => id) (fun _ => ⟨on, rfl⟩) current.reports current.batch
  | gone => exact current.close on other away

theorem connOf_of_mem (current : Current s) (socket : (fd, c) ∈ s.sockets) : s.connOf fd = some c := by
  rw [MainLoop.connOf]
  cases found : s.sockets.find? fun socket => socket.1 = fd with
  | none => exact absurd (decide_eq_true rfl) (List.find?_eq_none.mp found _ socket)
  | some p =>
      have same := List.find?_some found
      rw [decide_eq_true_eq] at same
      have both := List.inj_on_of_nodup_map current.once (List.mem_of_find?_eq_some found) socket same
      rw [both]
      rfl

/-- What a report is about, as long as it has not been looked at. -/
theorem about (current : Current s) {event : Report × Option Nat} (among : event ∈ s.batch) :
    event.1.fd = s.listener ∧ event.2 = none ∨
      ∃ c conn, event.2 = some c ∧ (event.1.fd, c) ∈ s.sockets ∧ event.1.fd ≠ s.listener ∧ s.connections[c]? = some conn := by
  rcases current.watching _ (current.batch event among) with listening | ⟨p, socket, client⟩
  · exact .inl (Prod.mk.inj listening)
  · obtain ⟨fd, about⟩ := Prod.mk.inj client
    obtain ⟨-, other, below⟩ := current.socket p socket
    exact .inr ⟨p.2, _, about, fd ▸ socket, fd ▸ other, List.getElem?_eq_getElem below⟩

/-- The event `main` looks at is gone from the batch, and no other is about its descriptor. -/
theorem rest (current : Current s) (on : s.going = .on) {event : Report × Option Nat} {batch : List (Report × Option Nat)}
    (first : s.batch = event :: batch) :
    Current ({ s with batch := batch } : MainLoop) ∧ ∀ later ∈ batch, later.1.fd ≠ event.1.fd := by
  have reports := current.reports
  rw [first, List.map_cons, List.nodup_cons] at reports
  refine ⟨?_, fun later among same => reports.1 (same ▸ List.mem_map_of_mem among)⟩
  exact current.keep (fun _ => id) ⟨rfl, rfl, Nat.le_refl _⟩ (fun _ => id) (fun _ => ⟨on, rfl⟩) reports.2
    fun later among => current.batch later (first ▸ List.mem_cons_of_mem _ among)

end Current

/-- What an event leads to. -/
inductive Turns (libs : Externals) (s : MainLoop) (report : Report) : MainLoop → Prop where
  | listening {accepted : Admission} : report.fd = s.listener → Turns libs s report (s.onListening accepted)
  | client {c : Nat} {conn : Connection} {env : Env} {t : MainLoop} : (report.fd, c) ∈ s.sockets → report.fd ≠ s.listener →
      s.connections[c]? = some conn → Reads libs s report.fd c conn env t → Turns libs s report t
  | nothing : Turns libs s report s

namespace Current

variable {libs : Externals} {s : MainLoop}

theorem turns (current : Current s) (on : s.going = .on) {event : Report × Option Nat} {batch : List (Report × Option Nat)}
    (first : s.batch = event :: batch) {accepted : Admission} {env : Env} {sched : List (Option Nat)} :
    Turns libs { s with batch := batch } event.1 (({ s with batch := batch } : MainLoop).onEvent libs event.1 accepted env sched) := by
  have rest := (current.rest on first).1
  unfold MainLoop.onEvent
  rcases current.about (first ▸ List.mem_cons_self) with ⟨listening, -⟩ | ⟨c, conn, -, socket, other, here⟩
  · rw [if_pos listening]
    exact .listening listening
  · rw [if_neg other]
    split_ifs
    · exact .client socket other here (onReadable_reads (rest.connOf_of_mem socket) here)
    · rw [MainLoop.onHangup_eq]
      exact @Turns.client libs _ event.1 c conn env _ socket other here .gone
    · exact .nothing

theorem turn (current : Current s) (on : s.going = .on) {report : Report} (away : ∀ later ∈ s.batch, later.1.fd ≠ report.fd)
    {t : MainLoop} (turns : Turns libs s report t) : Current t := by
  cases turns with
  | listening => exact current.accept
  | client socket other here reads => exact current.reads on other away reads
  | nothing => exact current

end Current

namespace MainLoop

variable {libs : Externals} {s t : MainLoop}

theorem aboutOf_mem {report : Report} {event : Report × Option Nat} (found : s.aboutOf report = some event) :
    event.1 = report ∧ (event.1.fd, event.2) ∈ s.watched := by
  obtain ⟨w, here, rfl⟩ := Option.map_eq_some_iff.mp found
  have same := List.find?_some here
  rw [decide_eq_true_eq] at same
  exact ⟨rfl, same ▸ List.mem_of_find?_eq_some here⟩

/-- What has been reported is reported once. -/
theorem map_aboutOf {reports : List Report} (known : ∀ report ∈ reports, (s.aboutOf report).isSome) :
    ((reports.filterMap s.aboutOf).map fun event => event.1.fd) = reports.map Report.fd := by
  induction reports with
  | nil => rfl
  | cons report reports ih =>
      obtain ⟨here, later⟩ := List.forall_mem_cons.mp known
      obtain ⟨event, found⟩ := Option.isSome_iff_exists.mp here
      rw [List.filterMap_cons_some found, List.map_cons, List.map_cons, ih later, (aboutOf_mem found).1]

end MainLoop

/-- What a step leads to. -/
inductive Moves (libs : Externals) (s : MainLoop) : MainLoop → Prop where
  | grows {c : Nat} {conn conn' : Connection} : s.connections[c]? = some conn → conn.arrived <+: conn'.arrived →
      conn'.read = conn.read → Moves libs s { s with connections := s.connections.set c conn' }
  | waits {batch : List (Report × Option Nat)} : s.going = .on → (batch.map fun event => event.1.fd).Nodup →
      (∀ event ∈ batch, (event.1.fd, event.2) ∈ s.watched) → Moves libs s { s with batch := batch }
  | fails : Moves libs s { s with going := .ended }
  | turns {event : Report × Option Nat} {batch : List (Report × Option Nat)} {t : MainLoop} : s.going = .on →
      s.batch = event :: batch → Turns libs { s with batch := batch } event.1 t → Moves libs s t

section Steps

variable {libs : Externals} {s t : MainLoop}

theorem moves_of_step (current : Current s) (step : s.Step libs t) : Moves libs s t := by
  obtain ⟨happening, here⟩ := step
  cases happening with
  | arrive c bytes =>
      simp only [MainLoop.next] at here
      split at here
      · rename_i arrived read found
        cases here
        exact .grows found (List.prefix_append _ _) rfl
      · cases here
  | finish c fin =>
      simp only [MainLoop.next] at here
      split at here
      · rename_i arrived read found
        cases here
        exact .grows found List.prefix_rfl rfl
      · cases here
  | wait reports =>
      simp only [MainLoop.next] at here
      split_ifs at here with possible
      cases here
      obtain ⟨on, -, -, once, known⟩ := possible
      refine .waits on (MainLoop.map_aboutOf known ▸ once) fun event among => ?_
      obtain ⟨report, -, found⟩ := List.mem_filterMap.mp among
      exact (MainLoop.aboutOf_mem found).2
  | fail =>
      simp only [MainLoop.next] at here
      split_ifs at here
      cases here
      exact .fails
  | event accepted env sched =>
      simp only [MainLoop.next] at here
      split at here
      · rename_i event batch on first
        cases here
        exact .turns on first (current.turns on first)
      · cases here

/-- Whatever happens. -/
theorem Current.next (current : Current s) (step : s.Step libs t) : Current t := by
  cases moves_of_step current step with
  | grows =>
      exact current.keep (fun _ => id) ⟨rfl, rfl, by simp⟩ (fun _ => id) (fun on => ⟨on, rfl⟩) current.reports current.batch
  | waits on once known => exact current.keep (fun _ => id) ⟨rfl, rfl, Nat.le_refl _⟩ (fun _ => id) (fun _ => ⟨on, rfl⟩) once known
  | fails =>
      exact current.keep (fun _ => id) ⟨rfl, rfl, Nat.le_refl _⟩ (fun _ => id) (fun on => by cases on) current.reports current.batch
  | turns on first turns =>
      obtain ⟨rest, away⟩ := current.rest on first
      exact rest.turn on away turns

theorem current_start {server : Server} {n listener : Nat} (opened : listener < n) :
    Current (MainLoop.start server n listener) where
  listens := List.mem_range.mpr opened
  socket := List.forall_mem_nil _
  once := List.nodup_nil
  own := List.nodup_nil
  watching _ among := .inl (List.mem_singleton.mp among)
  watched _ := ⟨List.mem_cons_self, List.forall_mem_nil _⟩
  reports := List.nodup_nil
  batch := List.forall_mem_nil _

theorem current_reachable {server : Server} {n listener : Nat} (opened : listener < n)
    (reach : Reachable (MainLoop.Step libs) (.start server n listener) s) : Current s :=
  reachable_invariant Current reach (current_start opened) fun _ _ current step => current.next step

end Steps

/-! ### Streams and runs -/

/-- The message has been read from the stream of its connection: its header, and behind it what its handler finds. -/
def Handling.From (connections : List Connection) (h : Handling) : Prop :=
  ∃ conn, connections[h.conn]? = some conn ∧ h.start + sizeofMessageHdr ≤ h.stop ∧ h.stop ≤ conn.read ∧
    h.request.hdr = MessageHdr.decode ((conn.arrived.drop h.start).take sizeofMessageHdr) ∧
      h.request.sock.rx <+: conn.arrived.drop (h.start + sizeofMessageHdr)

section Streams

variable {connections : List Connection} {c : Nat} {conn conn' : Connection} {h : Handling}

/-- More that arrives does not change what has been read. -/
theorem Handling.From.set (from_ : h.From connections) (here : connections[c]? = some conn)
    (within : conn.read ≤ conn.arrived.length) (more : conn.arrived <+: conn'.arrived) (further : conn.read ≤ conn'.read) :
    h.From (connections.set c conn') := by
  obtain ⟨own, found, long, read, header, behind⟩ := from_
  by_cases same : h.conn = c
  · rw [same] at found
    cases here.symm.trans found
    have inside : c < connections.length := (List.getElem?_eq_some_iff.mp here).1
    obtain ⟨later, arrived⟩ := more
    refine ⟨conn', by rw [same, List.getElem?_set_self inside], long, Nat.le_trans read further, ?_, ?_⟩
    · rw [header, ← arrived, List.drop_append_of_le_length (by omega), List.take_append_of_le_length]
      rw [List.length_drop]
      omega
    · rw [← arrived, List.drop_append_of_le_length (by omega)]
      exact behind.trans (List.prefix_append _ _)
  · exact ⟨own, by rw [List.getElem?_set_ne (Ne.symm same), found], long, read, header, behind⟩

theorem Handling.From.append {new : List Connection} (from_ : h.From connections) : h.From (connections ++ new) := by
  obtain ⟨own, found, rest⟩ := from_
  have inside := (List.getElem?_eq_some_iff.mp found).1
  exact ⟨own, by rw [List.getElem?_append_left inside, found], rest⟩

end Streams

/-- A message more at the end of a run in which the server goes on. -/
theorem run_snoc {libs : Externals} {server : Server} {rs : List Request} (r : Request)
    (goes : ∀ p ∈ run libs server rs, (p.2.serve libs p.1).status.goesOn = true) :
    run libs server (rs ++ [r]) = run libs server rs ++ [(runState libs server rs, r)] ∧
      runState libs server (rs ++ [r]) = (r.serve libs (runState libs server rs)).server := by
  induction rs generalizing server with
  | nil => simp [run, runState]
  | cons first rs ih =>
      rw [run] at goes
      have here := goes _ List.mem_cons_self
      rw [if_pos here] at goes
      obtain ⟨more, last⟩ := ih fun p later => goes p (List.mem_cons_of_mem _ later)
      rw [List.cons_append, run, runState, run, runState, if_pos here, if_pos here, if_pos here, if_pos here, more, last]
      exact ⟨rfl, rfl⟩

/-- The server is where the messages of the log lead, which have been read from their connections, of no stream the
same bytes twice. -/
structure Streamed (libs : Externals) (server : Server) (s : MainLoop) : Prop where
  within : ∀ conn ∈ s.connections, conn.read ≤ conn.arrived.length
  each : ∀ h ∈ s.log, h.From s.connections
  order : s.log.Pairwise fun h h' => h.conn = h'.conn → h.stop ≤ h'.start
  serves : s.server = runState libs server (s.log.map Handling.request)
  all : (run libs server (s.log.map Handling.request)).map Prod.snd = s.log.map Handling.request
  goes : s.going = .on → ∀ p ∈ run libs server (s.log.map Handling.request), (p.2.serve libs p.1).status.goesOn = true

namespace Streamed

variable {libs : Externals} {server : Server} {s t : MainLoop}

/-- A connection gets further, and nothing is handled. -/
theorem set (streamed : Streamed libs server s) {c : Nat} {conn conn' : Connection} (here : s.connections[c]? = some conn)
    (more : conn.arrived <+: conn'.arrived) (further : conn.read ≤ conn'.read) (within : conn'.read ≤ conn'.arrived.length) :
    Streamed libs server { s with connections := s.connections.set c conn' } where
  within other among := (List.mem_or_eq_of_mem_set among).elim (streamed.within other) fun same => same ▸ within
  each h among := (streamed.each h among).set here (streamed.within conn (List.mem_of_getElem? here)) more further
  order := streamed.order
  serves := streamed.serves
  all := streamed.all
  goes := streamed.goes

/-- Nothing but sockets, events and new connections changes. -/
theorem keep (streamed : Streamed libs server s) (same : t.server = s.server ∧ t.log = s.log ∧ (t.going = .on → s.going = .on))
    (more : t.connections = s.connections ∨ t.connections = s.connections ++ [⟨[], 0, .opened⟩]) : Streamed libs server t := by
  obtain ⟨servers, logs, going⟩ := same
  refine ⟨fun conn among => ?_, fun h among => ?_, logs ▸ streamed.order, ?_, logs ▸ streamed.all, fun on => ?_⟩
  · rcases more with none | new
    · exact streamed.within conn (none ▸ among)
    · rw [new] at among
      rcases List.mem_append.mp among with old | new
      · exact streamed.within conn old
      · rw [List.mem_singleton.mp new]
        exact Nat.le_refl _
  · rw [logs] at among
    rcases more with none | new
    · rw [none]
      exact streamed.each h among
    · rw [new]
      exact (streamed.each h among).append
  · rw [servers, logs]
    exact streamed.serves
  · rw [logs]
    exact streamed.goes (going on)

/-- What a message does to the streams. -/
theorem onMessage_streams {fd c : Nat} {conn : Connection} {r : Request} : ∃ rest,
    (rest = r.sock.rx ∨ (r.serve libs s.server).status = .kept ∧ rest = (r.serve libs s.server).sock.rx) ∧
      (s.onMessage libs fd c conn r).server = (r.serve libs s.server).server ∧
      (s.onMessage libs fd c conn r).log = s.log ++ [⟨c, conn.read, (conn.left rest).read, r⟩] ∧
      (s.onMessage libs fd c conn r).connections = s.connections.set c (conn.left rest) ∧
      (s.onMessage libs fd c conn r).going = MainLoop.goingAfter (r.serve libs s.server).status := by
  cases status : (r.serve libs s.server).status with
  | closed =>
      refine ⟨r.sock.rx, .inl rfl, ?_⟩
      rw [MainLoop.onMessage_closed status]
      exact ⟨rfl, rfl, rfl, rfl⟩
  | kept =>
      refine ⟨_, .inr ⟨rfl, rfl⟩, ?_⟩
      simp only [MainLoop.onMessage, status, if_true, and_self]
  | blocked =>
      refine ⟨r.sock.rx, .inl rfl, ?_⟩
      simp only [MainLoop.onMessage, MainLoop.unwatch, status, reduceCtorEq, if_false, and_self]
  | aborted =>
      refine ⟨r.sock.rx, .inl rfl, ?_⟩
      simp only [MainLoop.onMessage, status, reduceCtorEq, if_false, and_self]
  | faulted =>
      refine ⟨r.sock.rx, .inl rfl, ?_⟩
      simp only [MainLoop.onMessage, status, reduceCtorEq, if_false, and_self]

theorem goesOn_of_goingAfter {status : Status} (on : MainLoop.goingAfter status = .on) : status.goesOn = true := by
  cases status with
  | kept => rfl
  | closed => rfl
  | blocked => cases on
  | aborted => cases on
  | faulted => cases on

/-- A message is handled, of which the header is read next on its stream. -/
theorem message (streamed : Streamed libs server s) (on : s.going = .on) {fd c : Nat} {conn : Connection} {env : Env}
    {sched : List (Option Nat)} (here : s.connections[c]? = some conn) (whole : conn.read + sizeofMessageHdr ≤ conn.arrived.length) :
    Streamed libs server (s.onMessage libs fd c conn
      ⟨MessageHdr.decode ((conn.arrived.drop conn.read).take sizeofMessageHdr),
        ⟨conn.arrived.drop (conn.read + sizeofMessageHdr), sched, conn.fin⟩, env⟩) := by
  generalize made : Request.mk (MessageHdr.decode ((conn.arrived.drop conn.read).take sizeofMessageHdr))
    ⟨conn.arrived.drop (conn.read + sizeofMessageHdr), sched, conn.fin⟩ env = r
  obtain ⟨rest, left, servers, log, connections, going⟩ := @onMessage_streams libs s fd c conn r
  have behind : rest <:+ conn.arrived.drop (conn.read + sizeofMessageHdr) := by
    rcases left with rfl | ⟨kept, rfl⟩
    · subst made
      exact List.suffix_rfl
    · subst made
      exact serve_rest kept
  have length := behind.length_le
  rw [List.length_drop] at length
  have further : conn.read + sizeofMessageHdr ≤ (conn.left rest).read := by
    change _ ≤ conn.arrived.length - rest.length
    omega
  have within : (conn.left rest).read ≤ (conn.left rest).arrived.length := Nat.sub_le _ _
  have moved := @set libs server s streamed c conn (conn.left rest) here List.prefix_rfl
    (Nat.le_trans (Nat.le_add_right _ _) further) within
  have goes := streamed.goes on
  obtain ⟨more, last⟩ := run_snoc r goes
  rw [← streamed.serves] at more last
  have inside : c < s.connections.length := (List.getElem?_eq_some_iff.mp here).1
  have new : Handling.From (s.connections.set c (conn.left rest)) ⟨c, conn.read, (conn.left rest).read, r⟩ := by
    refine ⟨conn.left rest, List.getElem?_set_self inside, further, Nat.le_refl _, ?_, ?_⟩
    · rw [← made]
      rfl
    · rw [← made]
      exact List.prefix_rfl
  refine ⟨?_, ?_, ?_, ?_, ?_, ?_⟩
  · rw [connections]
    exact moved.within
  · rw [connections, log]
    intro h among
    rcases List.mem_append.mp among with old | last
    · exact moved.each h old
    · rw [List.mem_singleton.mp last]
      exact new
  · rw [log]
    refine List.pairwise_append.mpr ⟨streamed.order, List.pairwise_singleton _ _, fun h among h' last same => ?_⟩
    rw [List.mem_singleton.mp last] at same ⊢
    obtain ⟨own, found, -, read, -⟩ := streamed.each h among
    rw [same] at found
    cases here.symm.trans found
    exact read
  · rw [servers, log, List.map_append, List.map_singleton, last]
  · rw [log, List.map_append, List.map_singleton, more, List.map_append, streamed.all]
    rfl
  · rw [going, log, List.map_append, List.map_singleton, more]
    intro still p among
    rcases List.mem_append.mp among with old | last
    · exact goes p old
    · rw [List.mem_singleton.mp last]
      exact goesOn_of_goingAfter still

/-- Whatever happens. -/
theorem next (streamed : Streamed libs server s) (moves : Moves libs s t) : Streamed libs server t := by
  cases moves with
  | @grows c conn conn' here more same =>
      have within := streamed.within conn (List.mem_of_getElem? here)
      exact streamed.set here more (Nat.le_of_eq same.symm) (same ▸ Nat.le_trans within more.length_le)
  | waits on => exact streamed.keep ⟨rfl, rfl, id⟩ (.inl rfl)
  | fails => exact streamed.keep ⟨rfl, rfl, fun on => by cases on⟩ (.inl rfl)
  | @turns event batch _ on first turns =>
      have rest : Streamed libs server { s with batch := batch } := streamed.keep ⟨rfl, rfl, id⟩ (.inl rfl)
      cases turns with
      | @listening accepted =>
          cases accepted with
          | refused => exact rest
          | unset => exact rest.keep ⟨rfl, rfl, fun on => by cases on⟩ (.inl rfl)
          | unwatched => exact rest.keep ⟨rfl, rfl, id⟩ (.inr rfl)
          | watched => exact rest.keep ⟨rfl, rfl, id⟩ (.inr rfl)
      | client socket other here reads =>
          cases reads with
          | message whole => exact rest.message on here whole
          | piece =>
              have within := streamed.within _ (List.mem_of_getElem? here)
              exact rest.set here List.prefix_rfl within (Nat.le_refl _)
          | gone => exact rest.keep ⟨rfl, rfl, id⟩ (.inl rfl)
      | nothing => exact rest

end Streamed

/-! ### The process of the descriptors -/

/-- The process of `Conservation`, which closes a socket once, is where the loop is. -/
structure Follows (s : MainLoop) (p : Process) : Prop where
  server : p.server = s.server
  descriptors : p.descriptors = s.descriptors
  live : p.live = s.sockets.map Prod.fst
  running : s.going = .on → p.running = true

namespace Follows

variable {libs : Externals} {s t : MainLoop} {p : Process} {fd c : Nat}

theorem live_drop (follows : Follows s p) : (s.drop fd).sockets.map Prod.fst = release p.live fd := by
  rw [follows.live, release, List.filter_map]
  rfl

theorem close (follows : Follows s p) (on : s.going = .on) (socket : (fd, c) ∈ s.sockets) :
    Follows (s.close fd) (p.turn libs (.hangup fd)) := by
  have known : fd ∈ p.live := follows.live ▸ List.mem_map_of_mem socket
  rw [Process.turn, if_pos (follows.running on), Process.take, if_pos known]
  exact ⟨follows.server, congrArg (Descriptors.close · fd) follows.descriptors, follows.live_drop.symm, fun _ => follows.running on⟩

theorem message (follows : Follows s p) (on : s.going = .on) (socket : (fd, c) ∈ s.sockets) {conn : Connection} {r : Request} :
    Follows (s.onMessage libs fd c conn r) (p.turn libs (.message fd r)) := by
  have known : fd ∈ p.live := follows.live ▸ List.mem_map_of_mem socket
  have gone := @live_drop s p fd follows
  rw [Process.turn, if_pos (follows.running on), Process.take, if_pos known, follows.server, follows.descriptors]
  have live := follows.live
  cases status : (r.serve libs s.server).status with
  | closed =>
      rw [MainLoop.onMessage_closed status]
      simp only [status]
      exact ⟨rfl, rfl, gone.symm, fun _ => rfl⟩
  | kept =>
      simp only [MainLoop.onMessage, status]
      exact ⟨rfl, rfl, live, fun _ => rfl⟩
  | blocked =>
      simp only [MainLoop.onMessage, status]
      exact ⟨rfl, rfl, live, fun still => by cases still⟩
  | aborted =>
      simp only [MainLoop.onMessage, status]
      exact ⟨rfl, rfl, live, fun still => by cases still⟩
  | faulted =>
      simp only [MainLoop.onMessage, status]
      exact ⟨rfl, rfl, live, fun still => by cases still⟩

theorem connect (follows : Follows s p) (on : s.going = .on) {watched : List (Nat × Option Nat)} : Follows ({ s with
      descriptors := { s.descriptors with table := acquire s.descriptors.table }
      sockets := (lowest s.descriptors.table, s.connections.length) :: s.sockets
      watched := watched
      connections := s.connections ++ [⟨[], 0, .opened⟩] } : MainLoop) (p.turn libs .connect) := by
  rw [Process.turn, if_pos (follows.running on), Process.take, follows.descriptors, follows.live]
  exact ⟨follows.server, rfl, rfl, fun _ => follows.running on⟩

/-- One step of the loop is some turns of the process. -/
theorem next (follows : Follows s p) (moves : Moves libs s t) : ∃ ts, Follows t (p.after libs ts) := by
  cases moves with
  | grows => exact ⟨[], follows.server, follows.descriptors, follows.live, follows.running⟩
  | waits on => exact ⟨[], follows.server, follows.descriptors, follows.live, follows.running⟩
  | fails => exact ⟨[], follows.server, follows.descriptors, follows.live, fun on => by cases on⟩
  | @turns event batch _ on first turns =>
      have rest : Follows ({ s with batch := batch } : MainLoop) p := ⟨follows.server, follows.descriptors, follows.live, follows.running⟩
      cases turns with
      | @listening accepted =>
          cases accepted with
          | refused => exact ⟨[], rest⟩
          | unset => exact ⟨[], follows.server, follows.descriptors, follows.live, fun on => by cases on⟩
          | unwatched =>
              have connected := @connect libs _ p rest on s.watched
              exact ⟨[.connect, .hangup _], connected.close on List.mem_cons_self⟩
          | watched => exact ⟨[.connect], rest.connect on⟩
      | client socket other here reads =>
          cases reads with
          | message => exact ⟨[.message _ _], rest.message on socket⟩
          | piece => exact ⟨[], follows.server, follows.descriptors, follows.live, follows.running⟩
          | gone => exact ⟨[.hangup _], rest.close on socket⟩
      | nothing => exact ⟨[], rest⟩

end Follows

/-! ### Reachable states -/

section Reached

variable (libs : Externals) (server : Server) {n listener : Nat} {s : MainLoop}

/-- What has been reported is, when `main` comes to it, still about the connection it was reported for, or about the listening
socket. The sockets belong to different connections, and while the loop goes on they and the listening socket are watched and
nothing else is. -/
theorem events_current (opened : listener < n) (reach : Reachable (MainLoop.Step libs) (.start server n listener) s) :
    (∀ event ∈ s.batch, event.1.fd = s.listener ∧ event.2 = none ∨
      event.1.fd ≠ s.listener ∧ ∃ c, event.2 = some c ∧ s.connOf event.1.fd = some c) ∧
    (s.sockets.map Prod.fst).Nodup ∧ (s.sockets.map Prod.snd).Nodup ∧
      (∀ p ∈ s.sockets, p.1 ∈ s.descriptors.table ∧ p.1 ≠ s.listener) ∧
        (s.going = .on → ∀ w, w ∈ s.watched ↔ w = (s.listener, none) ∨ ∃ p ∈ s.sockets, w = (p.1, some p.2)) := by
  have current := current_reachable opened reach
  refine ⟨fun event among => ?_, current.once, current.own, fun p among => ?_, fun on w => ⟨current.watching w, ?_⟩⟩
  · rcases current.about among with listening | ⟨c, conn, about, socket, other, -⟩
    · exact .inl listening
    · exact .inr ⟨other, c, about, current.connOf_of_mem socket⟩
  · obtain ⟨there, other, -⟩ := current.socket p among
    exact ⟨there, other⟩
  · obtain ⟨listening, clients⟩ := current.watched on
    rintro (rfl | ⟨p, socket, rfl⟩)
    · exact listening
    · exact clients p socket

/-- What the loop does to the server is a run of messages, which are read from the clients' streams: the header and what
its handler finds behind it are the next bytes of one stream, and no bytes of a stream are read for two messages. -/
theorem loop_refines (opened : listener < n) (reach : Reachable (MainLoop.Step libs) (.start server n listener) s) :
    s.server = runState libs server (s.log.map Handling.request) ∧
      (run libs server (s.log.map Handling.request)).map Prod.snd = s.log.map Handling.request ∧
      (∀ h ∈ s.log, h.From s.connections) ∧ s.log.Pairwise (fun h h' => h.conn = h'.conn → h.stop ≤ h'.start) := by
  have start : Streamed libs server (.start server n listener) :=
    ⟨List.forall_mem_nil _, List.forall_mem_nil _, List.Pairwise.nil, rfl, rfl, fun _ => List.forall_mem_nil _⟩
  have both := reachable_invariant (fun s => Current s ∧ Streamed libs server s) reach ⟨current_start opened, start⟩
    fun s t known step => ⟨known.1.next step, known.2.next (moves_of_step known.1 step)⟩
  exact ⟨both.2.serves, both.2.all, both.2.each, both.2.order⟩

/-- The loop does to the server and to the table of descriptors what the process of `Conservation` does in some turns. -/
theorem loop_follows (opened : listener < n) (reach : Reachable (MainLoop.Step libs) (.start server n listener) s) :
    ∃ ts, Follows s ((Process.started server n).after libs ts) := by
  have start : Follows (.start server n listener) ((Process.started server n).after libs []) := ⟨rfl, rfl, rfl, fun _ => rfl⟩
  have both := reachable_invariant (fun s => Current s ∧ ∃ ts, Follows s ((Process.started server n).after libs ts)) reach
    ⟨current_start opened, [], start⟩ ?_
  · exact both.2
  · rintro s t ⟨current, ts, follows⟩ step
    obtain ⟨more, onward⟩ := follows.next (moves_of_step current step)
    refine ⟨current.next step, ts ++ more, ?_⟩
    rw [Process.after, List.foldl_append]
    exact onward

end Reached

/-! ### Two clients on one descriptor -/

/-- One thing after the other. -/
def MainLoop.after (libs : Externals) : MainLoop → List Happening → Option MainLoop
  | s, [] => some s
  | s, happening :: later => (s.next libs happening).bind fun t => t.after libs later

theorem reachable_of_after {libs : Externals} {s t : MainLoop} {happenings : List Happening}
    (here : s.after libs happenings = some t) : Reachable (MainLoop.Step libs) s t := by
  induction happenings generalizing s with
  | nil =>
      cases here
      exact .refl
  | cons happening later ih =>
      obtain ⟨u, step, onward⟩ := Option.bind_eq_some_iff.mp here
      exact (ih onward).head ⟨happening, step⟩

/-- A client connects and is gone when the next one connects, who is given its descriptor and registers. -/
def succession : List Happening :=
  [.wait [⟨4, true, false⟩], .event .watched default [], .wait [⟨6, false, true⟩, ⟨4, true, false⟩],
    .event .watched default [], .event .watched default [], .arrive 1 (request .authReq someToken [] []).hdr.encode,
    .wait [⟨6, true, false⟩]]

/-- Its message is reported for its own connection. -/
theorem events_current_succession : ∃ s, (MainLoop.start (boot [] []) 6 4).after libraries succession = some s ∧
    s.sockets = [(6, 1)] ∧ ∀ event ∈ s.batch, event.1.fd = s.listener ∧ event.2 = none ∨
      event.1.fd ≠ s.listener ∧ ∃ c, event.2 = some c ∧ s.connOf event.1.fd = some c := by
  obtain ⟨s, here⟩ := Option.isSome_iff_exists.mp
    (show ((MainLoop.start (boot [] []) 6 4).after libraries succession).isSome = true by decide)
  have sockets : ((MainLoop.start (boot [] []) 6 4).after libraries succession).map MainLoop.sockets = some [(6, 1)] := by decide
  rw [here] at sockets
  refine ⟨s, here, Option.some.inj sockets, (events_current libraries (boot [] []) (by decide) (reachable_of_after here)).1⟩

/-- And it is what the server has been run on. -/
theorem loop_refines_succession : ∃ s,
    (MainLoop.start (boot [] []) 6 4).after libraries (succession ++ [.event .watched default []]) = some s ∧
      (s.log.map fun h => (h.conn, h.start, h.stop)) = [(1, 0, 48)] ∧
        s.server = runState libraries (boot [] []) (s.log.map Handling.request) := by
  obtain ⟨s, here⟩ := Option.isSome_iff_exists.mp (show ((MainLoop.start (boot [] []) 6 4).after libraries
    (succession ++ [.event .watched default []])).isSome = true by decide)
  have log : ((MainLoop.start (boot [] []) 6 4).after libraries (succession ++ [.event .watched default []])).map
      (fun s => s.log.map fun h => (h.conn, h.start, h.stop)) = some [(1, 0, 48)] := by decide
  rw [here] at log
  exact ⟨s, here, Option.some.inj log, (loop_refines libraries (boot [] []) (by decide) (reachable_of_after here)).1⟩

theorem loop_follows_succession : ∃ s ts,
    (MainLoop.start (boot [] []) 6 4).after libraries (succession ++ [.event .watched default []]) = some s ∧
      Follows s ((Process.started (boot [] []) 6).after libraries ts) := by
  obtain ⟨s, here⟩ := Option.isSome_iff_exists.mp (show ((MainLoop.start (boot [] []) 6 4).after libraries
    (succession ++ [.event .watched default []])).isSome = true by decide)
  obtain ⟨ts, follows⟩ := loop_follows libraries (boot [] []) (by decide) (reachable_of_after here)
  exact ⟨s, ts, here, follows⟩

end MiniDropbox
