/-
The event loop on one connection whose bytes arrive in pieces.

`recv_all` may run dry in the middle of a header or a payload, since the sockets of
clients do not block. It then returns -1 with what it has read so far in a buffer
nobody looks at: `main` goes on with the next event, a handler returns. `loopReader`
is the loop with its one-shot handlers as a reader of the connection's stream, and
`onReadable_decodes` says that it does at one go what `onReadable` does.

`framing_of_clean` is about every way in which a stream can arrive: as long as no
`recv_all` runs dry inside a message, the loop decodes what it decodes when the
whole stream is there at once, and no byte is lost.
-/

import MiniDropbox.Boundary
import MiniDropbox.Lib.Framing

namespace MiniDropbox

open Framing Transition

/-- Where the loop stands with a connection: at the next header, inside the payload of a
one-shot request, or no longer reading it. -/
inductive Stage where
  | header
  | payload (hdr : MessageHdr) (type : MessageType) (user : Option Nat)
  | gone

/-- The server as one connection sees it, with the headers and payloads decoded so far.
A header whose payload is not received stands alone. -/
structure Loop where
  server : Server
  stage : Stage
  log : List (MessageHdr × Option (List Byte))

variable (libs : Externals) (envs : Nat → Env)

namespace Loop

/-- The handler of a one-shot request, with what its receive call left. The messages of a
connection are handled in the environments `envs`, one after another. -/
def handle (s : Loop) (hdr : MessageHdr) (type : MessageType) (user : Option Nat)
    (payload : Option (List Byte)) : Loop :=
  match onOneshotReq libs (envs s.log.length) s.server user hdr type payload with
  | none => ⟨s.server, .gone, s.log ++ [(hdr, payload)]⟩
  | some (server, _) => ⟨server, .header, s.log ++ [(hdr, payload)]⟩

/-- The connection leaves the loop with a message. -/
def leave (s : Loop) (hdr : MessageHdr) : Loop := ⟨s.server, .gone, s.log ++ [(hdr, none)]⟩

/-- A header has been received: `on_client_message_received` up to the receive call of the
handler. -/
def onHeader (s : Loop) (hdr : MessageHdr) : Loop :=
  match dispatch hdr with
  | .abort => s.leave hdr
  | .refuse => s.leave hdr
  | .accept type =>
      match umanGetUser s.server.uman hdr.token with
      | none => s.leave hdr
      | some user =>
          match type.kind with
          | .ignored => { s with log := s.log ++ [(hdr, none)] }
          | .stream => s.leave hdr
          | .oneshot =>
              match payloadLimit type user with
              | none => s.handle libs envs hdr type user none
              | some maxlen =>
                  if hdr.length > maxlen then s.handle libs envs hdr type user none
                  else if hdr.length = 0 then s.handle libs envs hdr type user (some [])
                  else { s with stage := .payload hdr type user }

end Loop

/-- How many bytes the next `recv_all` asks for. -/
def Stage.need : Stage → Nat
  | .header => sizeofMessageHdr
  | .payload hdr _ _ => hdr.length
  | .gone => 0

/-- Headers are only read when `epoll_wait` reports the connection. -/
def Stage.polls : Stage → Bool
  | .header => true
  | _ => false

/-- The loop as a reader of the connection's stream. -/
def loopReader : Reader Byte Loop where
  need s := s.stage.need
  polls s := s.stage.polls
  feed s bytes :=
    match s.stage with
    | .header => s.onHeader libs envs (MessageHdr.decode bytes)
    | .payload hdr type user => s.handle libs envs hdr type user (some bytes)
    | .gone => s
  starve s :=
    match s.stage with
    | .header => s
    | .payload hdr type user => s.handle libs envs hdr type user none
    | .gone => s
  polls_starve s := by
    cases stage : s.stage with
    | header => exact .inl (by rw [stage]; rfl)
    | payload hdr type user =>
        dsimp only
        unfold Loop.handle
        split
        · exact .inr rfl
        · exact .inl rfl
    | gone => exact .inr (by rw [stage]; rfl)

/-- The loop before a connection's first message. -/
def Loop.start (server : Server) : Loop := ⟨server, .header, []⟩

variable {libs envs}

theorem handle_log (s : Loop) (hdr : MessageHdr) (type : MessageType) (user : Option Nat)
    (payload : Option (List Byte)) :
    s.log <+: (s.handle libs envs hdr type user payload).log := by
  unfold Loop.handle
  split <;> exact List.prefix_append _ _

theorem onHeader_log (s : Loop) (hdr : MessageHdr) : s.log <+: (s.onHeader libs envs hdr).log := by
  have left : s.log <+: (s.leave hdr).log := List.prefix_append _ _
  unfold Loop.onHeader
  cases dispatch hdr with
  | abort => exact left
  | refuse => exact left
  | accept type =>
      dsimp only
      cases umanGetUser s.server.uman hdr.token with
      | none => exact left
      | some user =>
          dsimp only
          cases type.kind with
          | ignored => exact List.prefix_append _ _
          | stream => exact left
          | oneshot =>
              dsimp only
              split
              · exact handle_log s hdr type user none
              · split_ifs
                · exact handle_log s hdr type user none
                · exact handle_log s hdr type user (some [])
                · exact List.prefix_refl _

/-- What has been decoded stays. -/
theorem decodes_log {s last : Loop} {stream : List Byte}
    (decodes : (loopReader libs envs).Decodes s stream last) : s.log <+: last.log := by
  refine decodes.related (fun s t => s.log <+: t.log) (fun s => List.prefix_refl _)
    List.IsPrefix.trans ?_ ?_
  · intro s bytes
    cases stage : s.stage with
    | header =>
        simp only [loopReader, stage]
        exact onHeader_log s _
    | payload hdr type user =>
        simp only [loopReader, stage]
        exact handle_log s hdr type user _
    | gone =>
        simp only [loopReader, stage]
        exact List.prefix_refl _
  · intro s
    cases stage : s.stage with
    | header =>
        simp only [loopReader, stage]
        exact List.prefix_refl _
    | payload hdr type user =>
        simp only [loopReader, stage]
        exact handle_log s hdr type user none
    | gone =>
        simp only [loopReader, stage]
        exact List.prefix_refl _

/-! ### At one go -/

/-- At the next header, a reading of the stream begins with the header. -/
theorem decodes_of_onHeader {s last : Loop} {rx : List Byte} (start : s.stage = .header)
    (whole : sizeofMessageHdr ≤ rx.length)
    (rest : (loopReader libs envs).Decodes
      (s.onHeader libs envs (MessageHdr.decode (rx.take sizeofMessageHdr))) (rx.drop sizeofMessageHdr) last) :
    (loopReader libs envs).Decodes s rx last := by
  have need : (loopReader libs envs).need s = sizeofMessageHdr := by simp [loopReader, start, Stage.need]
  refine .feed (by rw [need]; decide) (by rw [need]; exact whole) ?_
  rw [need]
  simpa only [loopReader, start] using rest

/-- With the payload under way the receive call of the handler settles the message. -/
theorem decodes_of_payload {server server' : Server} {hdr : MessageHdr} {type : MessageType}
    {user : Option Nat} {maxlen : Nat} {log : List (MessageHdr × Option (List Byte))} {rx : List Byte}
    {sched : List (Option Nat)} {events : List Event} {last : Loop} (positive : 0 < hdr.length)
    (within : hdr.length ≤ maxlen)
    (handled : onOneshotReq libs (envs log.length) server user hdr type
      (recvOneshot ⟨rx, sched, .opened⟩ hdr.length (some maxlen)).1 = some (server', events))
    (rest : (loopReader libs envs).Decodes ⟨server', .header, log ++
        [(hdr, (recvOneshot ⟨rx, sched, .opened⟩ hdr.length (some maxlen)).1)]⟩
      (recvOneshot ⟨rx, sched, .opened⟩ hdr.length (some maxlen)).2.rx last) :
    (loopReader libs envs).Decodes ⟨server, .payload hdr type user, log⟩ rx last := by
  by_cases enough : hdr.length ≤ rx.length
  · obtain ⟨sched', received⟩ := @msgRecvPayload_of_le (Sock.nonblocking ⟨rx, sched, .opened⟩) hdr.length
      maxlen within enough
    simp only [recvOneshot, received] at handled rest
    refine .feed positive enough ?_
    simp only [loopReader, Stage.need, Loop.handle]
    simp only [Sock.nonblocking] at handled rest
    rw [handled]
    exact rest
  · obtain ⟨sched', received⟩ := @recvAll_of_lt (Sock.nonblocking ⟨rx, sched, .opened⟩) hdr.length
      (Nat.lt_of_not_le enough)
    simp only [recvOneshot, msgRecvPayload, if_neg (Nat.not_lt.mpr within), if_pos positive, received,
      RecvAll.dry] at handled rest
    simp only [Sock.nonblocking, if_true] at handled rest
    have waits : (loopReader libs envs).Decodes ⟨server', .header, log ++ [(hdr, none)]⟩ []
        ⟨server', .header, log ++ [(hdr, none)]⟩ := .wait (Nat.zero_lt_succ 47) rfl
    rw [rest.unique waits]
    have starved : (loopReader libs envs).starve ⟨server, .payload hdr type user, log⟩ =
        ⟨server', .header, log ++ [(hdr, none)]⟩ := by
      simp only [loopReader, Loop.handle, handled]
    rw [← starved]
    exact .starve (Nat.lt_of_not_le enough) fun waits => by cases waits.1

/-- One message of a stream that is there as a whole: the loop goes on where `onReadable`
leaves the stream, in the state it leaves the server in. -/
theorem onReadable_decodes {s : Loop} {rx : List Byte} {sched : List (Option Nat)} (start : s.stage = .header)
    (whole : sizeofMessageHdr ≤ rx.length)
    (kept : (onReadable libs (envs s.log.length) s.server ⟨rx, sched, .opened⟩).status = .kept) :
    ∃ payload, ∀ last, (loopReader libs envs).Decodes
        ⟨(onReadable libs (envs s.log.length) s.server ⟨rx, sched, .opened⟩).server, .header,
          s.log ++ [(MessageHdr.decode (rx.take sizeofMessageHdr), payload)]⟩
        (onReadable libs (envs s.log.length) s.server ⟨rx, sched, .opened⟩).sock.rx last →
      (loopReader libs envs).Decodes s rx last := by
  obtain ⟨sched', received⟩ := @recvAll_of_le (Sock.nonblocking ⟨rx, sched, .opened⟩) sizeofMessageHdr whole
  have handed : onReadable libs (envs s.log.length) s.server ⟨rx, sched, .opened⟩ =
      onClientMessageReceived libs (envs s.log.length) s.server
        (MessageHdr.decode (rx.take sizeofMessageHdr)) ⟨rx.drop sizeofMessageHdr, sched', .opened⟩ := by
    simp only [onReadable, msgRecvHeader, received]
    rfl
  rw [handed] at kept ⊢
  have begins := fun last => @decodes_of_onHeader libs envs s last rx start whole
  generalize MessageHdr.decode (rx.take sizeofMessageHdr) = hdr at kept begins ⊢
  unfold onClientMessageReceived at kept ⊢
  unfold Loop.onHeader at begins
  cases verdict : dispatch hdr with
  | abort => rw [verdict] at kept; cases kept
  | refuse => rw [verdict] at kept; cases kept
  | accept type =>
      rw [verdict] at kept
      simp only [verdict] at begins
      dsimp only at kept ⊢
      cases lookup : umanGetUser s.server.uman hdr.token with
      | none => rw [lookup] at kept; cases kept
      | some user =>
          rw [lookup] at kept
          simp only [lookup] at begins
          dsimp only at kept ⊢
          cases kind : type.kind with
          | ignored =>
              simp only [kind] at begins
              refine ⟨none, fun last rest => begins last ?_⟩
              rw [start]
              exact rest
          | stream =>
              rw [kind] at kept
              exact absurd kept (onStreamReq_not_kept _ _ _ _)
          | oneshot =>
              rw [kind] at kept
              simp only [kind] at begins
              dsimp only at kept ⊢
              cases handled : onOneshotReq libs (envs s.log.length) s.server user hdr type
                  (recvOneshot ⟨rx.drop sizeofMessageHdr, sched', .opened⟩ hdr.length
                    (payloadLimit type user)).1 with
              | none => rw [handled] at kept; cases kept
              | some next =>
                  obtain ⟨server', events⟩ := next
                  refine ⟨(recvOneshot ⟨rx.drop sizeofMessageHdr, sched', .opened⟩ hdr.length
                    (payloadLimit type user)).1, fun last rest => begins last ?_⟩
                  dsimp only at rest
                  cases limit : payloadLimit type user with
                  | none =>
                      simp only [limit, recvOneshot] at handled rest ⊢
                      simp only [Loop.handle, handled]
                      exact rest
                  | some maxlen =>
                      simp only [limit] at handled rest ⊢
                      by_cases large : hdr.length > maxlen
                      · simp only [recvOneshot, msgRecvPayload, if_pos large] at handled rest
                        simp only [if_pos large, Loop.handle, handled]
                        exact rest
                      rw [if_neg large]
                      by_cases empty : hdr.length = 0
                      · have nothing : ¬ hdr.length > 0 := by rw [empty]; decide
                        simp only [recvOneshot, msgRecvPayload, if_neg large, if_neg nothing] at handled rest
                        simp only [if_pos empty, Loop.handle, handled]
                        exact rest
                      rw [if_neg empty]
                      exact decodes_of_payload (Nat.pos_of_ne_zero empty) (Nat.le_of_not_lt large) handled rest

/-! ### In pieces -/

/-- The bytes of a stream are decoded alike however it arrives: for every server,
environment and stream, all runs on the stream as a whole end with one sequence of
headers and payloads, and a run on pieces of it that never runs dry inside a message
has lost no byte, has decoded the beginning of that sequence, and at its end all of
it. -/
theorem framing_of_clean (libs : Externals) (envs : Nat → Env) (server : Server) (stream : List Byte) :
    ∃ log, EndsIn (loopReader libs envs).Step
        (fun t => (loopReader libs envs).Quiet t ∧ t.app.log = log)
        (Reader.whole (Loop.start server) stream) ∧
      ∀ s, Reachable (loopReader libs envs).Clean (Reader.fresh (Loop.start server) stream) s →
        s.forgot = [] ∧ s.app.log <+: log ∧ ((loopReader libs envs).Quiet s → s.app.log = log) := by
  obtain ⟨last, decodes⟩ := Reader.exists_decodes (loopReader libs envs) (Loop.start server) stream
  refine ⟨last.log, (Reader.atOnce_endsIn decodes).mono fun t ⟨quiet, same⟩ => ⟨quiet, by rw [same]⟩, ?_⟩
  intro s reach
  have agrees := Reader.agrees_of_clean decodes reach
  exact ⟨Reader.forgot_of_clean reach, decodes_log agrees.meaning, fun quiet => by rw [agrees.quiet quiet]⟩

/-- The stream of a client that registers. -/
def authStream : List Byte := (request .authReq someToken [] []).hdr.encode

/-- A client that registers and makes a directory. -/
def twoMessages : List Byte :=
  authStream ++ ((request .mkdirReq someToken (cstr "d" ++ [0]) []).hdr.encode ++ (cstr "d" ++ [0]))

/-- The two messages are decoded in three segments, which cut the headers, and in reads that cut them elsewhere. -/
theorem framing_of_clean_pieces : ∃ s,
    Reachable (loopReader libraries fun _ => default).Clean
      (Reader.fresh (Loop.start (boot [] [])) twoMessages) s ∧
    s.forgot = [] ∧ s.app.log.length = 2 ∧ ∀ t, Reachable (loopReader libraries fun _ => default).Step
        (Reader.whole (Loop.start (boot [] [])) twoMessages) t →
      Stuck (loopReader libraries fun _ => default).Step t → s.app.log = t.app.log := by
  have begun : Reachable (loopReader libraries fun _ => default).Clean
      (Reader.fresh (Loop.start (boot [] [])) twoMessages) _ :=
    .tail .refl (.inl (.mk _ 29 (by decide)))
  have half := begun.tail (.inr (.inl (.mk _ 9 (by decide) (by decide))))
  have held := half.tail (.inr (.inl (.mk _ 19 (by decide) (by decide))))
  have more := held.tail (.inl (.mk _ 39 (by decide)))
  have registered := more.tail (.inr (.inl (.mk _ 47 (by decide) (by decide))))
  have cut := registered.tail (.inr (.inl (.mk _ 47 (by decide) (by decide))))
  have last := cut.tail (.inl (.mk _ 97 (by decide)))
  have header := last.tail (.inr (.inl (.mk _ 47 (by decide) (by decide))))
  have letter := header.tail (.inr (.inl (.mk _ 0 (by decide) (by decide))))
  have made := letter.tail (.inr (.inl (.mk _ 0 (by decide) (by decide))))
  obtain ⟨log, atOnce, inPieces⟩ := framing_of_clean libraries (fun _ => default) (boot [] []) twoMessages
  obtain ⟨kept, -, ends⟩ := inPieces _ made
  refine ⟨_, made, kept, by decide, fun t run stuck => ?_⟩
  rw [(atOnce.final run stuck).2]
  exact ends ⟨by decide, .inr ⟨by decide, by decide, by decide⟩⟩

/-- Half a header that arrives alone is lost. -/
theorem loses_half {s : Loop} {todo forgot : List Byte} (start : s.stage = .header)
    (enough : 24 ≤ todo.length) :
    Reachable (loopReader libs envs).Step ⟨s, [], [], todo, forgot⟩
      ⟨s, [], [], todo.drop 24, forgot ++ todo.take 24⟩ := by
  have need : (loopReader libs envs).need s = 48 := by simp [loopReader, start, Stage.need, sizeofMessageHdr]
  have arrive : Reader.Arrive (⟨s, [], [], todo, forgot⟩ : State Byte Loop)
      ⟨s, [], todo.take 24, todo.drop 24, forgot⟩ := .mk _ 23 (by rintro rfl; cases enough)
  have front : (todo.take 24).length = 24 := by rw [List.length_take, Nat.min_eq_left enough]
  have read : (loopReader libs envs).Read ⟨s, [], todo.take 24, todo.drop 24, forgot⟩
      ⟨s, todo.take 24, [], todo.drop 24, forgot⟩ := by
    have step := Reader.Read.mk (R := loopReader libs envs)
      ⟨s, [], todo.take 24, todo.drop 24, forgot⟩ 23 (by rw [need]; decide)
      (List.length_pos_iff.mp (by rw [front]; decide))
    simpa [Reader.taken, Reader.read, need, front, List.take_take] using step
  have dry : (loopReader libs envs).Dry ⟨s, todo.take 24, [], todo.drop 24, forgot⟩
      ⟨s, [], [], todo.drop 24, forgot ++ todo.take 24⟩ := by
    have step := Reader.Dry.mk (R := loopReader libs envs) ⟨s, todo.take 24, [], todo.drop 24, forgot⟩
      (by rw [need]; decide) rfl
      fun waits => List.length_pos_iff.mp (by rw [front]; decide) waits.2
    simpa only [loopReader, start] using step
  exact .tail (.tail (.tail .refl (.inl arrive)) (.inr (.inl read))) (.inr (.inr dry))

/-- The header of an `AUTH_REQ` that arrives in two halves is lost, half by half. -/
theorem framing_halves :
    ¬ ∀ s t, Reachable (loopReader libraries fun _ => default).Step
        (Reader.fresh (Loop.start (boot [] [])) authStream) s →
      (loopReader libraries fun _ => default).Quiet s →
      Reachable (loopReader libraries fun _ => default).Step
        (Reader.whole (Loop.start (boot [] [])) authStream) t →
      (loopReader libraries fun _ => default).Quiet t → s.app.log = t.app.log ∧ s.forgot = [] := by
  intro claim
  have first := @loses_half libraries (fun _ => default) (Loop.start (boot [] [])) authStream [] rfl
    (by decide)
  have second := @loses_half libraries (fun _ => default) (Loop.start (boot [] [])) (authStream.drop 24)
    ([] ++ authStream.take 24) rfl (by decide)
  have read := Reader.Read.mk (R := loopReader libraries fun _ => default)
    (Reader.whole (Loop.start (boot [] [])) authStream) 47 (by decide) (by decide)
  have quiet : (loopReader libraries fun _ => default).Quiet ⟨Loop.start (boot [] []), [], [],
      (authStream.drop 24).drop 24, [] ++ authStream.take 24 ++ (authStream.drop 24).take 24⟩ :=
    ⟨by decide, .inr ⟨rfl, rfl, rfl⟩⟩
  have lost := (claim _ _ (first.trans second) quiet (.tail .refl (.inr (.inl read)))
    ⟨by decide, .inr ⟨by decide, by decide, by decide⟩⟩).2
  revert lost
  decide

end MiniDropbox
