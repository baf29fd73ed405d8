/-
Message boundaries.

After a message has been handled the event loop reads the next header where the
handler stopped reading. `boundary_iff` says when that is the end of the message:
the server reads a payload only for a registered user's `REMOVE_REQ` and
`MKDIR_REQ`, and only up to 8192 bytes; the payload of every other message that
leaves the connection in the epoll set stays on the socket and is read as headers.
-/

import MiniDropbox.Server

namespace MiniDropbox

variable {libs : Externals} {env : Env} {server : Server}

/-- The state of a lookup or a registration that runs out of the map's memory. -/
def LosesItself (env : Env) (server : Server) (hdr : MessageHdr) (type : MessageType) : Prop :=
  umanGetUser server.uman hdr.token = none ∨
    type = .authReq ∧ umanRegisterUser env.fresh server.uman hdr.token = none

/-- The messages whose payload is consumed by the handler. -/
def PayloadRead (server : Server) (hdr : MessageHdr) (type : MessageType) : Prop :=
  (type = .removeReq ∨ type = .mkdirReq) ∧ (∃ addr, umanGetUser server.uman hdr.token = some (some addr)) ∧
    hdr.length ≤ 8192

/-- When a message leaves the stream at a boundary or the connection out of the epoll
set: its type is unknown, its token is refused, it is a stream request, or it ends
the process; or it has no payload; or the payload is read. -/
def BoundaryCondition (env : Env) (server : Server) (hdr : MessageHdr) : Prop :=
  ∀ type, dispatch hdr = .accept type →
    type.kind = .stream ∨ LosesItself env server hdr type ∨ hdr.length = 0 ∨ PayloadRead server hdr type

/-- A complete message is received as its header, with the payload behind it. -/
theorem onReadable_complete {header payload rest : List Byte} {sched : List (Option Nat)}
    {fin : SockEnd} (whole : header.length = sizeofMessageHdr) :
    ∃ sched', onReadable libs env server ⟨header ++ (payload ++ rest), sched, fin⟩ =
      onClientMessageReceived libs env server (MessageHdr.decode header)
        ⟨payload ++ rest, sched', fin⟩ := by
  have enough : sizeofMessageHdr ≤
      (Sock.nonblocking ⟨header ++ (payload ++ rest), sched, fin⟩).rx.length := by
    simp [Sock.nonblocking, whole]
  obtain ⟨sched', received⟩ := recvAll_of_le enough
  refine ⟨sched', ?_⟩
  have front : (header ++ (payload ++ rest)).take sizeofMessageHdr = header := by
    rw [← whole, List.take_left]
  have back : (header ++ (payload ++ rest)).drop sizeofMessageHdr = payload ++ rest := by
    rw [← whole, List.drop_left]
  simp only [onReadable, msgRecvHeader, received]
  simp only [Sock.nonblocking, front, back]

/-- A one-shot handler reads the payload within its limit and nothing otherwise. -/
theorem recvOneshot_complete {payload rest : List Byte} {sched : List (Option Nat)} {fin : SockEnd}
    (limit : Option Nat) :
    ∃ received sched', recvOneshot ⟨payload ++ rest, sched, fin⟩ payload.length limit =
      (received, ⟨if limit.any (payload.length ≤ ·) then rest else payload ++ rest, sched', fin⟩) := by
  cases limit with
  | none => exact ⟨none, sched, rfl⟩
  | some maxlen =>
      by_cases within : payload.length ≤ maxlen
      · have arrived : payload.length ≤
            (Sock.nonblocking ⟨payload ++ rest, sched, fin⟩).rx.length := by
          simp [Sock.nonblocking]
        obtain ⟨sched', received⟩ := msgRecvPayload_of_le within arrived
        refine ⟨some payload, sched', ?_⟩
        simp only [recvOneshot, received]
        simp [Sock.nonblocking, within]
      · refine ⟨none, sched, ?_⟩
        have refused : payload.length > maxlen := Nat.lt_of_not_le within
        simp [recvOneshot, msgRecvPayload, refused, Sock.nonblocking, within]

theorem payloadLimit_any {type : MessageType} {user : Option Nat} {length : Nat} :
    (payloadLimit type user).any (length ≤ ·) = true ↔
      (type = .removeReq ∨ type = .mkdirReq) ∧ (∃ addr, user = some addr) ∧ length ≤ 8192 := by
  cases user with
  | none => cases type <;> simp [payloadLimit]
  | some addr => cases type <;> simp [payloadLimit]

/-- A stream request never leaves the connection in the epoll set. -/
theorem onStreamReq_not_kept (user : Option Nat) (hdr : MessageHdr) (type : MessageType)
    (sock : Sock) : (onStreamReq libs env server user hdr type sock).status ≠ .kept := by
  cases type <;> simp only [onStreamReq, ne_eq, reduceCtorEq, not_false_eq_true]
  case uploadReq =>
    unfold handleUpload
    cases uploadPrepare libs env server user hdr sock with
    | returned => simp
    | blocked => simp
    | ready server place info seq sock =>
        simp only
        split <;> simp
  case downloadReq =>
    unfold handleDownload
    cases downloadPrepare libs env server user hdr sock with
    | returned => simp
    | blocked => simp
    | ready server place filename info startChunk sock =>
        simp only
        split <;> simp
  case listReq =>
    unfold handleList
    repeat' split
    all_goals simp

/-! ### What is left on the stream -/

section Left

variable {sock : Sock}

/-- What `recv_all` leaves is the end of what was there. -/
theorem recvAll_rest {len : Nat} :
    (∀ {data rest}, recvAll sock len = .ok data rest → data = sock.rx.take len ∧ rest.rx = sock.rx.drop len ∧ len ≤ sock.rx.length) ∧
      ∀ {ret got rest}, recvAll sock len = .fail ret got rest → rest.rx = [] := by
  by_cases enough : len ≤ sock.rx.length
  · obtain ⟨sched, received⟩ := recvAll_of_le enough
    refine ⟨fun here => ?_, fun here => ?_⟩
    · cases received.symm.trans here
      exact ⟨rfl, rfl, enough⟩
    · cases received.symm.trans here
  · obtain ⟨sched, received⟩ := recvAll_of_lt (Nat.lt_of_not_le enough)
    refine ⟨fun here => ?_, fun here => ?_⟩
    all_goals
      rw [received, RecvAll.dry] at here
      split at here <;> cases here
    all_goals rfl

/-- A socket that does not block lets no call wait. -/
theorem nonblocking_returns (sock : Sock) (len : Nat) : recvAll sock.nonblocking len ≠ .blocked := by
  intro waits
  by_cases enough : len ≤ sock.nonblocking.rx.length
  · obtain ⟨sched, received⟩ := recvAll_of_le enough
    cases received.symm.trans waits
  · obtain ⟨sched, received⟩ := recvAll_of_lt (Nat.lt_of_not_le enough)
    rw [received, RecvAll.dry, Sock.nonblocking] at waits
    dsimp only at waits
    cases fin : sock.fin with
    | opened => rw [fin] at waits; cases waits
    | closed => rw [fin] at waits; cases waits
    | failed => rw [fin] at waits; cases waits

theorem msgRecvPayload_rest {length maxlen : Nat} :
    (∀ {data rest}, msgRecvPayload sock length maxlen = .ok data rest → rest.rx <:+ sock.rx) ∧
      ∀ {ret got rest}, msgRecvPayload sock length maxlen = .fail ret got rest → rest.rx <:+ sock.rx := by
  rw [msgRecvPayload]
  by_cases large : length > maxlen
  · rw [if_pos large]
    refine ⟨fun here => ?_, fun here => ?_⟩ <;> cases here
    exact List.suffix_rfl
  rw [if_neg large]
  by_cases nonempty : length > 0
  · rw [if_pos nonempty]
    refine ⟨fun here => ?_, fun here => ?_⟩
    · rw [(recvAll_rest.1 here).2.1]
      exact List.drop_suffix _ _
    · rw [recvAll_rest.2 here]
      exact List.nil_suffix
  · rw [if_neg nonempty]
    refine ⟨fun here => ?_, fun here => ?_⟩ <;> cases here
    exact List.suffix_rfl

theorem recvOneshot_rest {length : Nat} {limit : Option Nat} : (recvOneshot sock length limit).2.rx <:+ sock.rx := by
  cases limit with
  | none => exact List.suffix_rfl
  | some maxlen =>
      unfold recvOneshot
      dsimp only
      cases received : msgRecvPayload sock.nonblocking length maxlen with
      | ok data rest =>
          have left := msgRecvPayload_rest.1 received
          exact left
      | fail ret got rest =>
          have left := msgRecvPayload_rest.2 received
          exact left
      | blocked => exact List.suffix_rfl

/-- What a message leaves that keeps its connection is the end of what came behind its header. -/
theorem serve_rest {r : Request} (kept : (r.serve libs server).status = .kept) : (r.serve libs server).sock.rx <:+ r.sock.rx := by
  unfold Request.serve onClientMessageReceived at kept ⊢
  cases dispatched : dispatch r.hdr with
  | abort => exact List.suffix_rfl
  | refuse => exact List.suffix_rfl
  | accept type =>
      rw [dispatched] at kept
      dsimp only at kept ⊢
      cases looked : umanGetUser server.uman r.hdr.token with
      | none => exact List.suffix_rfl
      | some user =>
          rw [looked] at kept
          dsimp only at kept ⊢
          cases kind : type.kind with
          | ignored => exact List.suffix_rfl
          | stream =>
              rw [kind] at kept
              exact absurd kept (onStreamReq_not_kept _ _ _ _)
          | oneshot =>
              rw [kind] at kept
              dsimp only at kept ⊢
              cases handled : onOneshotReq libs r.env server user r.hdr type
                  (recvOneshot r.sock r.hdr.length (payloadLimit type user)).1 with
              | none => exact recvOneshot_rest
              | some outcome => exact recvOneshot_rest

/-- The loop reads on, and never waits: where it keeps the connection, less is left than before. -/
theorem onReadable_shorter (something : sock.rx ≠ []) (kept : (onReadable libs env server sock).status = .kept) :
    (onReadable libs env server sock).sock.rx.length < sock.rx.length := by
  have positive := List.length_pos_iff.mpr something
  unfold onReadable msgRecvHeader at kept ⊢
  cases received : recvAll sock.nonblocking sizeofMessageHdr with
  | ok data rest =>
      obtain ⟨-, left, -⟩ := recvAll_rest.1 received
      have behind : rest.rx = sock.rx.drop sizeofMessageHdr := left
      simp only [received] at kept ⊢
      have shorter := (@serve_rest libs server ⟨MessageHdr.decode data, { rest with fin := sock.fin }, env⟩ kept).length_le
      refine Nat.lt_of_le_of_lt shorter ?_
      dsimp only
      rw [behind, List.length_drop]
      unfold sizeofMessageHdr
      omega
  | fail ret got rest =>
      have nothing := recvAll_rest.2 received
      simp only [nothing]
      exact positive
  | blocked => exact absurd received (nonblocking_returns _ _)

end Left

/-! ### The boundary -/

/-- A one-shot request keeps the connection, unless the registration loses itself. -/
theorem onOneshotReq_isNone {type : MessageType} {user : Option Nat} {hdr : MessageHdr}
    {payload : Option (List Byte)} (oneshot : type.kind = .oneshot) :
    onOneshotReq libs env server user hdr type payload = none ↔
      type = .authReq ∧ umanRegisterUser env.fresh server.uman hdr.token = none := by
  cases type <;> simp only [MessageType.kind, reduceCtorEq] at oneshot
  case authReq =>
    simp only [onOneshotReq, handleAuth, true_and]
    cases umanRegisterUser env.fresh server.uman hdr.token with
    | none => simp
    | some uman => simp
  case removeReq => simp [onOneshotReq]
  case mkdirReq => simp [onOneshotReq]

/-- When a message keeps the stream at its boundary: for every server, environment and
complete message, a connection left in the epoll set continues exactly behind the
message if and only if the condition holds. -/
theorem boundary_iff (libs : Externals) (env : Env) (server : Server)
    (header payload rest : List Byte) (sched : List (Option Nat)) (fin : SockEnd)
    (whole : header.length = sizeofMessageHdr)
    (complete : payload.length = (MessageHdr.decode header).length) :
    ((onReadable libs env server ⟨header ++ (payload ++ rest), sched, fin⟩).status = .kept →
      (onReadable libs env server ⟨header ++ (payload ++ rest), sched, fin⟩).sock.rx = rest) ↔
        BoundaryCondition env server (MessageHdr.decode header) := by
  obtain ⟨sched', handed⟩ := @onReadable_complete libs env server header payload rest sched fin whole
  rw [handed]
  generalize MessageHdr.decode header = hdr at complete
  have unread : payload ++ rest = rest ↔ hdr.length = 0 := by
    rw [← complete, List.length_eq_zero_iff, List.append_left_eq_self]
  simp only [onClientMessageReceived, BoundaryCondition]
  cases dispatch hdr with
  | abort => simp
  | refuse => simp
  | accept type =>
      simp only [Dispatch.accept.injEq, forall_eq']
      cases found : umanGetUser server.uman hdr.token with
      | none => simp [LosesItself, found]
      | some user =>
          cases kind : type.kind with
          | ignored =>
              have other : type ≠ .authReq ∧ type ≠ .removeReq ∧ type ≠ .mkdirReq := by
                refine ⟨?_, ?_, ?_⟩ <;> rintro rfl <;> cases kind
              simp [unread, LosesItself, PayloadRead, found, other]
          | stream =>
              simp [onStreamReq_not_kept user hdr type ⟨payload ++ rest, sched', fin⟩]
          | oneshot =>
              obtain ⟨received, sched'', read⟩ :=
                @recvOneshot_complete payload rest sched' fin (payloadLimit type user)
              rw [complete] at read
              simp only [read]
              cases handled : onOneshotReq libs env server user hdr type received with
              | none =>
                  have lost := (onOneshotReq_isNone kind).mp handled
                  simp [LosesItself, lost]
              | some next =>
                  have kept : ¬ LosesItself env server hdr type := by
                    rintro (missing | lost)
                    · cases found.symm.trans missing
                    · cases handled.symm.trans ((onOneshotReq_isNone kind).mpr lost)
                  have limit := @payloadLimit_any type user hdr.length
                  by_cases within : (payloadLimit type user).any (hdr.length ≤ ·) = true
                  · have read' : PayloadRead server hdr type := by
                      obtain ⟨asks, ⟨addr, rfl⟩, small⟩ := limit.mp within
                      exact ⟨asks, ⟨addr, found⟩, small⟩
                    simp [within, read']
                  · have unread' : ¬ PayloadRead server hdr type := by
                      rintro ⟨asks, ⟨addr, registered⟩, small⟩
                      cases found.symm.trans registered
                      exact within (limit.mpr ⟨asks, ⟨addr, rfl⟩, small⟩)
                    simp [within, unread, unread', kept]

/-- A header of a message with the given type and length, from a token that is not
registered. -/
def strangerHeader (type : MessageType) (length : Nat) : List Byte :=
  (MessageHdr.mk length type.toNat someToken (0, 0)).encode

/-- A refused `MKDIR_REQ` whose payload is the header of an `AUTH_REQ`: the connection
stays open, and the payload is what the event loop reads next. -/
theorem boundary_smuggled :
    let payload := strangerHeader .authReq 0
    let handled := onReadable libraries default (boot [] [])
      ⟨strangerHeader .mkdirReq 48 ++ (payload ++ []), [], .opened⟩
    handled.status = .kept ∧ handled.sock.rx = payload ∧ handled.sock.rx ≠ [] := by
  decide

/-- The server that has registered `someToken`. -/
def afterAuth : Server :=
  (onReadable libraries default (boot [] []) ⟨strangerHeader .authReq 0, [], .opened⟩).server

/-- The `MKDIR_REQ` of a registered user, read in pieces, keeps the boundary. -/
theorem boundary_iff_mkdir :
    (onReadable libraries default afterAuth
        ⟨strangerHeader .mkdirReq 2 ++ ((cstr "d" ++ [0]) ++ [1, 2, 3]), [some 5, none, some 0], .opened⟩).status = .kept ∧
      (onReadable libraries default afterAuth
        ⟨strangerHeader .mkdirReq 2 ++ ((cstr "d" ++ [0]) ++ [1, 2, 3]), [some 5, none, some 0], .opened⟩).sock.rx = [1, 2, 3] := by
  have kept : (onReadable libraries default afterAuth
      ⟨strangerHeader .mkdirReq 2 ++ ((cstr "d" ++ [0]) ++ [1, 2, 3]), [some 5, none, some 0], .opened⟩).status = .kept := by
    decide
  have named : dispatch (MessageHdr.decode (strangerHeader .mkdirReq 2)) = .accept .mkdirReq := by decide
  have read : PayloadRead afterAuth (MessageHdr.decode (strangerHeader .mkdirReq 2)) .mkdirReq :=
    ⟨.inr rfl, ⟨0, by decide⟩, by decide⟩
  refine ⟨kept, (boundary_iff libraries default afterAuth (strangerHeader .mkdirReq 2) (cstr "d" ++ [0]) [1, 2, 3]
    [some 5, none, some 0] .opened (by decide) (by decide)).mpr (fun type dispatched => ?_) kept⟩
  rw [named] at dispatched
  cases dispatched
  exact .inr (.inr (.inr read))

end MiniDropbox
