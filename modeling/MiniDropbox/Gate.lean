/-
The authorisation gate.

The dispatcher refuses a null token, and the user map yields nobody for a token that
was never put, whatever else lies in its bucket; each handler then sends an error
before it does anything else. So a message that does not come from a registered user
gets at most a fixed reply (`serve_stranger`), in every state a run leads to.
-/

import MiniDropbox.Descriptors
import MiniDropbox.Registry

namespace MiniDropbox

variable {libs : Externals} {server : Server} {r : Request}

/-- Nothing has come of a message but a closed socket and at most one reply, which is
fixed. -/
structure TurnedAway (libs : Externals) (server : Server) (r : Request) : Prop where
  unchanged : (r.serve libs server).server = server
  unopened : ∀ own d, (r.descriptors libs server own d).asked = d.asked
  replies : (r.serve libs server).events.length ≤ 1
  fixed : ∀ event ∈ (r.serve libs server).events,
    event = .sent .authFail [] ∨ event = sendError (cstr "user not found")

/-- The handlers turn away a message whose token yields no user. -/
theorem serve_stranger {type : MessageType} (accepted : dispatch r.hdr = .accept type)
    (other : type ≠ .authReq) (nobody : umanGetUser server.uman r.hdr.token = some none) :
    TurnedAway libs server r := by
  have opens : ∀ d, handlerFds libs r.env server none r.hdr type r.sock d = d := by
    intro d
    cases type <;> rfl
  have served : r.serve libs server = onClientMessageReceived libs r.env server r.hdr r.sock := rfl
  simp only [onClientMessageReceived, accepted, nobody] at served
  have answered : (r.serve libs server).server = server ∧ ((r.serve libs server).events = [] ∨
      (r.serve libs server).events = [sendError (cstr "user not found")]) := by
    rw [served]
    cases type
    case authReq => exact absurd rfl other
    all_goals simp [MessageType.kind, onStreamReq, onOneshotReq, handleUpload, uploadPrepare, handleDownload,
      downloadPrepare, handleList, handleRemove, handleMkdir]
  refine ⟨answered.1, ?_, ?_, ?_⟩
  · intro own d
    simp only [Request.descriptors, accepted, nobody, opens]
    split_ifs <;> rfl
  · rcases answered.2 with nothing | error
    · rw [nothing]
      exact Nat.zero_le _
    · rw [error]
      exact Nat.le_refl _
  · intro event sent
    rcases answered.2 with nothing | error
    · rw [nothing] at sent
      cases sent
    · rw [error] at sent
      exact .inr (List.mem_singleton.mp sent)

/-- A message that is no `AUTH_REQ` is turned away if its token is null or is not among
those put into the map. -/
theorem Registry.turnedAway {tokens : List Token} (registry : Registry server.uman tokens)
    (notAuth : r.hdr.type ≠ MessageType.authReq.toNat)
    (unknown : r.hdr.token = Token.null ∨ r.hdr.token ∉ tokens) : TurnedAway libs server r := by
  cases dispatched : dispatch r.hdr with
  | abort =>
      have served : r.serve libs server = ⟨server, r.sock, [], .aborted⟩ := by
        simp [Request.serve, onClientMessageReceived, dispatched]
      refine ⟨by rw [served], fun own d => ?_, by simp [served], by simp [served]⟩
      simp [Request.descriptors, dispatched, served]
  | refuse =>
      have served : r.serve libs server = ⟨server, r.sock, [.sent .authFail []], .closed⟩ := by
        simp [Request.serve, onClientMessageReceived, dispatched]
      refine ⟨by rw [served], fun own d => ?_, by simp [served], by simp [served]⟩
      simp [Request.descriptors, dispatched, served, Descriptors.close]
  | accept type =>
      obtain ⟨known, notNull⟩ : MessageType.ofNat? r.hdr.type = some type ∧
          ¬ (type ≠ .authReq ∧ r.hdr.token = Token.null) := by
        unfold dispatch at dispatched
        split at dispatched
        · cases dispatched
        · rename_i found
          split_ifs at dispatched with null
          cases dispatched
          exact ⟨found, null⟩
      have other : type ≠ .authReq := by
        rintro rfl
        exact notAuth (MessageType.toNat_of_ofNat? known).symm
      have unregistered : r.hdr.token ∉ tokens := unknown.resolve_left fun null => notNull ⟨other, null⟩
      exact serve_stranger dispatched other (registry.lookup_of_not_mem unregistered)

/-- The gate holds in every state a run leads to, from any tree and any users found in the
storage when the server started. -/
theorem stranger_turnedAway (libs : Externals) (fs : Fs) (stored : List Token) (uman : UserManager)
    (started : umanRegisterAll umanEmpty stored = some uman) (rs : List Request)
    (nulls : ∀ r ∈ rs, r.env.fresh = none) (r : Request)
    (notAuth : r.hdr.type ≠ MessageType.authReq.toNat)
    (unknown : r.hdr.token = Token.null ∨ r.hdr.token ∉ stored ++ registered libs ⟨fs, uman⟩ rs) :
    TurnedAway libs (runState libs ⟨fs, uman⟩ rs) r :=
  (registry_run (registry_of_registerAll started) nulls).turnedAway notAuth unknown

/-- A user of the first of two colliding tokens is known, and a listing for the second is
turned away. -/
theorem stranger_turnedAway_colliding :
    TurnedAway libraries (runState libraries (boot [] []) [request .authReq collidingTokens[0] [] []])
      (request .listReq collidingTokens[1] [0] []) := by
  have others : collidingTokens[1] ∉ [] ++ registered libraries ⟨(boot [] []).fs, umanEmpty⟩
      [request .authReq collidingTokens[0] [] []] := by
    decide
  refine stranger_turnedAway libraries (boot [] []).fs [] umanEmpty rfl _ ?_ _ (by decide) (.inr others)
  intro r mem
  rw [List.mem_singleton.mp mem]
  rfl

end MiniDropbox
