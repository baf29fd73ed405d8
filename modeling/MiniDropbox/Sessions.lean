/-
The sessions of a user.

A handler finds the session of a transfer by its type and file name, or makes one, which
a full table does not take, and a download keeps under whatever name is in the client's
`FileInfo` once `fileinfo_from_filename` has been over it (`Obtained`). Afterwards the
session is marked as interrupted, or removed by the name the handler knows. What the
table then says about the transfer (`Booked`) depends on how the session was obtained:

* `booked_interrupted_iff` — an interrupted transfer is booked if its session was found, or
  there was room and it got the right name;
* `booked_removed_iff` — a completed one also if there was no room;
* `not_booked_removed` — one that gave up and is removed all the same is not.
-/

import MiniDropbox.Confinement
import MiniDropbox.Lib.Keyed
import MiniDropbox.Registry
import MiniDropbox.UploadOutcome

namespace MiniDropbox

open Keyed

/-! ### The table -/

/-- What a session is found by. -/
def Session.key (s : Session) : SessionType × CStr := (s.type, s.fileInfo.filename)

theorem userGetSession_eq (user : User) (type : SessionType) (filename : CStr) :
    userGetSession user type filename = place Session.key user.sessions (type, filename) := by
  have same : Session.matches type filename = fun s => decide (s.key = (type, filename)) := by
    funext s
    simp [Session.matches, Session.key]
  rw [userGetSession, place, same]

/-- No two sessions have the same type and file name, and none is running. -/
structure Tidy (user : User) : Prop where
  distinct : Distinct Session.key user.sessions
  resting : ∀ s ∈ user.sessions, s.state ≠ .running

/-- A transfer that is over: what its session goes by, and the code it returned. -/
structure Outcome where
  key : SessionType × CStr
  code : Int
  deriving DecidableEq

/-- What the table says of a transfer: an interrupted one has exactly one session, which is
found under its name and interrupted, and a completed one has none. -/
structure Standing (user : User) (o : Outcome) : Prop where
  interrupted : o.code < 0 → ∃ s i, userGetSession user o.key.1 o.key.2 = some i ∧
    user.sessions[i]? = some s ∧ s.state = .interrupted ∧ under Session.key user.sessions o.key = [s]
  completed : ¬ o.code < 0 → under Session.key user.sessions o.key = []

/-- The table after a transfer: it is tidy and tells of the transfer, and nothing else has
changed. -/
structure Booked (before after : User) (o : Outcome) : Prop where
  tidy : Tidy after
  standing : Standing after o
  others : Apart Session.key o.key before.sessions after.sessions

/-- The session a handler works with: the one found, a new one under the name `stored`, or
none that the table has. The indices are the table from then on and the session's place. -/
inductive Obtained (user : User) (type : SessionType) (filename stored : CStr) : User → Option Nat → Prop
  | found {i : Nat} : userGetSession user type filename = some i →
      Obtained user type filename stored user (some i)
  | added {s : Session} : userGetSession user type filename = none →
      user.sessions.length < user.sessionsCapacity → s.key = (type, stored) → s.state ≠ .running →
      Obtained user type filename stored { user with sessions := user.sessions ++ [s] }
        (some user.sessions.length)
  | full : userGetSession user type filename = none → user.sessionsCapacity ≤ user.sessions.length →
      Obtained user type filename stored user none

/-- A session changed through the handler's pointer. -/
def User.mark (user : User) (place : Option Nat) (f : Session → Session) : User :=
  match place with
  | none => user
  | some i => { user with sessions := user.sessions.modify i f }

section Table

variable {user before w : User} {type : SessionType} {filename stored : CStr} {place : Option Nat}
  {f : Session → Session} {code : Int}

theorem under_of_missing (missing : userGetSession user type filename = none) :
    under Session.key user.sessions (type, filename) = [] := by
  rw [userGetSession_eq, place_eq_none_iff] at missing
  exact under_eq_nil_iff.mpr missing

theorem mem_modify {α : Type} {f : α → α} {l : List α} {i : Nat} {s : α} (mem : s ∈ l.modify i f) :
    s ∈ l ∨ ∃ t ∈ l, s = f t := by
  obtain ⟨j, at_j⟩ := List.getElem?_of_mem mem
  rw [List.getElem?_modify] at at_j
  obtain ⟨t, here, same⟩ := Option.map_eq_some_iff.mp at_j
  split_ifs at same
  · exact .inr ⟨t, List.mem_of_getElem? here, same.symm⟩
  · exact .inl (same ▸ List.mem_of_getElem? here)

/-- A mark does not move sessions. -/
theorem userGetSession_mark (keeps : ∀ s, (f s).key = s.key) :
    userGetSession (user.mark place f) type filename = userGetSession user type filename := by
  cases place with
  | none => rfl
  | some i =>
      refine userGetSession_modify fun s => ?_
      have key := Prod.mk.inj (keeps s)
      rw [Session.matches, Session.matches, key.1, key.2]

/-- A transfer stands as long as the sessions under its name are the same. -/
theorem Standing.of_under {o : Outcome} {after : User} (standing : Standing user o)
    (same : under Session.key after.sessions o.key = under Session.key user.sessions o.key) :
    Standing after o := by
  refine ⟨fun failed => ?_, fun done => by rw [same]; exact standing.completed done⟩
  obtain ⟨s, -, -, -, state, alone⟩ := standing.interrupted failed
  rw [← same] at alone
  obtain ⟨i, found, here⟩ := place_of_under alone
  refine ⟨s, i, ?_, here, state, alone⟩
  rw [userGetSession_eq]
  exact found

/-- A session under the right name that is marked is booked. -/
theorem booked_marked {i : Nat} (tidy : Tidy user) (found : userGetSession user type filename = some i)
    (keeps : ∀ s, (f s).key = s.key) (marks : ∀ s, (f s).state = .interrupted) (failed : code < 0) :
    Booked user (user.mark (some i) f) ⟨(type, filename), code⟩ := by
  rw [userGetSession_eq] at found
  obtain ⟨distinct, apart, s, -, here, at_i, alone⟩ := modified tidy.distinct found keeps
  refine ⟨⟨distinct, ?_⟩, ⟨fun _ => ⟨f s, i, ?_, at_i, marks s, alone⟩, fun done => absurd failed done⟩, apart⟩
  · intro t mem
    rcases mem_modify mem with old | ⟨t, -, rfl⟩
    · exact tidy.resting t old
    · rw [marks]
      nofun
  · rw [userGetSession_eq]
    exact here

/-- The user has the session. -/
def User.Has (user : User) (type : SessionType) (filename : CStr) : Prop :=
  ∃ i, userGetSession user type filename = some i

/-- The user's table takes one more session. -/
def User.Room (user : User) : Prop := user.sessions.length < user.sessionsCapacity

theorem has_eq_false (missing : userGetSession user type filename = none) : ¬ user.Has type filename := by
  rintro ⟨i, found⟩
  cases missing.symm.trans found

/-- A new session under the right name is found at the end of the table. -/
theorem obtained_added {s : Session} (tidy : Tidy user) (missing : userGetSession user type filename = none)
    (key : s.key = (type, filename)) (resting : s.state ≠ .running) :
    Tidy { user with sessions := user.sessions ++ [s] } ∧
      userGetSession { user with sessions := user.sessions ++ [s] } type filename =
        some user.sessions.length ∧
      Apart Session.key (type, filename) user.sessions (user.sessions ++ [s]) := by
  rw [userGetSession_eq, ← key] at missing
  obtain ⟨distinct, apart, found⟩ := added tidy.distinct missing
  rw [key] at apart found
  refine ⟨⟨distinct, fun t mem => ?_⟩, ?_, apart⟩
  · rcases List.mem_append.mp mem with old | new
    · exact tidy.resting t old
    · rw [List.mem_singleton.mp new]
      exact resting
  · rw [userGetSession_eq]
    exact found

/-- A new session under another name is not found. -/
theorem missing_added {s : Session} (missing : userGetSession user type filename = none)
    (key : s.key = (type, stored)) (other : stored ≠ filename) :
    userGetSession { user with sessions := user.sessions ++ [s] } type filename = none := by
  rw [userGetSession_eq, place_eq_none_iff] at missing ⊢
  intro t mem
  rcases List.mem_append.mp mem with old | new
  · exact missing t old
  · rw [List.mem_singleton.mp new, key]
    exact fun same => other (Prod.mk.inj same).2

theorem booked_trans {middle after : User} {o : Outcome}
    (apart : Apart Session.key o.key before.sessions middle.sessions)
    (booked : Booked middle after o) : Booked before after o :=
  { booked with others := apart.trans booked.others }

/-- An interrupted transfer, after its session has been marked. -/
theorem booked_interrupted_iff (tidy : Tidy user) (obtained : Obtained user type filename stored w place)
    (keeps : ∀ s, (f s).key = s.key) (marks : ∀ s, (f s).state = .interrupted) (failed : code < 0) :
    Booked user (w.mark place f) ⟨(type, filename), code⟩ ↔
      user.Has type filename ∨ user.Room ∧ stored = filename := by
  cases obtained with
  | found here => exact ⟨fun _ => .inl ⟨_, here⟩, fun _ => booked_marked tidy here keeps marks failed⟩
  | added missing room key resting =>
      constructor
      · intro booked
        refine .inr ⟨room, Classical.byContradiction fun other => ?_⟩
        obtain ⟨s, i, here, -⟩ := booked.standing.interrupted failed
        cases (missing_added missing key other).symm.trans ((userGetSession_mark keeps).symm.trans here)
      · rintro (has | ⟨-, rfl⟩)
        · exact absurd has (has_eq_false missing)
        · obtain ⟨tidy', found, apart⟩ := obtained_added tidy missing key resting
          exact booked_trans apart (booked_marked tidy' found keeps marks failed)
  | full missing none =>
      constructor
      · intro booked
        obtain ⟨s, i, here, -⟩ := booked.standing.interrupted failed
        cases missing.symm.trans here
      · rintro (has | ⟨room, -⟩)
        · exact absurd has (has_eq_false missing)
        · exact absurd room (Nat.not_lt.mpr none)

theorem userRemoveSession_of_some {i : Nat} (found : userGetSession user type filename = some i) :
    (userRemoveSession user type filename).1 = { user with sessions := user.sessions.eraseIdx i } := by
  rw [userRemoveSession, found]

theorem userRemoveSession_of_none (missing : userGetSession user type filename = none) :
    (userRemoveSession user type filename).1 = user := by
  rw [userRemoveSession, missing]

/-- A session that is found is gone after it has been removed. -/
theorem booked_erased {i : Nat} (tidy : Tidy user) (found : userGetSession user type filename = some i)
    (done : ¬ code < 0) : Booked user (userRemoveSession user type filename).1 ⟨(type, filename), code⟩ := by
  rw [userRemoveSession_of_some found]
  rw [userGetSession_eq] at found
  obtain ⟨distinct, apart, gone⟩ := erased tidy.distinct found
  exact ⟨⟨distinct, fun s mem => tidy.resting s (List.mem_of_mem_eraseIdx mem)⟩,
    ⟨fun failed => absurd failed done, fun _ => gone⟩, apart⟩

/-- A completed transfer, after its session has been removed. -/
theorem booked_removed_iff (tidy : Tidy user) (obtained : Obtained user type filename stored w place)
    (done : ¬ code < 0) : Booked user (userRemoveSession w type filename).1 ⟨(type, filename), code⟩ ↔
      user.Has type filename ∨ (user.Room → stored = filename) := by
  cases obtained with
  | found here => exact ⟨fun _ => .inl ⟨_, here⟩, fun _ => booked_erased tidy here done⟩
  | added missing room key resting =>
      constructor
      · intro booked
        refine .inr fun _ => Classical.byContradiction fun other => ?_
        -- the session of another name stays behind
        have apart := booked.others (type, stored) fun same => other (Prod.mk.inj same).2
        rw [userRemoveSession_of_none (missing_added missing key other), under_append] at apart
        simp [under, key] at apart
      · rintro (has | same)
        · exact absurd has (has_eq_false missing)
        · cases same room
          obtain ⟨tidy', found, apart⟩ := obtained_added tidy missing key resting
          exact booked_trans apart (booked_erased tidy' found done)
  | full missing none =>
      refine ⟨fun _ => .inr fun room => absurd room (Nat.not_lt.mpr none), fun _ => ?_⟩
      rw [userRemoveSession_of_none missing]
      exact ⟨tidy, ⟨fun failed => absurd failed done, fun _ => under_of_missing missing⟩, .refl⟩

/-- A transfer that is not completed is not booked after its session has been removed. -/
theorem not_booked_removed (tidy : Tidy user) (obtained : Obtained user type filename filename w place)
    (failed : code < 0) : ¬ Booked user (userRemoveSession w type filename).1 ⟨(type, filename), code⟩ := by
  have gone : userGetSession (userRemoveSession w type filename).1 type filename = none := by
    have erased : ∀ {v : User} {i : Nat}, Tidy v → userGetSession v type filename = some i →
        userGetSession (userRemoveSession v type filename).1 type filename = none := by
      intro v i tidy' found
      have done := (@booked_erased v type filename 0 i tidy' found (Int.lt_irrefl 0)).standing.completed (Int.lt_irrefl 0)
      rw [userGetSession_eq, place_eq_none_iff]
      exact under_eq_nil_iff.mp done
    cases obtained with
    | found here => exact erased tidy here
    | added missing room key resting =>
        obtain ⟨tidy', found, -⟩ := obtained_added tidy missing key resting
        exact erased tidy' found
    | full missing none => rwa [userRemoveSession_of_none missing]
  intro booked
  obtain ⟨s, i, here, -⟩ := booked.standing.interrupted failed
  cases gone.symm.trans here

/-- Removing the session takes away what has been marked in it. -/
theorem userRemoveSession_mark (found : userGetSession user type filename = place)
    (keeps : ∀ s, (f s).key = s.key) :
    (userRemoveSession (user.mark place f) type filename).1 = (userRemoveSession user type filename).1 := by
  cases place with
  | none => rfl
  | some i =>
      have here : userGetSession (user.mark (some i) f) type filename = some i :=
        (userGetSession_mark keeps).trans found
      rw [userRemoveSession_of_some found, userRemoveSession_of_some here]
      simp only [User.mark, List.eraseIdx_modify_of_eq]

theorem mark_mark {g : Session → Session} : (user.mark place f).mark place g = user.mark place (g ∘ f) := by
  cases place with
  | none => rfl
  | some i => simp only [User.mark, List.modify_modify_eq]

end Table

end MiniDropbox
