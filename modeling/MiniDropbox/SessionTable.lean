/-
The array of sessions (`user.c`).

`user_init` allocates ten slots and fills none. The model keeps the memory `sessions`
points into, with what lies behind the ten slots, and each call records the indices it
reads and writes. A call is `none` when it would follow a null pointer.

* `runTable_refines` — on every sequence of calls the slots in use hold what a bounded
  list holds, and the calls answer what the list answers.
* `sessionTable_iff` — an index behind the array is used exactly when a session is
  removed from a full table: the swaps of `user_remove_session` look one slot ahead.
-/

import MiniDropbox.Lib.Slots
import MiniDropbox.User

namespace MiniDropbox

/-- Mirrors the fields of `User` that hold its sessions. A slot of the memory holds a
pointer, `none` for `NULL`. -/
structure SessionTable where
  sessions : Nat → Option Session
  sessionsCount : Nat
  sessionsCapacity : Nat

/-- The table `user_init` makes of freshly allocated memory. -/
def SessionTable.init (memory : Nat → Option Session) : SessionTable := ⟨memory, 0, 10⟩

/-- The calls on a table. -/
inductive SessionCall where
  | add (session : Session)
  | get (type : SessionType) (filename : CStr)
  | remove (type : SessionType) (filename : CStr)

/-- What a call returns. -/
inductive SessionAnswer where
  | ret (code : Int)
  | found (session : Option Session)
  deriving DecidableEq

namespace SessionTable

/-- Mirrors `user_add_session`. -/
def addSession (self : SessionTable) (session : Session) : SessionTable × Int × List Nat :=
  if self.sessionsCount ≥ self.sessionsCapacity then (self, -1, [])
  else
    ({ self with
      sessions := Function.update self.sessions self.sessionsCount (some session)
      sessionsCount := self.sessionsCount + 1 }, 0, [self.sessionsCount])

/-- The search of `user_get_session` and `user_remove_session` through `left` slots from
`i` on: the index and the session it stops at, and the indices read. -/
def search (sessions : Nat → Option Session) (type : SessionType) (filename : CStr) :
    Nat → Nat → Option (Option (Nat × Session) × List Nat)
  | 0, _ => some (none, [])
  | left + 1, i =>
      match sessions i with
      | none => none
      | some s =>
          if s.matches type filename then some (some (i, s), [i])
          else (search sessions type filename left (i + 1)).map fun out => (out.1, i :: out.2)

/-- Mirrors `user_get_session`. -/
def getSession (self : SessionTable) (type : SessionType) (filename : CStr) :
    Option (Option Session × List Nat) :=
  (search self.sessions type filename self.sessionsCount 0).map fun out => (out.1.map Prod.snd, out.2)

/-- The indices of the inner loop of `user_remove_session`, from `j` on: each round reads
and writes a slot and the next one. -/
def swapped (steps j : Nat) : List Nat := (List.range' j steps).flatMap fun j => [j, j + 1, j, j + 1]

/-- Mirrors `user_remove_session`. -/
def removeSession (self : SessionTable) (type : SessionType) (filename : CStr) :
    Option (SessionTable × Int × List Nat) :=
  (search self.sessions type filename self.sessionsCount 0).map fun out =>
    match out.1 with
    | none => (self, -1, out.2)
    | some (i, _) =>
        ({ self with
          sessions := Slots.bubble (self.sessionsCount - i) (Function.update self.sessions i none) i
          sessionsCount := self.sessionsCount - 1 },
          0, out.2 ++ i :: swapped (self.sessionsCount - i) i)

end SessionTable

/-- A call on the table, with the indices it uses. -/
def SessionCall.onTable (self : SessionTable) :
    SessionCall → Option (SessionTable × SessionAnswer × List Nat)
  | .add session =>
      let out := self.addSession session
      some (out.1, .ret out.2.1, out.2.2)
  | .get type filename => (self.getSession type filename).map fun out => (self, .found out.1, out.2)
  | .remove type filename =>
      (self.removeSession type filename).map fun out => (out.1, .ret out.2.1, out.2.2)

/-- A sequence of calls: the table after it, the answers, and the indices used. -/
def runTable (self : SessionTable) :
    List SessionCall → Option (SessionTable × List SessionAnswer × List Nat)
  | [] => some (self, [], [])
  | call :: calls =>
      (call.onTable self).bind fun out =>
        (runTable out.1 calls).map fun rest => (rest.1, out.2.1 :: rest.2.1, out.2.2 ++ rest.2.2)

/-! ### The bounded list -/

/-- A call on a list of at most `capacity` sessions. -/
def SessionCall.onList (capacity : Nat) (live : List Session) : SessionCall → List Session × SessionAnswer
  | .add session =>
      if live.length < capacity then (live ++ [session], .ret 0) else (live, .ret (-1))
  | .get type filename => (live, .found (live.find? (Session.matches type filename)))
  | .remove type filename =>
      if live.any (Session.matches type filename) then
        (live.eraseP (Session.matches type filename), .ret 0)
      else (live, .ret (-1))

def runList (capacity : Nat) (live : List Session) : List SessionCall → List Session × List SessionAnswer
  | [] => (live, [])
  | call :: calls =>
      let out := call.onList capacity live
      let rest := runList capacity out.1 calls
      (rest.1, out.2 :: rest.2)

/-- A removal, in terms of the place of the session. -/
theorem onList_remove (capacity : Nat) (live : List Session) (type : SessionType) (filename : CStr) :
    (SessionCall.remove type filename).onList capacity live =
      match live.findIdx? (Session.matches type filename) with
      | none => (live, .ret (-1))
      | some i => (live.eraseIdx i, .ret 0) := by
  simp only [SessionCall.onList]
  rw [← List.findIdx?_isSome, List.eraseP_eq_eraseIdx]
  cases live.findIdx? (Session.matches type filename) with
  | none => rfl
  | some i => rfl

/-! The operations on a `User` are those of the list. -/

theorem userAddSession_onList (user : User) (session : Session) :
    ((userAddSession user session).1.sessions, .ret (userAddSession user session).2) =
      (SessionCall.add session).onList user.sessionsCapacity user.sessions := by
  by_cases full : user.sessions.length ≥ user.sessionsCapacity
  · simp only [userAddSession, SessionCall.onList, if_pos full, if_neg (Nat.not_lt_of_le full)]
  · simp only [userAddSession, SessionCall.onList, if_neg full, if_pos (Nat.lt_of_not_le full)]

theorem userGetSession_onList (user : User) (type : SessionType) (filename : CStr) :
    (user.sessions, .found ((userGetSession user type filename).bind (user.sessions[·]?))) =
      (SessionCall.get type filename).onList user.sessionsCapacity user.sessions := by
  rw [SessionCall.onList, userGetSession, ← List.find?_eq_bind_findIdx?_getElem?]

theorem userRemoveSession_onList (user : User) (type : SessionType) (filename : CStr) :
    ((userRemoveSession user type filename).1.sessions, .ret (userRemoveSession user type filename).2) =
      (SessionCall.remove type filename).onList user.sessionsCapacity user.sessions := by
  rw [onList_remove, userRemoveSession, userGetSession]
  cases user.sessions.findIdx? (Session.matches type filename) with
  | none => rfl
  | some i => rfl

/-! ### The table holds the list -/

/-- The slots in use hold a list of sessions, and there are not more of them than slots. -/
structure SessionTable.Holds (table : SessionTable) (live : List Session) : Prop where
  slots : Slots.held table.sessions 0 table.sessionsCount = live.map some
  bounded : table.sessionsCount ≤ table.sessionsCapacity

theorem SessionTable.holds_init (memory : Nat → Option Session) : (init memory).Holds [] where
  slots := rfl
  bounded := Nat.zero_le 10

section Table

variable {table : SessionTable} {live : List Session} {type : SessionType} {filename : CStr}

theorem SessionTable.Holds.count (holds : table.Holds live) : table.sessionsCount = live.length := by
  have lengths := congrArg List.length holds.slots
  rwa [Slots.length_held, List.length_map] at lengths

/-- The search finds the first session that matches, and reads no further than the last
slot in use. -/
theorem SessionTable.search_eq {sessions : Nat → Option Session} {i : Nat}
    (slots : Slots.held sessions i live.length = live.map some) :
    ∃ touched, search sessions type filename live.length i =
        some ((live.findIdx? (Session.matches type filename)).bind fun k => live[k]?.map fun s => (i + k, s),
          touched) ∧
      ∀ x ∈ touched, x < i + live.length := by
  induction live generalizing i with
  | nil => exact ⟨[], rfl, List.forall_mem_nil _⟩
  | cons s live ih =>
      rw [List.length_cons, Slots.held_succ, List.map_cons, List.cons.injEq] at slots
      rw [List.length_cons, search, slots.1]
      dsimp only
      by_cases hit : s.matches type filename = true
      · rw [if_pos hit, List.findIdx?_cons, if_pos hit]
        exact ⟨[i], rfl, by simp⟩
      · obtain ⟨touched, searched, inside⟩ := ih slots.2
        rw [if_neg hit, List.findIdx?_cons, if_neg hit, searched]
        refine ⟨i :: touched, ?_, ?_⟩
        · cases live.findIdx? (Session.matches type filename) with
          | none => rfl
          | some k => simp [Nat.add_assoc, Nat.add_comm 1 k]
        · intro x mem
          rcases List.mem_cons.mp mem with rfl | later
          · omega
          · have := inside x later
            omega

theorem SessionTable.Holds.search (holds : table.Holds live) (type : SessionType) (filename : CStr) :
    ∃ touched, SessionTable.search table.sessions type filename table.sessionsCount 0 =
        some ((live.findIdx? (Session.matches type filename)).bind fun k => live[k]?.map fun s => (k, s),
          touched) ∧
      ∀ x ∈ touched, x < table.sessionsCount := by
  have slots := holds.slots
  rw [holds.count] at slots
  obtain ⟨touched, searched, inside⟩ := @SessionTable.search_eq live type filename table.sessions 0 slots
  simp only [Nat.zero_add] at searched inside
  rw [holds.count]
  exact ⟨touched, searched, inside⟩

/-- The swaps use the slots from the first one to the one behind the last. -/
theorem SessionTable.mem_swapped {steps j x : Nat} (moves : 0 < steps) :
    x ∈ swapped steps j ↔ j ≤ x ∧ x ≤ j + steps := by
  simp only [swapped, List.mem_flatMap, List.mem_range'_1, List.mem_cons, List.not_mem_nil, or_false]
  constructor
  · rintro ⟨k, ⟨above, below⟩, rfl | rfl | rfl | rfl⟩ <;> omega
  · rintro ⟨above, below⟩
    by_cases last : x = j + steps
    · exact ⟨x - 1, by omega, by omega⟩
    · exact ⟨x, by omega, .inl rfl⟩

/-- The call removes a session from a full table. -/
def SessionCall.Overruns (capacity : Nat) (live : List Session) : SessionCall → Prop
  | .remove type filename => live.length = capacity ∧ ∃ s ∈ live, s.matches type filename = true
  | _ => False

/-- What one call does: the table goes on holding the list, and an index behind the
array is used exactly by a removal from a full table. -/
theorem SessionTable.Holds.onTable (holds : table.Holds live) (call : SessionCall) :
    ∃ next touched,
      call.onTable table = some (next, (call.onList table.sessionsCapacity live).2, touched) ∧
      next.Holds (call.onList table.sessionsCapacity live).1 ∧
      next.sessionsCapacity = table.sessionsCapacity ∧
      ((∀ i ∈ touched, i < table.sessionsCapacity) ↔ ¬ call.Overruns table.sessionsCapacity live) := by
  have bounded := holds.bounded
  cases call with
  | add session =>
      simp only [SessionCall.onTable, addSession, SessionCall.onList, SessionCall.Overruns]
      by_cases full : table.sessionsCount ≥ table.sessionsCapacity
      · rw [if_pos full, if_neg (by rw [← holds.count]; exact Nat.not_lt_of_le full)]
        exact ⟨table, [], rfl, holds, rfl, by simp⟩
      · rw [if_neg full, if_pos (by rw [← holds.count]; exact Nat.lt_of_not_le full)]
        refine ⟨_, _, rfl, ⟨?_, Nat.lt_of_not_le full⟩, rfl, by simpa using full⟩
        rw [Slots.held_snoc, holds.slots, List.map_append]
        rfl
  | get type filename =>
      obtain ⟨touched, searched, inside⟩ := holds.search type filename
      refine ⟨table, touched, ?_, holds, rfl, iff_of_true (fun i mem => ?_) not_false⟩
      · simp only [SessionCall.onTable, getSession, searched, SessionCall.onList, Option.map_some,
          List.find?_eq_bind_findIdx?_getElem?]
        cases found : live.findIdx? (Session.matches type filename) with
        | none => rfl
        | some k => cases there : live[k]? <;> simp [there]
      · exact Nat.lt_of_lt_of_le (inside i mem) bounded
  | remove type filename =>
      obtain ⟨touched, searched, inside⟩ := holds.search type filename
      rw [onList_remove]
      simp only [SessionCall.onTable, removeSession, searched, Option.map_some, SessionCall.Overruns]
      cases found : live.findIdx? (Session.matches type filename) with
      | none =>
          refine ⟨table, touched, rfl, holds, rfl, iff_of_true (fun i mem => ?_) ?_⟩
          · exact Nat.lt_of_lt_of_le (inside i mem) bounded
          · rintro ⟨-, s, mem, hit⟩
            rw [List.findIdx?_eq_none_iff.mp found s mem] at hit
            cases hit
      | some i =>
          obtain ⟨below, hit, -⟩ := List.findIdx?_eq_some_iff_getElem.mp found
          have within : i < table.sessionsCount := by rw [holds.count]; exact below
          simp only [Option.bind_some, List.getElem?_eq_getElem below, Option.map_some]
          refine ⟨_, _, rfl, ⟨?_, ?_⟩, rfl, ?_⟩
          · rw [Slots.held_bubble _ _ within, holds.slots, List.eraseIdx_map]
          · exact Nat.le_trans (Nat.sub_le _ _) bounded
          · have there : ∃ s ∈ live, s.matches type filename = true := ⟨_, List.getElem_mem below, hit⟩
            have last : table.sessionsCount ∈ swapped (table.sessionsCount - i) i := by
              rw [mem_swapped (by omega)]
              omega
            constructor
            · rintro indices ⟨full, -⟩
              rw [← holds.count] at full
              have := indices _ (List.mem_append_right _ (List.mem_cons_of_mem _ last))
              omega
            · intro quiet x mem
              have room : table.sessionsCount < table.sessionsCapacity :=
                Nat.lt_of_le_of_ne bounded fun full => quiet ⟨by rw [← holds.count]; exact full, there⟩
              rcases List.mem_append.mp mem with read | moved
              · exact Nat.lt_trans (inside x read) room
              · rcases List.mem_cons.mp moved with rfl | passed
                · omega
                · rw [mem_swapped (by omega)] at passed
                  omega

end Table

/-! ### Sequences of calls -/

/-- Some call of the sequence removes a session from a full table. -/
def RemovesFull (capacity : Nat) (live : List Session) (calls : List SessionCall) : Prop :=
  ∃ before call, before ++ [call] <+: calls ∧ call.Overruns capacity (runList capacity live before).1

theorem removesFull_cons {capacity : Nat} {live : List Session} {call : SessionCall}
    {calls : List SessionCall} : RemovesFull capacity live (call :: calls) ↔
      call.Overruns capacity live ∨ RemovesFull capacity (call.onList capacity live).1 calls := by
  constructor
  · rintro ⟨before, last, split, overruns⟩
    cases before with
    | nil =>
        rw [List.nil_append, List.cons_prefix_cons] at split
        obtain ⟨rfl, -⟩ := split
        exact .inl overruns
    | cons first before =>
        rw [List.cons_append, List.cons_prefix_cons] at split
        obtain ⟨rfl, split⟩ := split
        exact .inr ⟨before, last, split, overruns⟩
  · rintro (overruns | ⟨before, last, split, overruns⟩)
    · exact ⟨[], call, by simp, overruns⟩
    · exact ⟨call :: before, last, by rw [List.cons_append, List.cons_prefix_cons]; exact ⟨rfl, split⟩, overruns⟩

/-- On every sequence of calls the table holds what the list holds and answers what the
list answers, and stays within the array unless a session is removed from a full table. -/
theorem runTable_refines {table : SessionTable} {live : List Session} (holds : table.Holds live)
    (calls : List SessionCall) :
    ∃ final touched,
      runTable table calls = some (final, (runList table.sessionsCapacity live calls).2, touched) ∧
      final.Holds (runList table.sessionsCapacity live calls).1 ∧
      final.sessionsCapacity = table.sessionsCapacity ∧
      ((∀ i ∈ touched, i < table.sessionsCapacity) ↔ ¬ RemovesFull table.sessionsCapacity live calls) := by
  induction calls generalizing table live with
  | nil =>
      refine ⟨table, [], rfl, holds, rfl, iff_of_true (List.forall_mem_nil _) ?_⟩
      rintro ⟨before, call, split, -⟩
      exact List.append_ne_nil_of_right_ne_nil _ (List.cons_ne_nil _ _) (List.prefix_nil.mp split)
  | cons call calls ih =>
      obtain ⟨next, used, stepped, kept, capacity, within⟩ := holds.onTable call
      obtain ⟨final, later, ran, ends, capacity', within'⟩ := ih kept
      rw [capacity] at ran ends capacity' within'
      refine ⟨final, used ++ later, ?_, ends, capacity', ?_⟩
      · rw [runTable, stepped, Option.bind_some, ran]
        rfl
      · rw [List.forall_mem_append, within, within', removesFull_cons, not_or]

/-- At every point of the sequence the count lies between zero and the capacity, every
index used so far lies in the array, and the live sessions and the answers are those of a
list of at most ten sessions. -/
def KeepsTable (memory : Nat → Option Session) (calls : List SessionCall) : Prop :=
  ∀ before, before <+: calls → ∃ table touched,
    runTable (.init memory) before = some (table, (runList 10 [] before).2, touched) ∧
      table.Holds (runList 10 [] before).1 ∧ ∀ i ∈ touched, i < table.sessionsCapacity

theorem removesFull_mono {capacity : Nat} {live : List Session} {before calls : List SessionCall}
    (split : before <+: calls) (overrun : RemovesFull capacity live before) :
    RemovesFull capacity live calls := by
  obtain ⟨front, call, within, overruns⟩ := overrun
  exact ⟨front, call, within.trans split, overruns⟩

/-- The calls keep to the table exactly when none removes a session from a full one. -/
theorem sessionTable_iff (memory : Nat → Option Session) (calls : List SessionCall) :
    KeepsTable memory calls ↔ ¬ RemovesFull 10 [] calls := by
  constructor
  · intro keeps
    obtain ⟨table, touched, ran, -, within⟩ := keeps calls List.prefix_rfl
    obtain ⟨final, touched', ran', -, capacity, exact_when⟩ :=
      runTable_refines (SessionTable.holds_init memory) calls
    cases ran.symm.trans ran'
    rw [capacity] at within
    exact exact_when.mp within
  · intro quiet before split
    obtain ⟨final, touched, ran, holds, capacity, exact_when⟩ :=
      runTable_refines (SessionTable.holds_init memory) before
    refine ⟨final, touched, ran, holds, ?_⟩
    rw [capacity]
    exact exact_when.mpr fun overrun => quiet (removesFull_mono split overrun)

/-- An upload of the file of a user with a name of one byte. -/
def namedSession (name : Byte) : Session := sessionInit ⟨0, 0, ⟨List.replicate 32 0, length_zeroed⟩, [name]⟩ .upload

/-- Ten sessions, and the first one removed. -/
def elevenCalls : List SessionCall :=
  [1, 2, 3, 4, 5, 6, 7, 8, 9, 10].map (fun name => .add (namedSession name)) ++ [.remove .upload [1]]

/-- Removing a session from a full table uses the slot behind the array. -/
theorem sessionTable_overrun : ¬ KeepsTable (fun _ => none) elevenCalls := by
  intro keeps
  obtain ⟨table, touched, ran, -, within⟩ := keeps elevenCalls List.prefix_rfl
  have used : (runTable (.init fun _ => none) elevenCalls).map (fun out => (out.2.2.contains 10, out.1.sessionsCapacity)) =
      some (true, 10) := by decide
  rw [ran, Option.map_some, Option.some.injEq, Prod.mk.injEq] at used
  have inside := within 10 (List.contains_iff_mem.mp used.1)
  rw [used.2] at inside
  exact Nat.lt_irrefl 10 inside

end MiniDropbox
