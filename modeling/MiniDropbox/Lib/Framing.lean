/-
Reading records from a byte stream that arrives in pieces.

A `Reader` asks, stage by stage, for a number of bytes; when they are there it goes
on, and when the stream runs dry it gives the stage up and forgets what it has read
of it. `Decodes` is what a stream means when it is there as a whole. On a stream in
pieces, a run that never gives up a stage while there is something read or to come
decodes the stream as a whole (`decodes_of_clean`) and forgets nothing
(`forgot_of_clean`); a run with nothing to come always does, and it ends
(`atOnce_endsIn`).
-/

import Mathlib.Data.List.Basic
import MiniDropbox.Lib.Transition

namespace Framing

open Transition

variable {β σ : Type}

/-- A reader of records. `need` is how many bytes the stage asks for, 0 when it reads
no more; a stage that `polls` begins only when there is something to read; `feed`
takes the bytes of the stage, and `starve` is the stage given up. -/
structure Reader (β σ : Type) where
  need : σ → Nat
  polls : σ → Bool
  feed : σ → List β → σ
  starve : σ → σ
  polls_starve : ∀ s, polls (starve s) = true ∨ need (starve s) = 0

/-- The reader and its stream: what it has read of the stage, what has arrived, what is
to come, and what it has forgotten. -/
structure State (β σ : Type) where
  app : σ
  got : List β
  rx : List β
  todo : List β
  forgot : List β

namespace Reader

variable (R : Reader β σ)

/-- A stream of which nothing has arrived. -/
def fresh (app : σ) (stream : List β) : State β σ := ⟨app, [], [], stream, []⟩

/-- A stream that is there as a whole. -/
def whole (app : σ) (stream : List β) : State β σ := ⟨app, [], stream, [], []⟩

/-- The reader waits for something to read, outside of any stage. -/
def Waits (app : σ) (got : List β) : Prop := R.polls app = true ∧ got = []

/-- A segment arrives. -/
inductive Arrive : State β σ → State β σ → Prop
  | mk (s : State β σ) (k : Nat) (coming : s.todo ≠ []) :
      Arrive s { s with rx := s.rx ++ s.todo.take (k + 1), todo := s.todo.drop (k + 1) }

/-- What one call reads, when it is allowed at most `k + 1` bytes. -/
def taken (s : State β σ) (k : Nat) : Nat := min (k + 1) (min s.rx.length (R.need s.app - s.got.length))

/-- The state after a call that has read `n` bytes. -/
def read (s : State β σ) (n : Nat) : State β σ :=
  if (s.got ++ s.rx.take n).length = R.need s.app then
    { s with app := R.feed s.app (s.got ++ s.rx.take n), got := [], rx := s.rx.drop n }
  else { s with got := s.got ++ s.rx.take n, rx := s.rx.drop n }

/-- A call reads some of the bytes that are there. -/
inductive Read : State β σ → State β σ → Prop
  | mk (s : State β σ) (k : Nat) (asks : 0 < R.need s.app) (there : s.rx ≠ []) :
      Read s (R.read s (R.taken s k))

/-- A call finds nothing, and the stage is given up. -/
inductive Dry : State β σ → State β σ → Prop
  | mk (s : State β σ) (asks : 0 < R.need s.app) (empty : s.rx = []) (inside : ¬ R.Waits s.app s.got) :
      Dry s { s with app := R.starve s.app, got := [], forgot := s.forgot ++ s.got }

/-- One step of the reader or of its stream. -/
def Step (s t : State β σ) : Prop := Arrive s t ∨ R.Read s t ∨ R.Dry s t

/-- A step that gives up a stage only when nothing of it is read and nothing to come. -/
def Clean (s t : State β σ) : Prop :=
  Arrive s t ∨ R.Read s t ∨ R.Dry s t ∧ s.got = [] ∧ s.todo = []

/-- The stream has arrived, and the reader can do nothing more with it. -/
def Quiet (s : State β σ) : Prop :=
  s.todo = [] ∧ (R.need s.app = 0 ∨ s.rx = [] ∧ R.Waits s.app s.got)

/-- What a stream means to the reader when all of it is there. -/
inductive Decodes : σ → List β → σ → Prop
  | halt {app : σ} {stream : List β} (stops : R.need app = 0) : Decodes app stream app
  | feed {app last : σ} {stream : List β} (asks : 0 < R.need app) (enough : R.need app ≤ stream.length)
      (rest : Decodes (R.feed app (stream.take (R.need app))) (stream.drop (R.need app)) last) :
      Decodes app stream last
  | wait {app : σ} (asks : 0 < R.need app) (polls : R.polls app = true) : Decodes app [] app
  | starve {app : σ} {stream : List β} (short : stream.length < R.need app)
      (inside : ¬ R.Waits app stream) : Decodes app stream (R.starve app)

variable {R} {app app' last : σ} {stream : List β} {s t : State β σ}

/-- The meaning of a stream is unique. -/
theorem Decodes.unique (first : R.Decodes app stream last) (second : R.Decodes app stream app') :
    last = app' := by
  induction first with
  | halt stops =>
      cases second with
      | halt => rfl
      | feed asks => omega
      | wait asks => rfl
      | starve short => omega
  | feed asks enough rest ih =>
      cases second with
      | halt stops => omega
      | feed asks' enough' rest' => exact ih rest'
      | wait asks' =>
          rw [List.length_nil] at enough
          omega
      | starve short => omega
  | wait asks polls =>
      cases second with
      | halt stops => rfl
      | feed asks' enough' =>
          rw [List.length_nil] at enough'
          omega
      | wait => rfl
      | starve short inside => exact absurd ⟨polls, rfl⟩ inside
  | starve short inside =>
      cases second with
      | halt stops => omega
      | feed asks enough => omega
      | wait asks polls => exact absurd ⟨polls, rfl⟩ inside
      | starve => rfl

/-- Every stream has a meaning. -/
theorem exists_decodes (R : Reader β σ) (app : σ) (stream : List β) : ∃ last, R.Decodes app stream last := by
  induction size : stream.length using Nat.strongRecOn generalizing app stream with
  | ind size' ih =>
      by_cases stops : R.need app = 0
      · exact ⟨app, .halt stops⟩
      have asks : 0 < R.need app := Nat.pos_of_ne_zero stops
      by_cases enough : R.need app ≤ stream.length
      · obtain ⟨last, rest⟩ := ih (stream.drop (R.need app)).length
          (by rw [List.length_drop]; omega)
          (R.feed app (stream.take (R.need app))) (stream.drop (R.need app)) rfl
        exact ⟨last, .feed asks enough rest⟩
      · by_cases waits : R.Waits app stream
        · obtain ⟨polls, rfl⟩ := waits
          exact ⟨app, .wait asks polls⟩
        · exact ⟨R.starve app, .starve (Nat.lt_of_not_le enough) waits⟩

/-- A relation that every stage keeps holds between the ends. -/
theorem Decodes.related (le : σ → σ → Prop) (refl : ∀ s, le s s)
    (trans : ∀ {s t u}, le s t → le t u → le s u) (feed : ∀ s bytes, le s (R.feed s bytes))
    (starve : ∀ s, le s (R.starve s)) (decodes : R.Decodes app stream last) : le app last := by
  induction decodes with
  | halt => exact refl _
  | feed _ _ _ ih => exact trans (feed _ _) ih
  | wait => exact refl _
  | starve => exact starve _

/-! ### Runs -/

/-- Within a stage less is read than it asks for. -/
def Within (R : Reader β σ) (s : State β σ) : Prop := s.got = [] ∨ s.got.length < R.need s.app

/-- The rest of the stream means what the stream means. -/
structure Agrees (R : Reader β σ) (last : σ) (s : State β σ) : Prop where
  within : R.Within s
  meaning : R.Decodes s.app (s.got ++ (s.rx ++ s.todo)) last

theorem Agrees.arrive (agrees : R.Agrees last s) (step : Arrive s t) : R.Agrees last t := by
  obtain ⟨k, coming⟩ := step
  refine ⟨agrees.within, ?_⟩
  have same : s.rx ++ s.todo.take (k + 1) ++ s.todo.drop (k + 1) = s.rx ++ s.todo := by
    rw [List.append_assoc, List.take_append_drop]
  rw [same]
  exact agrees.meaning

theorem taken_bounds (within : R.Within s) (asks : 0 < R.need s.app) (there : s.rx ≠ []) (k : Nat) :
    0 < R.taken s k ∧ R.taken s k ≤ s.rx.length ∧ s.got.length + R.taken s k ≤ R.need s.app := by
  have positive := List.length_pos_iff.mpr there
  have room : s.got.length < R.need s.app := by
    rcases within with nothing | room
    · rw [nothing]
      exact asks
    · exact room
  unfold taken
  omega

theorem Agrees.read (agrees : R.Agrees last s) (step : R.Read s t) : R.Agrees last t := by
  obtain ⟨k, asks, there⟩ := step
  obtain ⟨-, available, room⟩ := taken_bounds agrees.within asks there k
  generalize R.taken s k = n at available room
  have length : (s.got ++ s.rx.take n).length = s.got.length + n := by
    rw [List.length_append, List.length_take, Nat.min_eq_left available]
  have same : s.got ++ (s.rx ++ s.todo) = (s.got ++ s.rx.take n) ++ (s.rx.drop n ++ s.todo) := by
    rw [List.append_assoc, ← List.append_assoc (s.rx.take n), List.take_append_drop]
  have meaning := agrees.meaning
  rw [same] at meaning
  unfold Reader.read
  split_ifs with complete
  · refine ⟨.inl rfl, ?_⟩
    have enough : R.need s.app ≤ (s.got ++ s.rx.take n ++ (s.rx.drop n ++ s.todo)).length := by
      rw [List.length_append, complete]
      exact Nat.le_add_right _ _
    obtain ⟨last', rest⟩ := exists_decodes R
      (R.feed s.app ((s.got ++ s.rx.take n ++ (s.rx.drop n ++ s.todo)).take (R.need s.app)))
      ((s.got ++ s.rx.take n ++ (s.rx.drop n ++ s.todo)).drop (R.need s.app))
    rw [meaning.unique (.feed asks enough rest)]
    rw [← complete, List.take_left, List.drop_left] at rest
    exact rest
  · exact ⟨.inr (by dsimp only; omega), meaning⟩

/-- A stage given up with nothing to come leaves the meaning. -/
theorem Agrees.dry (agrees : R.Agrees last s) (step : R.Dry s t) (emptied : s.todo = []) :
    R.Agrees last t := by
  obtain ⟨asks, empty, inside⟩ := step
  have meaning := agrees.meaning
  rw [empty, emptied, List.append_nil, List.append_nil] at meaning
  refine ⟨.inl rfl, ?_⟩
  rw [empty, emptied]
  have short : s.got.length < R.need s.app := by
    rcases agrees.within with nothing | short
    · rw [nothing]
      exact asks
    · exact short
  have starved : last = R.starve s.app := meaning.unique (.starve short inside)
  rw [starved]
  rcases R.polls_starve s.app with polls | stops
  · by_cases stops : R.need (R.starve s.app) = 0
    · exact .halt stops
    · exact .wait (Nat.pos_of_ne_zero stops) polls
  · exact .halt stops

/-- At the end of a run the state is the meaning. -/
theorem Agrees.quiet (agrees : R.Agrees last s) (quiet : R.Quiet s) : s.app = last := by
  obtain ⟨emptied, stops | ⟨empty, polls, nothing⟩⟩ := quiet
  · exact (Decodes.halt stops).unique agrees.meaning
  · have meaning := agrees.meaning
    rw [empty, emptied, nothing] at meaning
    by_cases stops : R.need s.app = 0
    · exact (Decodes.halt stops).unique meaning
    · exact (Decodes.wait (Nat.pos_of_ne_zero stops) polls).unique meaning

theorem agrees_fresh (decodes : R.Decodes app stream last) : R.Agrees last (fresh app stream) :=
  ⟨.inl rfl, decodes⟩

/-- Along a clean run the rest of the stream means what the stream means. -/
theorem agrees_of_clean (decodes : R.Decodes app stream last)
    (reach : Reachable R.Clean (fresh app stream) s) : R.Agrees last s := by
  refine reachable_invariant (R.Agrees last) reach (agrees_fresh decodes) ?_
  rintro s t agrees (arrive | read | ⟨dry, -, emptied⟩)
  · exact agrees.arrive arrive
  · exact agrees.read read
  · exact agrees.dry dry emptied

/-- A clean run forgets nothing. -/
theorem forgot_of_clean (reach : Reachable R.Clean (fresh app stream) s) : s.forgot = [] := by
  refine reachable_invariant (fun s : State β σ => s.forgot = []) reach rfl ?_
  rintro s t kept (arrive | read | ⟨dry, nothing, -⟩)
  · obtain ⟨k, -⟩ := arrive
    exact kept
  · obtain ⟨k, -, -⟩ := read
    unfold Reader.read
    split_ifs <;> exact kept
  · obtain ⟨-, -, -⟩ := dry
    rw [kept, nothing]
    rfl

/-! ### The stream at once -/

/-- No stage is under way. -/
def rests (R : Reader β σ) (s : State β σ) : Bool := R.need s.app = 0 || R.polls s.app && s.got.isEmpty

/-- A bound on the steps still to come. -/
def rank (R : Reader β σ) (s : State β σ) : Nat :=
  3 * s.todo.length + 2 * s.rx.length + if R.rests s then 0 else 1

theorem rank_read (within : R.Within s) (step : R.Read s t) : R.rank t < R.rank s := by
  obtain ⟨k, asks, there⟩ := step
  obtain ⟨positive, available, -⟩ := taken_bounds within asks there k
  generalize R.taken s k = n at positive available
  have spent : (R.read s n).rx.length = s.rx.length - n ∧ (R.read s n).todo = s.todo := by
    unfold Reader.read
    split_ifs <;> simp
  have least : (if R.rests (R.read s n) = true then 0 else 1) ≤ 1 := by split_ifs <;> simp
  rw [rank, rank, spent.1, spent.2]
  omega

theorem rests_starve (app : σ) (rx todo forgot : List β) :
    R.rests ⟨R.starve app, [], rx, todo, forgot⟩ = true := by
  rcases R.polls_starve app with polls | stops
  · simp [rests, polls]
  · simp [rests, stops]

theorem rank_dry (step : R.Dry s t) : R.rank t < R.rank s := by
  obtain ⟨asks, empty, inside⟩ := step
  have under : R.rests s = false := by
    have running : R.need s.app ≠ 0 := Nat.pos_iff_ne_zero.mp asks
    simpa [rests, running, Waits] using inside
  rw [rank, rank, rests_starve, under]
  simp

theorem quiet_of_stuck (stuck : Stuck R.Step s) : R.Quiet s := by
  have emptied : s.todo = [] := by
    by_contra coming
    exact stuck _ (.inl (.mk s 0 coming))
  refine ⟨emptied, ?_⟩
  by_cases stops : R.need s.app = 0
  · exact .inl stops
  have asks := Nat.pos_of_ne_zero stops
  have empty : s.rx = [] := by
    by_contra there
    exact stuck _ (.inr (.inl (.mk s 0 asks there)))
  refine .inr ⟨empty, ?_⟩
  by_contra inside
  exact stuck _ (.inr (.inr (.mk s asks empty inside)))

/-- With the whole stream there every run ends, in what the stream means. -/
theorem atOnce_endsIn (decodes : R.Decodes app stream last) :
    EndsIn R.Step (fun s => R.Quiet s ∧ s.app = last) (whole app stream) := by
  have start : R.Agrees last (whole app stream) :=
    ⟨.inl rfl, by simpa [whole] using decodes⟩
  refine endsIn_of_ranked (fun k s => R.rank s = k ∧ s.todo = [] ∧ R.Agrees last s) ⟨rfl, rfl, start⟩ ?_ ?_
  · rintro k s t ⟨rfl, emptied, agrees⟩ (arrive | read | dry)
    · obtain ⟨k, coming⟩ := arrive
      exact absurd emptied coming
    · refine ⟨_, rank_read agrees.within read, rfl, ?_, agrees.read read⟩
      obtain ⟨k, -, -⟩ := read
      unfold Reader.read
      split_ifs <;> exact emptied
    · refine ⟨_, rank_dry dry, rfl, ?_, agrees.dry dry emptied⟩
      obtain ⟨-, -, -⟩ := dry
      exact emptied
  · rintro k s ⟨-, -, agrees⟩ stuck
    have quiet := quiet_of_stuck stuck
    exact ⟨quiet, agrees.quiet quiet⟩

end Reader

end Framing
