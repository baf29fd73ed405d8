/-
Loops that take a counted number of steps.

Each step is given the input of its count, and a state in which no step can be taken is
final. The states a loop passes through, with the inputs of their steps, are its trace:
what can only become true by a step, and is final then, holds at the end if and only if
some step of the trace makes it true (`final_iff`), and an invariant of the steps holds
all along (`trace_invariant`), also one that counts some of them (`final_counted`). A loop
with more counts than its start state ranks does not stop early (`final_stuck`).
-/

import Mathlib.Tactic.Common

namespace Counted

variable {Input State Output : Type} (step : Input → State → Option (State × Output)) (input : Nat → Input)

/-- The state in which the loop stops. -/
def final : Nat → State → State
  | 0, s => s
  | fuel + 1, s =>
      match step (input fuel) s with
      | none => s
      | some (next, _) => final fuel next

/-- The states in which the loop takes a step, with the inputs. -/
def trace : Nat → State → List (Input × State)
  | 0, _ => []
  | fuel + 1, s =>
      match step (input fuel) s with
      | none => []
      | some (next, _) => (input fuel, s) :: trace fuel next

variable {step input}

theorem final_of_stuck {s : State} (stuck : ∀ i, step i s = none) (fuel : Nat) :
    final step input fuel s = s := by
  cases fuel with
  | zero => rfl
  | succ fuel => rw [final, stuck]

theorem trace_of_stuck {s : State} (stuck : ∀ i, step i s = none) (fuel : Nat) :
    trace step input fuel s = [] := by
  cases fuel with
  | zero => rfl
  | succ fuel => rw [trace, stuck]

/-- An invariant of the steps holds in every state of the trace. -/
theorem trace_invariant {Inv : State → Prop}
    (preserves : ∀ i s next out, Inv s → step i s = some (next, out) → Inv next) {fuel : Nat} {s : State}
    (inv : Inv s) : ∀ x ∈ trace step input fuel s, Inv x.2 := by
  induction fuel generalizing s with
  | zero => exact fun x => nofun
  | succ fuel ih =>
      intro x met
      rw [trace] at met
      cases moves : step (input fuel) s with
      | none =>
          rw [moves] at met
          cases met
      | some move =>
          obtain ⟨next, out⟩ := move
          rw [moves] at met
          rcases List.mem_cons.mp met with rfl | later
          · exact inv
          · exact ih (preserves _ s next out inv moves) x later

/-- The input of a step of the trace is that of its count. -/
theorem trace_input {fuel : Nat} {s : State} {x : Input × State} (met : x ∈ trace step input fuel s) :
    ∃ k, x.1 = input k := by
  induction fuel generalizing s with
  | zero => cases met
  | succ fuel ih =>
      rw [trace] at met
      cases moves : step (input fuel) s with
      | none =>
          rw [moves] at met
          cases met
      | some move =>
          rw [moves] at met
          rcases List.mem_cons.mp met with rfl | later
          · exact ⟨fuel, rfl⟩
          · exact ih later

/-- What is final holds at the end exactly when a step makes it true. -/
theorem final_iff {Ends : State → Prop} {Makes : Input × State → Prop}
    (stuck : ∀ s, Ends s → ∀ i, step i s = none)
    (makes : ∀ i s, Makes (i, s) ↔ ∃ next out, step i s = some (next, out) ∧ Ends next)
    {fuel : Nat} {s : State} (running : ¬ Ends s) :
    Ends (final step input fuel s) ↔ ∃ x ∈ trace step input fuel s, Makes x := by
  induction fuel generalizing s with
  | zero => simp [final, trace, running]
  | succ fuel ih =>
      rw [final, trace]
      have here := makes (input fuel) s
      cases moves : step (input fuel) s with
      | none => simp [running]
      | some move =>
          obtain ⟨next, out⟩ := move
          simp only [moves, Option.some.injEq, Prod.mk.injEq] at here
          simp only [List.mem_cons, exists_eq_or_imp, here]
          by_cases done : Ends next
          · simp [final_of_stuck (stuck next done), trace_of_stuck (stuck next done), done]
          · rw [ih done]
            simp [done]

/-- An invariant that counts the steps of a kind, at the end. -/
theorem final_counted {Inv : Nat → State → Prop} {counted : Input × State → Bool}
    (keeps : ∀ n i s next out, Inv n s → step i s = some (next, out) →
      Inv (n + if counted (i, s) then 1 else 0) next) {fuel n : Nat} {s : State}
    (inv : Inv n s) : Inv (n + (trace step input fuel s).countP counted) (final step input fuel s) := by
  induction fuel generalizing n s with
  | zero => exact inv
  | succ fuel ih =>
      rw [final, trace]
      cases moves : step (input fuel) s with
      | none => exact inv
      | some move =>
          obtain ⟨next, out⟩ := move
          have later := ih (keeps n _ s next out inv moves)
          dsimp only
          rw [List.countP_cons, Nat.add_comm (List.countP _ _), ← Nat.add_assoc]
          exact later

/-- Where every step lowers a rank, and its input does not decide whether there is one, the
loop has stopped for good if it may take as many steps as its start state ranks. -/
theorem final_stuck {rank : State → Nat} (blind : ∀ i s, step i s = none → ∀ j, step j s = none)
    (lowers : ∀ i s next out, step i s = some (next, out) → rank next < rank s) {fuel : Nat} {s : State}
    (enough : rank s ≤ fuel) : ∀ j, step j (final step input fuel s) = none := by
  induction fuel generalizing s with
  | zero =>
      intro j
      cases moves : step j (final step input 0 s) with
      | none => rfl
      | some move => exact absurd (lowers j s _ _ moves) (by omega)
  | succ fuel ih =>
      rw [final]
      cases moves : step (input fuel) s with
      | none => exact blind _ s moves
      | some move =>
          have lower := lowers _ s _ _ moves
          exact ih (by omega)

end Counted
