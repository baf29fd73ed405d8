/-
Transition systems: reachability, invariants, and runs that must end.

A system is a one-step relation on states. `Reachable` is its reflexive and
transitive closure, `Stuck` marks a state no step leaves, and `EndsIn P` says
that no run goes on for ever and that every run that can go no further has
stopped in a state satisfying `P`. The rules below are the only ways the rest of
a development reasons about runs: `reachable_invariant` for what holds along a
run, `endsIn_of_ranked` for where it ends, `EndsIn.exists_final` for a run that
ends there. A run that takes inputs is the list of what it has `met`, and
`forall_met_iff` carries an exact condition of a step over to it.
-/

import Mathlib.Logic.Function.Iterate
import Mathlib.Logic.Relation
import Mathlib.Tactic.Choose

namespace Transition

variable {σ : Type*} {step : σ → σ → Prop} {P : σ → Prop} {s t : σ}

/-- `t` is reached from `s` in zero or more steps. -/
abbrev Reachable (step : σ → σ → Prop) : σ → σ → Prop := Relation.ReflTransGen step

/-- No step leaves `s`. -/
def Stuck (step : σ → σ → Prop) (s : σ) : Prop := ∀ t, ¬ step s t

/-- Every run from `s` is finite, and one that cannot be continued has ended in
a state satisfying `P`. -/
def EndsIn (step : σ → σ → Prop) (P : σ → Prop) (s : σ) : Prop :=
  (¬ ∃ run : Nat → σ, run 0 = s ∧ ∀ k, step (run k) (run (k + 1))) ∧
    ∀ t, Reachable step s t → Stuck step t → P t

/-- A predicate that holds at the start and is preserved by every step holds of
every reachable state. -/
theorem reachable_invariant (Inv : σ → Prop) (reach : Reachable step s t) (base : Inv s)
    (preserved : ∀ s t, Inv s → step s t → Inv t) : Inv t := by
  induction reach with
  | refl => exact base
  | tail _ last ih => exact preserved _ _ ih last

/-- An invariant indexed by a number that every step lowers still holds along a run,
at some lower number. -/
theorem ranked_of_reachable (Ranked : Nat → σ → Prop) {n : Nat} (base : Ranked n s)
    (lowered : ∀ k s t, Ranked k s → step s t → ∃ j < k, Ranked j t)
    (reach : Reachable step s t) : ∃ k, Ranked k t := by
  refine reachable_invariant (fun s => ∃ k, Ranked k s) reach ⟨n, base⟩ ?_
  rintro s t ⟨k, ranked⟩ move
  obtain ⟨j, -, next⟩ := lowered _ _ _ ranked move
  exact ⟨j, next⟩

/-- An invariant indexed by the number of steps still to come, which every step
lowers, bounds every run and describes where the runs end. -/
theorem endsIn_of_ranked (Ranked : Nat → σ → Prop) {n : Nat} (base : Ranked n s)
    (lowered : ∀ k s t, Ranked k s → step s t → ∃ j < k, Ranked j t)
    (final : ∀ k t, Ranked k t → Stuck step t → P t) : EndsIn step P s := by
  constructor
  · rintro ⟨run, start, steps⟩
    have spent : ∀ k, ∃ j, j + k ≤ n ∧ Ranked j (run k) := by
      intro k
      induction k with
      | zero => exact ⟨n, Nat.le_refl n, start ▸ base⟩
      | succ k ih =>
          obtain ⟨j, bound, ranked⟩ := ih
          obtain ⟨i, below, next⟩ := lowered _ _ _ ranked (steps k)
          exact ⟨i, by omega, next⟩
    obtain ⟨j, bound, -⟩ := spent (n + 1)
    omega
  · intro t reach stuck
    obtain ⟨k, ranked⟩ := ranked_of_reachable Ranked base lowered reach
    exact final k t ranked stuck

/-- A run that has stopped has stopped where `EndsIn` says. -/
theorem EndsIn.final (ends : EndsIn step P s) (reach : Reachable step s t)
    (stuck : Stuck step t) : P t :=
  ends.2 t reach stuck

theorem EndsIn.mono {Q : σ → Prop} (ends : EndsIn step P s) (weaker : ∀ t, P t → Q t) :
    EndsIn step Q s :=
  ⟨ends.1, fun t reach stuck => weaker t (ends.2 t reach stuck)⟩

/-- Where the runs end in two ways they end in both at once. -/
theorem EndsIn.and {Q : σ → Prop} (ends : EndsIn step P s) (also : EndsIn step Q s) :
    EndsIn step (fun t => P t ∧ Q t) s :=
  ⟨ends.1, fun t reach stuck => ⟨ends.2 t reach stuck, also.2 t reach stuck⟩⟩

/-- Where every run ends, some run does: a step can be taken until none is left. -/
theorem EndsIn.exists_final (ends : EndsIn step P s) : ∃ t, Reachable step s t ∧ P t := by
  by_contra none
  have continues : ∀ t : { t // Reachable step s t }, ∃ u : { t // Reachable step s t },
      step t.1 u.1 := by
    rintro ⟨t, reach⟩
    by_contra stuck
    refine none ⟨t, reach, ends.final reach fun u move => stuck ⟨⟨u, reach.tail move⟩, move⟩⟩
  choose next move using continues
  refine ends.1 ⟨fun k => (next^[k] ⟨s, .refl⟩).1, rfl, fun k => ?_⟩
  simpa only [Function.iterate_succ_apply'] using move (next^[k] ⟨s, .refl⟩)

section Driven

variable {ι : Type*} {next : σ → ι → σ} {Inv : σ → Prop} {D Q C : σ → ι → Prop} {inputs : List ι}

/-- The inputs of a run, each with the state that meets it. -/
def met (next : σ → ι → σ) : σ → List ι → List (σ × ι)
  | _, [] => []
  | s, i :: inputs => (s, i) :: met next (next s i) inputs

theorem forall_met_nil {P : σ × ι → Prop} : ∀ p ∈ met next s [], P p := List.forall_mem_nil _

theorem forall_met_cons (P : σ → ι → Prop) {i : ι} :
    (∀ p ∈ met next s (i :: inputs), P p.1 p.2) ↔ P s i ∧ ∀ p ∈ met next (next s i) inputs, P p.1 p.2 :=
  List.forall_mem_cons

/-- Where a property of a step comes down to a condition that keeps the invariant, a run has
the property throughout if and only if it meets the condition throughout. `D` is what is
known of the inputs. -/
theorem forall_met_iff (exact : ∀ s i, Inv s → D s i → (Q s i ↔ C s i))
    (kept : ∀ s i, Inv s → D s i → C s i → Inv (next s i)) (base : Inv s)
    (known : ∀ p ∈ met next s inputs, D p.1 p.2) :
    (∀ p ∈ met next s inputs, Q p.1 p.2) ↔ ∀ p ∈ met next s inputs, C p.1 p.2 := by
  induction inputs generalizing s with
  | nil => exact ⟨fun _ => forall_met_nil, fun _ => forall_met_nil⟩
  | cons i inputs ih =>
      rw [forall_met_cons D] at known
      rw [forall_met_cons Q, forall_met_cons C]
      rw [exact s i base known.1]
      exact and_congr_right fun here => ih (kept s i base known.1 here) known.2

end Driven

end Transition
