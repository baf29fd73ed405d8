/-
Systems that serve several owners, and what one of them can tell of the others.

Every input has an owner and an answer. The view of an owner is what the inputs of his may
read. Where the inputs of others leave it as it is, and his own are answered alike and lead to
equal views from equal views (`Unwinding`), a run is to him the run of his own inputs
(`Unwinding.alone`), so that it does not matter when those of others come between
(`Unwinding.interleaved`). `Ok` is what is known of an input in the state that meets it.
-/

import MiniDropbox.Lib.Transition

namespace Noninterference

open Transition

variable {σ ι κ ρ ν : Type*} [DecidableEq κ]

section Systems

variable (next : σ → ι → σ) (answer : σ → ι → ρ) (owner : ι → κ)

/-- The inputs of one owner. -/
def own (k : κ) (inputs : List ι) : List ι := inputs.filter fun i => owner i = k

/-- The answers one owner is given in a run. -/
def told (k : κ) (s : σ) (inputs : List ι) : List ρ :=
  ((met next s inputs).filter fun p => owner p.2 = k).map fun p => answer p.1 p.2

/-- What one step does to the view of an owner. -/
structure Unwinding (k : κ) (Inv : σ → Prop) (Ok : σ → ι → Prop) (view : σ → ν) : Prop where
  kept : ∀ s i, Inv s → Ok s i → Inv (next s i)
  apart : ∀ s i, Inv s → Ok s i → owner i ≠ k → view (next s i) = view s
  alike : ∀ s t i, Inv s → Inv t → view s = view t → owner i = k → Ok s i →
    Ok t i ∧ answer s i = answer t i ∧ view (next s i) = view (next t i)

end Systems

variable {next : σ → ι → σ} {answer : σ → ι → ρ} {owner : ι → κ} {k : κ} {Inv : σ → Prop}
  {Ok : σ → ι → Prop} {view : σ → ν} {s t : σ} {i : ι} {inputs others : List ι}

theorem own_cons_of_eq (mine : owner i = k) : own owner k (i :: inputs) = i :: own owner k inputs :=
  List.filter_cons_of_pos (decide_eq_true mine)

theorem own_cons_of_ne (other : owner i ≠ k) : own owner k (i :: inputs) = own owner k inputs :=
  List.filter_cons_of_neg (by simpa using other)

theorem told_cons_of_eq (mine : owner i = k) : told next answer owner k s (i :: inputs) =
    answer s i :: told next answer owner k (next s i) inputs := by
  simp only [told, met, List.filter_cons, mine, decide_true, if_true, List.map_cons]

theorem told_cons_of_ne (other : owner i ≠ k) : told next answer owner k s (i :: inputs) =
    told next answer owner k (next s i) inputs := by
  simp only [told, met, List.filter_cons, other, decide_false, Bool.false_eq_true, if_false]

namespace Unwinding

variable (unwinding : Unwinding next answer owner k Inv Ok view)

include unwinding

/-- A run is to an owner the run of his own inputs, from any state that is the same to him. -/
theorem alone (base : Inv s) (base' : Inv t) (same : view s = view t) (ok : ∀ p ∈ met next s inputs, Ok p.1 p.2) :
    told next answer owner k s inputs = told next answer owner k t (own owner k inputs) ∧
      view (inputs.foldl next s) = view ((own owner k inputs).foldl next t) ∧
      ∀ p ∈ met next t (own owner k inputs), Ok p.1 p.2 := by
  induction inputs generalizing s t with
  | nil => exact ⟨rfl, same, forall_met_nil⟩
  | cons i inputs ih =>
      obtain ⟨here, later⟩ := (forall_met_cons Ok).mp ok
      have kept := unwinding.kept s i base here
      by_cases mine : owner i = k
      · obtain ⟨here', answered, moved⟩ := unwinding.alike s t i base base' same mine here
        have kept' := unwinding.kept t i base' here'
        obtain ⟨told, views, oks⟩ := ih kept kept' moved later
        rw [own_cons_of_eq mine, told_cons_of_eq mine, told_cons_of_eq mine, answered, told]
        exact ⟨rfl, views, (forall_met_cons Ok).mpr ⟨here', oks⟩⟩
      · have unmoved := (unwinding.apart s i base here mine).trans same
        rw [own_cons_of_ne mine, told_cons_of_ne mine]
        exact ih kept base' unmoved later

/-- Two runs with the same inputs of an owner are the same to him. -/
theorem interleaved (base : Inv s) (base' : Inv t) (same : view s = view t) (shuffled : own owner k inputs = own owner k others)
    (ok : ∀ p ∈ met next s inputs, Ok p.1 p.2) (ok' : ∀ p ∈ met next t others, Ok p.1 p.2) :
    told next answer owner k s inputs = told next answer owner k t others ∧
      view (inputs.foldl next s) = view (others.foldl next t) := by
  obtain ⟨told, views, -⟩ := unwinding.alone base base' same ok
  obtain ⟨told', views', -⟩ := unwinding.alone base' base' rfl ok'
  rw [told, views, told', views', shuffled]
  exact ⟨rfl, rfl⟩

end Unwinding

end Noninterference
