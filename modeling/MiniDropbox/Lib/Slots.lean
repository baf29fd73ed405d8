/-
Slots: a memory that is read and written by index.

`held mem i n` lists the `n` slots from `i` on. `bubble` swaps a slot with the one
behind it, again and again, so that what it holds travels to the back and each slot it
passes moves forward by one place.

* `held_bubble` — when the slot `i` travels behind the last of `n` slots, the slots in
  front of it hold what they held without it, in the same order.
-/

import Mathlib.Data.List.Basic
import Mathlib.Logic.Function.Basic

namespace Slots

variable {α : Type*} {mem : Nat → α} {a : α} {i j k n steps : Nat}

/-- What the `n` slots from `i` on hold. -/
def held (mem : Nat → α) (i n : Nat) : List α := (List.range' i n).map mem

@[simp] theorem length_held (mem : Nat → α) (i n : Nat) : (held mem i n).length = n := by
  simp [held]

theorem getElem?_held (mem : Nat → α) (i n k : Nat) :
    (held mem i n)[k]? = if k < n then some (mem (i + k)) else none := by
  rw [held, List.getElem?_map]
  split_ifs with below
  · rw [List.getElem?_range' below, Nat.one_mul]
    rfl
  · rw [List.getElem?_eq_none (by simpa using below)]
    rfl

theorem held_succ (mem : Nat → α) (i n : Nat) : held mem i (n + 1) = mem i :: held mem (i + 1) n := rfl

/-- A slot is filled behind the others. -/
theorem held_snoc (mem : Nat → α) (a : α) (n : Nat) :
    held (Function.update mem n a) 0 (n + 1) = held mem 0 n ++ [a] := by
  apply List.ext_getElem?
  intro k
  rw [getElem?_held, List.getElem?_append, getElem?_held, length_held]
  rcases Nat.lt_trichotomy k n with below | rfl | above
  · rw [if_pos (Nat.lt_succ_of_lt below), if_pos below, if_pos below, Nat.zero_add,
      Function.update_of_ne (Nat.ne_of_lt below)]
  · simp
  · rw [if_neg (Nat.not_lt_of_le above), if_neg (Nat.not_lt_of_lt above), List.getElem?_eq_none]
    exact Nat.le_sub_of_add_le (by rw [List.length_singleton]; omega)

/-- Exchange two slots. -/
def swap (mem : Nat → α) (i j : Nat) : Nat → α :=
  Function.update (Function.update mem i (mem j)) j (mem i)

theorem swap_apply (mem : Nat → α) (i j k : Nat) :
    swap mem i j k = if k = j then mem i else if k = i then mem j else mem k := by
  simp only [swap, Function.update_apply]

/-- Swap the slot `j` with the next one, and go on there, `steps` times. -/
def bubble : Nat → (Nat → α) → Nat → Nat → α
  | 0, mem, _ => mem
  | steps + 1, mem, j => bubble steps (swap mem j (j + 1)) (j + 1)

theorem bubble_apply (steps : Nat) (mem : Nat → α) (j k : Nat) :
    bubble steps mem j k =
      if k < j then mem k else if k < j + steps then mem (k + 1)
      else if k = j + steps then mem j else mem k := by
  induction steps generalizing mem j with
  | zero =>
      rw [bubble, Nat.add_zero]
      split_ifs with below same
      · rfl
      · rw [same]
      · rfl
  | succ steps ih =>
      rw [bubble, ih]
      simp only [swap_apply]
      split_ifs <;> grind

/-- The slot `i` travels behind the last of `n`; what was in it does not matter. -/
theorem held_bubble (mem : Nat → α) (a : α) (below : i < n) :
    held (bubble (n - i) (Function.update mem i a) i) 0 (n - 1) = (held mem 0 n).eraseIdx i := by
  apply List.ext_getElem?
  intro k
  rw [getElem?_held, List.getElem?_eraseIdx, getElem?_held, getElem?_held, Nat.zero_add, bubble_apply]
  by_cases front : k < i
  · rw [if_pos front, if_pos front, if_pos (by omega), if_pos (by omega),
      Function.update_of_ne (Nat.ne_of_lt front)]
  · rw [if_neg front, if_neg front]
    by_cases within : k < n - 1
    · rw [if_pos within, if_pos (by omega), if_pos (by omega), Nat.zero_add,
        Function.update_of_ne (by omega)]
    · rw [if_neg within, if_neg (by omega)]

end Slots
