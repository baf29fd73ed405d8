/-
Linked lists in a memory of cells.

A memory is the function that gives the link of each allocated cell: `none` for an
address that holds no cell, `some none` for a cell whose link is null. `Linked`
relates a link to the addresses met by following it up to the null link; `last`
and `search` are the two walks along a chain, with a bound on their steps and
`none` for a walk that leaves the allocated cells or does not end within it.

* `Linked.nodup` — a chain that ends does not pass a cell twice.
* `last_eq`, `search_eq` — on a chain that ends the walks do what their list
  counterparts do on its addresses.
* `Linked.snoc` — linking a new cell to the end of a chain extends it by that cell.
-/

import Mathlib.Data.List.Basic
import Mathlib.Data.List.Nodup
import Mathlib.Data.List.Perm.Subperm

namespace Chain

/-- The link of each allocated cell. -/
abbrev Memory := Nat → Option (Option Nat)

variable {next next' : Memory} {head : Option Nat} {addrs more : List Nat} {a b : Nat}

/-- From `head` on, the links lead through `addrs` to the null link. -/
inductive Linked (next : Memory) : Option Nat → List Nat → Prop where
  | nil : Linked next none []
  | cons {a : Nat} {link : Option Nat} {addrs : List Nat} : next a = some link →
      Linked next link addrs → Linked next (some a) (a :: addrs)

/-- The last cell of the chain that starts at `a`. -/
def last (next : Memory) : Nat → Nat → Option Nat
  | 0, _ => none
  | fuel + 1, a =>
      match next a with
      | none => none
      | some none => some a
      | some (some b) => last next fuel b

/-- The first cell of a chain that satisfies a test: `some none` when the chain ends
without one. -/
def search (next : Memory) (hit : Nat → Bool) : Nat → Option Nat → Option (Option Nat)
  | _, none => some none
  | 0, some _ => none
  | fuel + 1, some a =>
      match next a with
      | none => none
      | some link => if hit a then some (some a) else search next hit fuel link

/-- A link leads through one list of addresses only. -/
theorem Linked.unique (first : Linked next head addrs) (second : Linked next head more) :
    addrs = more := by
  induction first generalizing more with
  | nil =>
      cases second
      rfl
  | cons link _ ih =>
      cases second with
      | cons link' rest =>
          cases link.symm.trans link'
          rw [ih rest]

/-- Each cell of a chain starts the rest of it. -/
theorem Linked.rest (linked : Linked next head addrs) (mem : a ∈ addrs) :
    ∃ rest, Linked next (some a) (a :: rest) ∧ rest.length < addrs.length := by
  induction linked with
  | nil => cases mem
  | @cons b link addrs cell linked ih =>
      rcases List.mem_cons.mp mem with same | later
      · subst same
        exact ⟨addrs, .cons cell linked, Nat.lt_succ_self _⟩
      · obtain ⟨rest, linked', shorter⟩ := ih later
        exact ⟨rest, linked', Nat.lt_succ_of_lt shorter⟩

/-- A chain that ends does not pass a cell twice. -/
theorem Linked.nodup (linked : Linked next head addrs) : addrs.Nodup := by
  induction linked with
  | nil => exact List.nodup_nil
  | @cons a link addrs cell linked ih =>
      refine List.nodup_cons.mpr ⟨fun again => ?_, ih⟩
      obtain ⟨rest, linked', shorter⟩ := linked.rest again
      have same := (Linked.cons cell linked).unique linked'
      cases same
      omega

theorem Linked.cell (linked : Linked next head addrs) (mem : a ∈ addrs) :
    ∃ link, next a = some link := by
  obtain ⟨rest, linked', -⟩ := linked.rest mem
  cases linked' with
  | cons cell _ => exact ⟨_, cell⟩

/-- A chain is no longer than the memory it lives in. -/
theorem Linked.length_le (linked : Linked next head addrs) {size : Nat}
    (bound : ∀ a link, next a = some link → a < size) : addrs.length ≤ size := by
  have inside : addrs ⊆ List.range size := fun a mem => by
    obtain ⟨link, cell⟩ := linked.cell mem
    exact List.mem_range.mpr (bound a link cell)
  have shorter := (List.subperm_of_subset linked.nodup inside).length_le
  rwa [List.length_range] at shorter

/-- Chains see only their own cells. -/
theorem Linked.congr (linked : Linked next head addrs) (same : ∀ a ∈ addrs, next' a = next a) :
    Linked next' head addrs := by
  induction linked with
  | nil => exact .nil
  | @cons a link addrs cell linked ih =>
      refine .cons ?_ (ih fun b mem => same b (List.mem_cons_of_mem _ mem))
      rw [same a List.mem_cons_self, cell]

theorem last_eq (linked : Linked next (some a) addrs) {fuel : Nat} (enough : addrs.length ≤ fuel) :
    last next fuel a = addrs.getLast? := by
  induction fuel generalizing a addrs with
  | zero =>
      cases linked with
      | cons cell rest => simp at enough
  | succ fuel ih =>
      cases linked with
      | @cons _ link addrs cell rest =>
          have shorter : addrs.length ≤ fuel := Nat.le_of_succ_le_succ enough
          rw [last, cell]
          cases rest with
          | nil => rfl
          | cons cell' rest' =>
              rw [List.getLast?_cons_cons]
              exact ih (.cons cell' rest') shorter

theorem search_eq {hit : Nat → Bool} (linked : Linked next head addrs) {fuel : Nat}
    (enough : addrs.length ≤ fuel) : search next hit fuel head = some (addrs.find? hit) := by
  induction linked generalizing fuel with
  | nil =>
      cases fuel <;> rfl
  | @cons a link addrs cell rest ih =>
      obtain ⟨fuel, rfl⟩ := Nat.exists_eq_succ_of_ne_zero (show fuel ≠ 0 by
        intro zero
        simp [zero] at enough)
      rw [search, cell, List.find?_cons]
      cases hit a with
      | true => rfl
      | false => exact ih (Nat.le_of_succ_le_succ enough)

/-- Linking a new cell to the end of a chain extends it by that cell. -/
theorem Linked.snoc (linked : Linked next head (addrs ++ [a]))
    (same : ∀ c ∈ addrs, next' c = next c) (link : next' a = some (some b))
    (new : next' b = some none) : Linked next' head (addrs ++ [a, b]) := by
  induction addrs generalizing head with
  | nil =>
      cases linked
      exact .cons link (.cons new .nil)
  | cons c addrs ih =>
      cases linked with
      | cons cell rest =>
          refine .cons ?_ (ih rest fun d mem => same d (List.mem_cons_of_mem _ mem))
          rw [same c List.mem_cons_self, cell]

/-- A chain that goes on behind its old end: a cell linked there is followed by what its
own link leads to. -/
theorem Linked.beyond {link : Option Nat} (linked : Linked next head (addrs ++ [a]))
    (same : ∀ c ∈ addrs, next' c = next c) (cell : next' a = some (some b)) (new : next' b = some link)
    (longer : Linked next' head more) : ∃ rest, more = addrs ++ a :: b :: rest ∧ Linked next' link rest := by
  induction addrs generalizing head more with
  | nil =>
      cases linked
      cases longer with
      | cons cell' behind =>
          cases cell.symm.trans cell'
          cases behind with
          | cons new' rest =>
              cases new.symm.trans new'
              exact ⟨_, rfl, rest⟩
  | cons c addrs ih =>
      cases linked with
      | cons old rest =>
          cases longer with
          | cons old' rest' =>
              rw [same c List.mem_cons_self] at old'
              cases old.symm.trans old'
              obtain ⟨tail, rfl, ends⟩ := ih rest (fun d mem => same d (List.mem_cons_of_mem _ mem)) rest'
              exact ⟨tail, rfl, ends⟩

/-- A walk for the last cell never leaves a cell that is linked to itself. -/
theorem last_self (loop : next a = some (some a)) (fuel : Nat) : last next fuel a = none := by
  induction fuel with
  | zero => rfl
  | succ fuel ih =>
      rw [last, loop]
      exact ih

theorem search_self {hit : Nat → Bool} (loop : next a = some (some a)) (other : hit a = false)
    (fuel : Nat) : search next hit fuel (some a) = none := by
  induction fuel with
  | zero => rfl
  | succ fuel ih =>
      rw [search, loop]
      dsimp only
      rw [if_neg (by rw [other]; exact Bool.false_ne_true)]
      exact ih

end Chain
