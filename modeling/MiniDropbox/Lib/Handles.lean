/-
A table of handles: numbers given out and taken back.

`lowest` is the number given out next, the least one that is not in use, so that a
table is a list without repetitions that `acquire` extends and `release` shortens.
What is acquired and released again leaves the table as it was (`release_acquire`).
-/

import Mathlib.Data.List.Nodup
import Mathlib.Data.List.Perm.Subperm
import Mathlib.Data.List.Range

namespace Handles

/-- The handles in use. -/
abbrev Table := List Nat

/-- The least handle that is not in use. -/
def lowest (table : Table) : Nat := ((List.range (table.length + 1)).find? (· ∉ table)).getD 0

/-- The table with a handle more, which is at its head. -/
def acquire (table : Table) : Table := lowest table :: table

/-- The table without a handle. -/
def release (table : Table) (handle : Nat) : Table := table.filter (· ≠ handle)

variable {table : Table} {handle other : Nat}

/-- One more number than there are handles: some number is free. -/
theorem lowest_not_mem (table : Table) : lowest table ∉ table := by
  unfold lowest
  cases found : (List.range (table.length + 1)).find? (· ∉ table) with
  | none =>
      have all : List.range (table.length + 1) ⊆ table := by
        intro n mem
        simpa using List.find?_eq_none.mp found n mem
      have short := (List.nodup_range.subperm all).length_le
      rw [List.length_range] at short
      exact absurd short (Nat.not_succ_le_self _)
  | some n => simpa using List.find?_some found

@[simp] theorem release_acquire (table : Table) : release (acquire table) (lowest table) = table := by
  have free := lowest_not_mem table
  rw [acquire, release, List.filter_cons_of_neg (by simp), List.filter_eq_self]
  intro n mem
  simp only [ne_eq, decide_eq_true_eq]
  rintro rfl
  exact free mem

@[simp] theorem mem_release : other ∈ release table handle ↔ other ∈ table ∧ other ≠ handle := by
  simp [release]

theorem nodup_acquire (once : table.Nodup) : (acquire table).Nodup :=
  List.nodup_cons.mpr ⟨lowest_not_mem table, once⟩

theorem nodup_release (once : table.Nodup) : (release table handle).Nodup := once.filter _

/-- Tables that hold the same handles, each once, are equally long. -/
theorem length_eq_of_mem_iff {table' : Table} (once : table.Nodup) (once' : table'.Nodup)
    (same : ∀ n, n ∈ table ↔ n ∈ table') : table.length = table'.length :=
  ((List.perm_ext_iff_of_nodup once once').mpr same).length_eq

end Handles
