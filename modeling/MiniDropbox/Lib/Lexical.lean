/-
Paths as stacks of names, over any alphabet with a separator.

`pieces` cuts a path into its names, `joined` writes names behind separators, and
`resolve` works a list of names off against a stack, one of them standing for the
place itself and one for the place above. Cutting undoes joining
(`pieces_joined`), and what `resolve` leaves contains neither special name
(`mem_resolve`).
-/

import Mathlib.Data.List.Chain
import Mathlib.Data.List.Induction

namespace Lexical

variable {α : Type} (sep : α)

/-- Names one after another, each behind a separator. -/
def joined (names : List (List α)) : List α := names.flatMap (sep :: ·)

/-- A name is nonempty and free of separators. -/
structure IsName (name : List α) : Prop where
  nonempty : name ≠ []
  free : sep ∉ name

/-- The names of a path: its nonempty pieces between separators. -/
def pieces [DecidableEq α] (path : List α) : List (List α) := (path.splitOn sep).filter (· ≠ [])

variable {sep}

@[simp] theorem joined_nil : joined sep [] = [] := rfl

@[simp] theorem joined_append (xs ys : List (List α)) :
    joined sep (xs ++ ys) = joined sep xs ++ joined sep ys := List.flatMap_append

theorem joined_cons (name : List α) (names : List (List α)) :
    joined sep (name :: names) = sep :: (name ++ joined sep names) :=
  @List.flatMap_cons _ _ name names (sep :: ·)

@[simp] theorem joined_singleton (name : List α) : joined sep [name] = sep :: name := by
  simp [joined]

/-- Joined names hold no two separators next to each other, and none with one more behind
them. -/
theorem isChain_joined {names : List (List α)} (good : ∀ name ∈ names, IsName sep name) :
    (joined sep names ++ [sep]).IsChain fun a b => a = sep → b ≠ sep := by
  induction names with
  | nil => exact List.isChain_singleton sep
  | cons name names ih =>
      have first := good name List.mem_cons_self
      have split : joined sep (name :: names) ++ [sep] = (sep :: name) ++ (joined sep names ++ [sep]) := by
        simp [joined]
      obtain ⟨c, rest, cons⟩ := List.exists_cons_of_ne_nil first.nonempty
      rw [split, List.isChain_append]
      refine ⟨?_, ih fun n hn => good n (List.mem_cons_of_mem _ hn), ?_⟩
      · have letters : name.IsChain fun a b => a = sep → b ≠ sep := by
          refine (List.pairwise_of_forall_mem_list ?_).isChain
          intro a ha b _ same
          exact absurd (same ▸ ha) first.free
        rw [cons] at letters ⊢
        refine letters.cons_cons fun _ same => ?_
        exact first.free (by rw [cons, ← same]; exact List.mem_cons_self)
      · intro a last b _ same
        have mem : a ∈ name := by
          rw [Option.mem_def, cons, List.getLast?_cons_cons, ← cons] at last
          exact List.mem_of_getLast? last
        exact absurd (same ▸ mem) first.free

theorem length_le_joined (sep : α) (names : List (List α)) : names.length ≤ (joined sep names).length := by
  induction names with
  | nil => exact Nat.le_refl 0
  | cons n names ih =>
      rw [joined_cons, List.length_cons, List.length_cons, List.length_append]
      exact Nat.succ_le_succ (Nat.le_trans ih (Nat.le_add_left _ _))

/-- Before joined names a separator comes first. -/
theorem joined_eq_cons {names : List (List α)} (nonempty : names ≠ []) :
    joined sep names = sep :: [sep].intercalate names := by
  induction names with
  | nil => exact absurd rfl nonempty
  | cons name names ih =>
      cases names with
      | nil => simp [joined]
      | cons next names =>
          have rest := ih (List.cons_ne_nil _ _)
          rw [joined, List.flatMap_cons, ← joined, rest]
          simp [List.intercalate, List.intersperse]

variable [DecidableEq α]

/-- A separator cuts a path in two. -/
theorem pieces_append (xs ys : List α) :
    pieces sep (xs ++ sep :: ys) = pieces sep xs ++ pieces sep ys := by
  rw [pieces, List.splitOn_append_cons_self, List.filter_append]
  rfl

@[simp] theorem pieces_nil : pieces sep [] = [] := rfl

theorem pieces_of_isName {name : List α} (h : IsName sep name) : pieces sep name = [name] := by
  simp [pieces, List.splitOn_eq_singleton h.free, h.nonempty]

/-- A path that does not begin with a separator begins with a name, which goes on to the
next separator. -/
theorem pieces_takeWhile {a : α} {path : List α} (other : a ≠ sep) :
    pieces sep (a :: path) =
      (a :: path).takeWhile (· ≠ sep) :: pieces sep ((a :: path).dropWhile (· ≠ sep)) := by
  have split := @List.takeWhile_append_dropWhile _ (· ≠ sep) (a :: path)
  have name : IsName sep ((a :: path).takeWhile (· ≠ sep)) := by
    refine ⟨?_, fun hit => ?_⟩
    · rw [List.takeWhile_cons_of_pos (by simpa using other)]
      exact List.cons_ne_nil _ _
    · simpa using List.all_eq_true.mp (@List.all_takeWhile _ (· ≠ sep) (a :: path)) sep hit
  generalize rest_eq : (a :: path).dropWhile (· ≠ sep) = rest at split
  cases rest with
  | nil =>
      rw [List.append_nil] at split
      rw [pieces_nil, ← pieces_of_isName name, split]
  | cons b rest =>
      have cut : b = sep := by
        have stopped := @List.head?_dropWhile_not _ (· ≠ sep) (a :: path)
        rw [rest_eq] at stopped
        simpa using stopped
      have behind : pieces sep (sep :: rest) = pieces sep rest := pieces_append [] rest
      rw [cut] at split
      conv_lhs => rw [← split]
      rw [cut, behind, pieces_append, pieces_of_isName name]
      rfl

/-- A path without names is made of separators. -/
theorem eq_sep_of_pieces_nil {path : List α} (none : pieces sep path = []) : ∀ a ∈ path, a = sep := by
  induction path with
  | nil => exact List.forall_mem_nil _
  | cons a path ih =>
      by_cases same : a = sep
      · have behind : pieces sep (sep :: path) = pieces sep path := pieces_append [] path
        rw [same, behind] at none
        exact List.forall_mem_cons.mpr ⟨same, ih none⟩
      · rw [pieces_takeWhile same] at none
        cases none

/-- What follows a name belongs to it up to the next separator. -/
theorem pieces_name_append {name : List α} (h : IsName sep name) (rest : List α) :
    ∃ x more, pieces sep (name ++ rest) = (name ++ x) :: more := by
  by_cases cut : sep ∈ rest
  · obtain ⟨x, later, rfl, free⟩ := List.eq_append_cons_of_mem cut
    have longer : IsName sep (name ++ x) := by
      refine ⟨List.append_ne_nil_of_left_ne_nil h.nonempty x, fun hit => ?_⟩
      rcases List.mem_append.mp hit with hit | hit
      · exact h.free hit
      · exact free hit
    exact ⟨x, pieces sep later, by rw [← List.append_assoc, pieces_append, pieces_of_isName longer]; rfl⟩
  · have longer : IsName sep (name ++ rest) := by
      refine ⟨List.append_ne_nil_of_left_ne_nil h.nonempty rest, fun hit => ?_⟩
      rcases List.mem_append.mp hit with hit | hit
      · exact h.free hit
      · exact cut hit
    exact ⟨rest, [], pieces_of_isName longer⟩

/-- A path has no more names than elements, the one before the first separator apart. -/
theorem length_pieces_le (path : List α) : (pieces sep path).length ≤ path.length + 1 := by
  refine Nat.le_trans (List.length_filter_le _ _) ?_
  induction path with
  | nil => exact Nat.le_refl _
  | cons c path ih =>
      rw [List.splitOn_cons_eq_if_modifyHead]
      split
      · exact Nat.succ_le_succ ih
      · rw [List.length_modifyHead]
        exact Nat.le_succ_of_le ih

/-- Its names joined are no longer than a path with a separator before it. -/
theorem length_joined_pieces (path : List α) : (joined sep (pieces sep path)).length ≤ path.length + 1 := by
  induction size : path.length using Nat.strongRecOn generalizing path with
  | ind size ih =>
      have name : ∀ x : List α, sep ∉ x → (joined sep (pieces sep x)).length ≤ x.length + 1 := by
        intro x free
        by_cases empty : x = []
        · rw [empty]
          exact Nat.zero_le _
        · rw [pieces_of_isName ⟨empty, free⟩, joined_singleton, List.length_cons]
      by_cases cut : sep ∈ path
      · obtain ⟨x, later, rfl, free⟩ := List.eq_append_cons_of_mem cut
        have first := name x free
        rw [List.length_append, List.length_cons] at size
        have second := ih later.length (by omega) later rfl
        rw [pieces_append, joined_append, List.length_append]
        omega
      · rw [← size]
        exact name path cut

theorem not_mem_of_mem_splitOn {path name : List α} (h : name ∈ path.splitOn sep) : sep ∉ name := by
  induction path generalizing name with
  | nil =>
      rw [List.splitOn_nil, List.mem_singleton] at h
      simp [h]
  | cons c path ih =>
      rw [List.splitOn_cons_eq_if_modifyHead] at h
      split at h
      · rcases List.mem_cons.mp h with rfl | h
        · exact List.not_mem_nil
        · exact ih h
      · rename_i other
        cases pieces : path.splitOn sep with
        | nil => exact absurd pieces (List.splitOn_ne_nil sep path)
        | cons first rest =>
            rw [pieces, List.modifyHead_cons] at h
            rcases List.mem_cons.mp h with rfl | h
            · have free : sep ∉ first := ih (by rw [pieces]; exact List.mem_cons_self)
              intro hit
              rcases List.mem_cons.mp hit with rfl | hit
              · simp at other
              · exact free hit
            · exact ih (by rw [pieces]; exact List.mem_cons_of_mem _ h)

theorem isName_of_mem_pieces {path name : List α} (h : name ∈ pieces sep path) : IsName sep name := by
  obtain ⟨cut, nonempty⟩ := List.mem_filter.mp h
  exact ⟨of_decide_eq_true nonempty, not_mem_of_mem_splitOn cut⟩

theorem mem_of_mem_splitOn {path name : List α} {a : α} (h : name ∈ path.splitOn sep) (mem : a ∈ name) :
    a ∈ path := by
  induction path generalizing name with
  | nil =>
      rw [List.splitOn_nil, List.mem_singleton] at h
      rw [h] at mem
      cases mem
  | cons c path ih =>
      rw [List.splitOn_cons_eq_if_modifyHead] at h
      split at h
      · rcases List.mem_cons.mp h with rfl | h
        · cases mem
        · exact List.mem_cons_of_mem _ (ih h mem)
      · cases pieces : path.splitOn sep with
        | nil => exact absurd pieces (List.splitOn_ne_nil sep path)
        | cons first rest =>
            rw [pieces, List.modifyHead_cons] at h
            rcases List.mem_cons.mp h with rfl | h
            · rcases List.mem_cons.mp mem with rfl | mem
              · exact List.mem_cons_self
              · exact List.mem_cons_of_mem _ (ih (by rw [pieces]; exact List.mem_cons_self) mem)
            · exact List.mem_cons_of_mem _ (ih (by rw [pieces]; exact List.mem_cons_of_mem _ h) mem)

/-- The names of a path are made of its letters. -/
theorem mem_of_mem_pieces {path name : List α} {a : α} (h : name ∈ pieces sep path) (mem : a ∈ name) :
    a ∈ path := mem_of_mem_splitOn (List.mem_filter.mp h).1 mem

/-- Cutting undoes joining. -/
theorem pieces_joined {names : List (List α)} (good : ∀ name ∈ names, IsName sep name) :
    pieces sep (joined sep names) = names := by
  induction names using List.reverseRecOn with
  | nil => rfl
  | append_singleton names name ih =>
      rw [joined_append, joined_singleton, pieces_append, ih fun n h => good n (List.mem_append_left _ h),
        pieces_of_isName (good name (by simp))]

/-! ### Resolution -/

section Resolution

variable (here up : List α)

/-- One name worked off against the stack. -/
def push (stack : List (List α)) (name : List α) : List (List α) :=
  if name = here then stack else if name = up then stack.dropLast else stack ++ [name]

/-- The stack a list of names leaves. -/
def resolve (names : List (List α)) : List (List α) := names.foldl (push here up) []

/-- One name worked off against a stack that begins some places further up. -/
def climb (state : Nat × List (List α)) (name : List α) : Nat × List (List α) :=
  if name = here then state
  else if name = up then
    if state.2 = [] then (state.1 + 1, []) else (state.1, state.2.dropLast)
  else (state.1, state.2 ++ [name])

/-- How far up a list of names leads, and the stack it leaves from there. -/
def ascend (names : List (List α)) : Nat × List (List α) := names.foldl (climb here up) (0, [])

variable {here up}

theorem mem_push {stack : List (List α)} {name n : List α} (h : n ∈ push here up stack name) :
    n ∈ stack ∨ n = name ∧ n ≠ here ∧ n ≠ up := by
  unfold push at h
  split_ifs at h with stays leaves
  · exact .inl h
  · exact .inl (List.dropLast_subset _ h)
  · rcases List.mem_append.mp h with h | h
    · exact .inl h
    · rw [List.mem_singleton] at h
      exact .inr ⟨h, h ▸ stays, h ▸ leaves⟩

theorem mem_foldl_push {names stack : List (List α)} {n : List α}
    (h : n ∈ names.foldl (push here up) stack) : n ∈ stack ∨ n ∈ names ∧ n ≠ here ∧ n ≠ up := by
  induction names generalizing stack with
  | nil => exact .inl h
  | cons name names ih =>
      rcases ih h with pushed | ⟨later, proper⟩
      · rcases mem_push pushed with old | ⟨rfl, proper⟩
        · exact .inl old
        · exact .inr ⟨List.mem_cons_self, proper⟩
      · exact .inr ⟨List.mem_cons_of_mem _ later, proper⟩

/-- What is left are names of the path, and neither special one. -/
theorem mem_resolve {names : List (List α)} {n : List α} (h : n ∈ resolve here up names) :
    n ∈ names ∧ n ≠ here ∧ n ≠ up := by
  rcases mem_foldl_push h with h | h
  · cases h
  · exact h

/-- Names that are neither special one are pushed as they are. -/
theorem foldl_push_of_plain {names stack : List (List α)}
    (plain : ∀ n ∈ names, n ≠ here ∧ n ≠ up) : names.foldl (push here up) stack = stack ++ names := by
  induction names generalizing stack with
  | nil => simp
  | cons name names ih =>
      obtain ⟨stays, leaves⟩ := plain name List.mem_cons_self
      rw [List.foldl_cons, push, if_neg stays, if_neg leaves,
        ih fun n hn => plain n (List.mem_cons_of_mem _ hn), List.append_assoc, List.singleton_append]

theorem push_sublist (stack : List (List α)) (name : List α) : (push here up stack name).Sublist (stack ++ [name]) := by
  rw [push]
  split_ifs
  · exact List.sublist_append_left stack [name]
  · exact (List.dropLast_sublist stack).trans (List.sublist_append_left stack [name])
  · exact List.Sublist.refl _

/-- Resolving only leaves names out. -/
theorem resolve_sublist (names : List (List α)) : (resolve here up names).Sublist names := by
  have folded : ∀ stack : List (List α), (names.foldl (push here up) stack).Sublist (stack ++ names) := by
    induction names with
    | nil =>
        intro stack
        rw [List.append_nil]
        exact List.Sublist.refl stack
    | cons name names ih =>
        intro stack
        have longer : stack ++ name :: names = stack ++ [name] ++ names := by rw [List.append_assoc, List.singleton_append]
        rw [longer]
        exact (ih _).trans ((push_sublist stack name).append_right names)
  exact folded []

end Resolution

end Lexical
