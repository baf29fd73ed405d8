/-
The `int` variables of `normalize_path`.

The index never gets ahead of the input, since every component is written with at most the
one slash that was read before it. So a string of fewer than 2 ^ 31 bytes keeps both `len` and
`i` in the range of `int`, and `normalizePath` computes what the source does
(`normalizePathInt_eq`).
-/

import MiniDropbox.Normalize

namespace MiniDropbox

open Lexical

/-! ### The index -/

/-- What is in the buffer before the first component. -/
def started (isAbsolute : Bool) : CStr := if isAbsolute then [slash] else []

variable {isAbsolute : Bool} {path out comp : CStr} {comps : List CStr}

/-- A component is written behind at most one slash. -/
theorem length_normalizeStep : (normalizeStep isAbsolute out comp).length ≤ out.length + 1 + comp.length := by
  have dropped : ∀ k, (out.take k).length ≤ out.length + 1 + comp.length := by
    intro k
    rw [List.length_take]
    omega
  unfold normalizeStep
  split_ifs with stays leaves
  all_goals first | exact dropped _ | simp [*]
  all_goals omega

/-- The first component is written behind none. -/
theorem length_normalizeStep_started :
    (normalizeStep isAbsolute (started isAbsolute) comp).length ≤ (started isAbsolute).length + comp.length := by
  cases isAbsolute <;> unfold normalizeStep started <;> split_ifs <;> simp_all [Nat.add_comm]

/-- The index does not get ahead of the components, with a slash before each. -/
theorem length_foldl_normalizeStep :
    (comps.foldl (normalizeStep isAbsolute) (started isAbsolute)).length ≤
      (joined slash comps).length - 1 + (started isAbsolute).length := by
  induction comps using List.reverseRecOn with
  | nil => exact Nat.le_of_eq (Nat.zero_add _).symm
  | append_singleton comps comp ih =>
      rw [List.foldl_append, List.foldl_cons, List.foldl_nil, joined_append, joined_singleton, List.length_append,
        List.length_cons]
      cases comps with
      | nil =>
          have first := @length_normalizeStep_started isAbsolute comp
          rw [List.foldl_nil]
          simp only [joined_nil, List.length_nil]
          omega
      | cons before comps =>
          have next := @length_normalizeStep isAbsolute
            ((before :: comps).foldl (normalizeStep isAbsolute) (started isAbsolute)) comp
          have long : 0 < (joined slash (before :: comps)).length := by
            rw [joined_cons, List.length_cons]
            exact Nat.succ_pos _
          omega

/-! ### The variables of the source -/

/-- A short component is worked off alike. -/
theorem normalizeStepInt_eq (short : comp.length < 2 ^ 31) (small : (normalizeStep isAbsolute out comp).length < 2 ^ 31) :
    normalizeStepInt isAbsolute out comp = some (normalizeStep isAbsolute out comp) := by
  have one : (intOf comp.length = 1 ∧ comp[0]? = some dot) ↔ comp = [dot] := by
    rw [intOf_of_lt short]
    cases comp with
    | nil => simp
    | cons c rest =>
        cases rest with
        | nil => simp
        | cons d rest =>
            simp only [List.length_cons, Nat.cast_add]
            exact iff_of_false (fun both => by omega) (by simp)
  have two : (intOf comp.length = 2 ∧ comp[0]? = some dot ∧ comp[1]? = some dot) ↔ comp = [dot, dot] := by
    rw [intOf_of_lt short]
    rcases comp with _ | ⟨c, _ | ⟨d, _ | ⟨e, rest⟩⟩⟩ <;> simp
    omega
  have positive : ¬ intOf comp.length < 0 := by
    rw [intOf_of_lt short]
    omega
  simp only [normalizeStepInt, one, two, if_neg positive]
  by_cases stays : comp = [dot]
  · rw [if_pos stays, normalizeStep, if_pos stays]
  rw [if_neg stays]
  by_cases leaves : comp = [dot, dot]
  · rw [if_pos leaves, ← leaves, indexed, if_pos small]
  · rw [if_neg leaves, intOf_of_lt short, Int.toNat_natCast, List.take_length]
    rw [normalizeStep, if_neg stays, if_neg leaves] at small ⊢
    rw [indexed, if_pos small]

theorem foldlM_normalizeStepInt (small : (joined slash comps).length - 1 + (started isAbsolute).length < 2 ^ 31) :
    comps.foldlM (normalizeStepInt isAbsolute) (started isAbsolute) =
      some (comps.foldl (normalizeStep isAbsolute) (started isAbsolute)) := by
  induction comps using List.reverseRecOn with
  | nil => rfl
  | append_singleton comps comp ih =>
      have index := @length_foldl_normalizeStep isAbsolute (comps ++ [comp])
      have whole : (joined slash (comps ++ [comp])).length = (joined slash comps).length + (comp.length + 1) := by
        rw [joined_append, joined_singleton, List.length_append, List.length_cons]
      rw [List.foldl_append, List.foldl_cons, List.foldl_nil] at index
      rw [List.foldlM_append, ih (by omega), List.foldl_append]
      have step := @normalizeStepInt_eq isAbsolute (comps.foldl (normalizeStep isAbsolute) (started isAbsolute)) comp
        (by omega) (by omega)
      simp [step]

/-- Behind its leading slash, a path has room for its components. -/
theorem length_joined_components (path : CStr) :
    (joined slash (components path)).length - 1 + (started (path.head? == some slash)).length ≤ path.length := by
  have cost := length_components path
  have start : (started (path.head? == some slash)).length = if path.head? == some slash then 1 else 0 := by
    rw [started]
    split_ifs
    · rfl
    · rfl
  cases path with
  | nil => decide
  | cons c rest =>
      rw [start]
      rw [List.length_cons] at cost ⊢
      split_ifs at cost ⊢
      · omega
      · omega

/-- A string of fewer than 2 ^ 31 bytes is normalised as with numbers of any size. -/
theorem normalizePathInt_eq (short : path.length < 2 ^ 31) : normalizePathInt path = some (normalizePath path) := by
  have loop := @foldlM_normalizeStepInt (path.head? == some slash) (components path)
    (Nat.lt_of_le_of_lt (length_joined_components path) short)
  simp only [started] at loop
  simp only [normalizePathInt, normalizePath, loop, Option.map_some]

/-- And the result is no longer than the string, the `.` of an empty one apart. -/
theorem length_normalizePath (path : CStr) : (normalizePath path).length ≤ max 1 path.length := by
  have index := Nat.le_trans (@length_foldl_normalizeStep (path.head? == some slash) (components path))
    (length_joined_components path)
  simp only [started] at index
  simp only [normalizePath]
  split_ifs at index ⊢
  all_goals first | exact Nat.le_max_left _ _ | exact Nat.le_trans index (Nat.le_max_right _ _)

/-- The buffer of `get_user_path` bounds the string that it normalises. -/
theorem normalizePathInt_snprintf (text : CStr) :
    normalizePathInt (snprintf (PATH_MAX * 2) text) = some (normalizePath (snprintf (PATH_MAX * 2) text)) := by
  refine normalizePathInt_eq (Nat.lt_of_le_of_lt (List.length_take_le _ _) ?_)
  decide

end MiniDropbox
