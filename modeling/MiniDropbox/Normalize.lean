/-
What `normalize_path` computes on absolute paths.

The output buffer holds the stack of names read so far, joined by slashes, with a
slash left at the end where a `..` has just been worked off. `normalizePath_writes`
carries that through the loop, so that the names of the result are the lexical
resolution of the names of the input (`components_normalizePath`). For a path of a
user, `liesIn_iff` turns containment of strings into containment of names.
-/

import MiniDropbox.Path

namespace MiniDropbox

open Lexical

/-- The lexical resolution of a list of names. -/
def resolved (names : List CStr) : List CStr := resolve [dot] [dot, dot] names

/-- The buffer holds a stack of names, with or without a slash behind them. -/
def Writes (stack : List CStr) (out : CStr) : Prop :=
  out = joined slash stack ++ [slash] ∨ stack ≠ [] ∧ out = joined slash stack

theorem Writes.components {stack : List CStr} {out : CStr} (writes : Writes stack out)
    (names : ∀ n ∈ stack, IsName slash n) : components out = stack := by
  rcases writes with rfl | ⟨-, rfl⟩
  · rw [MiniDropbox.components, pieces_append, pieces_joined names, pieces_nil, List.append_nil]
  · exact pieces_joined names

/-- Rewinding stops behind the last slash. -/
theorem rewind_to {floor : Nat} {before name after : CStr} (free : slash ∉ name) (low : floor ≤ before.length + 1) :
    ∀ k ≤ name.length, rewind floor (before ++ slash :: (name ++ after)) (before.length + 1 + k) =
      before.length + 1 := by
  intro k
  induction k with
  | zero =>
      intro _
      simp [rewind]
  | succ k ih =>
      intro inside
      have short : k < name.length := inside
      have last : (before ++ slash :: (name ++ after))[before.length + 1 + k]? = some name[k] := by
        rw [List.getElem?_append_right (by omega),
          show before.length + 1 + k - before.length = k + 1 by omega, List.getElem?_cons_succ,
          List.getElem?_append_left short, List.getElem?_eq_getElem short]
      have other : name[k] ≠ slash := fun same => free (same ▸ List.getElem_mem short)
      rw [show before.length + 1 + (k + 1) = before.length + 1 + k + 1 by omega, rewind, last,
        if_pos ⟨by omega, by simpa using other⟩]
      exact ih (Nat.le_of_lt short)

/-- A `..` leaves a slash behind the names that remain. -/
theorem normalizeStep_up {stack : List CStr} {out : CStr} (writes : Writes stack out)
    (names : ∀ n ∈ stack, IsName slash n) :
    normalizeStep true out [dot, dot] = joined slash stack.dropLast ++ [slash] := by
  have other : ([dot, dot] : CStr) ≠ [dot] := by decide
  simp only [normalizeStep, if_neg other, if_true]
  cases stack using List.reverseRecOn with
  | nil =>
      rcases writes with rfl | ⟨stacked, -⟩
      · rfl
      · exact absurd rfl stacked
  | append_singleton stack top =>
      have good := names top (by simp)
      obtain ⟨c, rest, cons⟩ := List.exists_cons_of_ne_nil good.nonempty
      have long : 1 ≤ top.length := by rw [cons]; simp
      rw [List.dropLast_concat]
      obtain ⟨after, k, shape, index, bound⟩ : ∃ after k,
          out = joined slash stack ++ slash :: (top ++ after) ∧
          out.length - 1 = (joined slash stack).length + 1 + k ∧ k ≤ top.length := by
        rcases writes with rfl | ⟨-, rfl⟩
        · exact ⟨[slash], top.length, by simp, by simp; omega, Nat.le_refl _⟩
        · exact ⟨[], top.length - 1, by simp, by simp; omega, Nat.sub_le _ _⟩
      have long' : out.length > 1 := by
        rw [shape]
        simp only [List.length_append, List.length_cons]
        omega
      rw [if_pos long', index, shape, rewind_to good.free (Nat.le_add_left 1 _) k bound, List.take_append,
        List.take_of_length_le (by omega)]
      simp

/-- The last of some joined names does not end in a slash. -/
theorem getLast?_joined {stack : List CStr} (names : ∀ n ∈ stack, IsName slash n) :
    (joined slash stack).getLast? ≠ some slash := by
  cases stack using List.reverseRecOn with
  | nil => simp
  | append_singleton stack top =>
      have good := names top (by simp)
      obtain ⟨init, last, snoc⟩ := List.eq_nil_or_concat top |>.resolve_left good.nonempty
      rw [joined_append, joined_singleton, snoc, List.concat_eq_append, ← List.cons_append, ← List.append_assoc, List.getLast?_concat]
      intro same
      exact good.free (by rw [snoc, Option.some.inj same]; simp)

/-- A name is written behind one slash. -/
theorem normalizeStep_name {stack : List CStr} {out comp : CStr} (writes : Writes stack out)
    (names : ∀ n ∈ stack, IsName slash n) (notDot : comp ≠ [dot]) (notDots : comp ≠ [dot, dot]) :
    normalizeStep true out comp = joined slash (stack ++ [comp]) := by
  rw [normalizeStep, if_neg notDot, if_neg notDots, joined_append, joined_singleton]
  rcases writes with rfl | ⟨nonempty, rfl⟩
  · rw [if_neg (by simp)]
    simp
  · have long : (joined slash stack).length > 0 := by
      rw [joined_eq_cons nonempty]
      exact Nat.succ_pos _
    have other : (joined slash stack)[(joined slash stack).length - 1]? ≠ some slash := by
      rw [← List.getLast?_eq_getElem?]
      exact getLast?_joined names
    rw [if_pos ⟨long, other⟩]
    simp

/-- One component keeps the buffer in step with the stack. -/
theorem normalizeStep_writes {stack : List CStr} {out comp : CStr} (writes : Writes stack out)
    (names : ∀ n ∈ stack, IsName slash n) :
    Writes (push [dot] [dot, dot] stack comp) (normalizeStep true out comp) := by
  unfold push
  by_cases stays : comp = [dot]
  · rw [if_pos stays, normalizeStep, if_pos stays]
    exact writes
  rw [if_neg stays]
  by_cases leaves : comp = [dot, dot]
  · rw [if_pos leaves, leaves, normalizeStep_up writes names]
    exact .inl rfl
  · rw [if_neg leaves, normalizeStep_name writes names stays leaves]
    exact .inr ⟨by simp, rfl⟩

theorem isName_push {stack : List CStr} {comp : CStr} (names : ∀ n ∈ stack, IsName slash n)
    (name : IsName slash comp) : ∀ n ∈ push [dot] [dot, dot] stack comp, IsName slash n := by
  intro n hn
  rcases mem_push hn with old | ⟨rfl, -⟩
  · exact names n old
  · exact name

theorem foldl_normalizeStep_writes {comps : List CStr} :
    ∀ {stack : List CStr} {out : CStr}, Writes stack out → (∀ n ∈ stack, IsName slash n) →
      (∀ n ∈ comps, IsName slash n) →
      Writes (comps.foldl (push [dot] [dot, dot]) stack) (comps.foldl (normalizeStep true) out) := by
  induction comps with
  | nil =>
      intro stack out writes _ _
      exact writes
  | cons comp comps ih =>
      intro stack out writes names good
      have name := good comp List.mem_cons_self
      exact ih (normalizeStep_writes writes names) (isName_push names name)
        fun n hn => good n (List.mem_cons_of_mem _ hn)

/-- On an absolute path the result holds the resolved names. -/
theorem normalizePath_writes {path : CStr} (absolute : path.head? = some slash) :
    Writes (resolved (components path)) (normalizePath path) := by
  have writes := @foldl_normalizeStep_writes (components path) [] [slash] (.inl rfl) (by simp)
    fun n hn => isName_of_mem_pieces hn
  have nonempty : (components path).foldl (normalizeStep true) [slash] ≠ [] := by
    rcases writes with shape | ⟨stacked, shape⟩
    · rw [shape]
      simp
    · rw [shape]
      cases resolution : (components path).foldl (push [dot] [dot, dot]) [] with
      | nil => exact absurd resolution stacked
      | cons n ns => simp [joined]
  simp only [normalizePath, absolute, beq_self_eq_true, if_true, if_neg nonempty]
  exact writes

/-- A proper name is one that a path can end in: it is neither `.` nor `..`. -/
structure Proper (name : CStr) : Prop extends IsName slash name where
  notDot : name ≠ [dot]
  notDots : name ≠ [dot, dot]

theorem proper_of_mem_resolved {path n : CStr} (h : n ∈ resolved (components path)) : Proper n := by
  obtain ⟨mem, notDot, notDots⟩ := mem_resolve h
  exact ⟨isName_of_mem_pieces mem, notDot, notDots⟩

/-- The names of the result are the resolution of the names of the input. -/
theorem components_normalizePath {path : CStr} (absolute : path.head? = some slash) :
    components (normalizePath path) = resolved (components path) :=
  (normalizePath_writes absolute).components fun _ h => (proper_of_mem_resolved h).toIsName

/-! ### Paths of a user -/

variable {libs : Externals} {token : Token}

/-- The names that lead to a user's storage directory. -/
def userPlace (libs : Externals) (token : Token) : List CStr :=
  [cstr "var", cstr "minibox", libs.uuidUnparse token]

/-- A token's text is a name. -/
theorem isName_uuidUnparse (libs : Externals) (token : Token) : IsName slash (libs.uuidUnparse token) := by
  constructor
  · intro empty
    have length := libs.length_uuidUnparse token
    rw [empty] at length
    cases length
  · intro hit
    rcases libs.mem_uuidUnparse token slash hit with dash | digit | letter
    · exact absurd dash (by decide)
    · exact absurd digit (by decide)
    · exact absurd letter (by decide)

theorem plain_of_mem_userPlace {n : CStr} (h : n ∈ userPlace libs token) :
    n ≠ [dot] ∧ n ≠ [dot, dot] := by
  simp only [userPlace, List.mem_cons, List.not_mem_nil, or_false] at h
  rcases h with rfl | rfl | rfl
  · exact ⟨by decide, by decide⟩
  · exact ⟨by decide, by decide⟩
  · constructor
    · intro same
      have length := libs.length_uuidUnparse token
      rw [same] at length
      cases length
    · intro same
      have length := libs.length_uuidUnparse token
      rw [same] at length
      cases length

theorem isName_of_mem_userPlace {n : CStr} (h : n ∈ userPlace libs token) : IsName slash n := by
  simp only [userPlace, List.mem_cons, List.not_mem_nil, or_false] at h
  rcases h with rfl | rfl | rfl
  · exact ⟨by decide, by decide⟩
  · exact ⟨by decide, by decide⟩
  · exact isName_uuidUnparse libs token

theorem getUserRoot_joined (libs : Externals) (token : Token) :
    getUserRoot libs token = joined slash (userPlace libs token) := by
  have storage : STORAGE_DIR = slash :: (cstr "var" ++ slash :: cstr "minibox") := by decide
  rw [getUserRoot_eq, storage]
  simp [userPlace, joined]

/-- A resolved path lies in the user's directory exactly when its names do. -/
theorem liesIn_iff {path : CStr} (writes : Writes (components path) path) :
    LiesIn (getUserRoot libs token) path ↔ userPlace libs token <+: components path := by
  rw [getUserRoot_joined]
  have base : components (joined slash (userPlace libs token)) = userPlace libs token :=
    pieces_joined fun _ => isName_of_mem_userPlace
  constructor
  · rintro (same | ⟨rest, shape⟩)
    · exact ⟨[], by rw [List.append_nil, same, base]⟩
    · refine ⟨pieces slash rest, ?_⟩
      rw [← shape, List.append_assoc, List.singleton_append, components, pieces_append]
      exact congrArg (· ++ pieces slash rest) base.symm
  · rintro ⟨more, names⟩
    rw [← names] at writes
    cases more with
    | nil =>
        rw [List.append_nil] at writes
        rcases writes with shape | ⟨-, shape⟩
        · exact .inr ⟨[], by rw [shape, List.append_nil]⟩
        · exact .inl shape
    | cons n more =>
        refine .inr ?_
        rcases writes with shape | ⟨-, shape⟩
        · exact ⟨n ++ joined slash more ++ [slash], by rw [shape]; simp [joined]⟩
        · exact ⟨n ++ joined slash more, by rw [shape]; simp [joined]⟩

/-- What `get_user_path` returns is a resolved path. -/
theorem getUserPath_writes {raw path : CStr} (found : getUserPath libs raw token = some path) :
    Writes (components path) path ∧ ∀ n ∈ components path, Proper n := by
  simp only [getUserPath] at found
  split_ifs at found
  cases found
  have absolute : (snprintf (PATH_MAX * 2) (getUserRoot libs token ++ slash :: raw)).head? =
      some slash := by
    rw [getUserRoot_joined, userPlace, joined, List.flatMap_cons, snprintf]
    rfl
  rw [components_normalizePath absolute]
  exact ⟨normalizePath_writes absolute, fun _ => proper_of_mem_resolved⟩

end MiniDropbox
