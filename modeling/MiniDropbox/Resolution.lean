/-
Where the paths of a tree lead.

`LeadsTo` is `Leads` from the root within the limits of the kernel; `resolve_of_leadsTo` and
`leadsTo_of_resolve` say that a path that spells its names out is resolved so, and
`resolve_last_iff` where it leads when its last link is not followed. `mkdir` succeeds and
fails accordingly.
-/

import MiniDropbox.Listing

namespace MiniDropbox

open Lexical

theorem kept_set {fs : Fs} {place : Place} {node : Node} (missing : fs.get? place = none) (r : Place) (there : Node)
    (found : fs.get? r = some there) : (fs.set place node).get? r = some there := by
  by_cases root : r = []
  · rw [root] at found ⊢
    exact found
  · rw [get?_set root, if_neg, found]
    rintro rfl
    cases missing.symm.trans found

/-! ### Paths -/

/-- The path that spells the names out. -/
def pathOf (names : List CStr) : CStr := if names = [] then [slash] else joined slash names

/-- The names lead to a place within the limits of the kernel. -/
def LeadsTo (fs : Fs) (names : List CStr) (q : Place) : Prop := ∃ k ≤ 40, Leads fs [] names k q

/-- A path leads to a directory. -/
def IsDirectory (fs : Fs) (path : CStr) : Prop := ∃ q, fs.resolve true path = .ok q ∧ fs.get? q = some .dir

section Paths

variable {fs : Fs} {q : Place} {names : List CStr} {name : CStr}

theorem LeadsTo.unique {q' : Place} (leads : LeadsTo fs names q) (leads' : LeadsTo fs names q') : q' = q := by
  obtain ⟨k, -, leads⟩ := leads
  obtain ⟨k', -, leads'⟩ := leads'
  exact (leads.unique leads').2

theorem origin_joined (some : names ≠ []) : origin fs (joined slash names) = [] := by
  rw [origin, joined_eq_cons some, List.head?_cons, if_pos rfl]

theorem resolve_joined {follow : Bool} (some : names ≠ []) (good : ∀ n ∈ names, IsName slash n)
    (fits : (joined slash names).length < PATH_MAX) :
    fs.resolve follow (joined slash names) = fs.walk follow (42 * PATH_MAX) 40 [] names := by
  have nonempty : joined slash names ≠ [] := by
    rw [joined_eq_cons some]
    exact List.cons_ne_nil _ _
  rw [resolve_eq nonempty fits, origin_joined some, trail, components, pieces_joined good, if_neg (getLast?_joined good),
    List.append_nil]

/-- Where names lead, the path that spells them out leads. -/
theorem resolve_of_leadsTo (short : ShortLinks fs) (good : ∀ n ∈ names, IsName slash n)
    (fits : (joined slash names).length < PATH_MAX) (leads : LeadsTo fs names q) :
    fs.resolve true (pathOf names) = .ok q := by
  obtain ⟨k, few, leads⟩ := leads
  by_cases none : names = []
  · subst none
    cases leads
    have root : fs.get? [] = some .dir := rfl
    have walks : Walks fs true (172030 + 2) 40 [] (trail [slash]) [] := .here root .arrived
    rw [pathOf, if_pos rfl, resolve_eq (List.cons_ne_nil _ _) (by decide)]
    exact walks.walk
  · have count := length_le_joined slash names
    obtain ⟨fuel, left, walked⟩ := @Leads.walks fs [] q names [] k 40 (42 * PATH_MAX) PATH_MAX 1 true short leads few
      (.inr rfl) (by simp only [PATH_MAX] at fits ⊢; omega)
    obtain ⟨fuel, rfl⟩ : ∃ left, fuel = left + 1 := ⟨fuel - 1, by omega⟩
    rw [List.append_nil] at walked
    rw [pathOf, if_neg none, resolve_joined none good fits, walked]
    exact Walks.arrived.walk

/-- Where the path leads to something, the names lead. -/
theorem leadsTo_of_resolve (short : ShortLinks fs) (good : ∀ n ∈ names, IsName slash n)
    (fits : (joined slash names).length < PATH_MAX) (there : fs.get? q ≠ none)
    (resolved : fs.resolve true (pathOf names) = .ok q) : LeadsTo fs names q := by
  by_cases none : names = []
  · subst none
    have root : LeadsTo fs [] [] := ⟨0, Nat.zero_le _, .done⟩
    rw [resolve_of_leadsTo short good fits root] at resolved
    cases resolved
    exact root
  · rw [pathOf, if_neg none, resolve_joined none good fits, ← List.append_nil names] at resolved
    obtain ⟨k, m, fuel, few, leads, rest⟩ := leads_of_walk resolved (.inr ⟨rfl, there⟩)
    obtain rfl := ended_of_walk (.inl rfl) rest
    exact ⟨k, few, leads⟩

/-- A path whose last link is not followed leads to an entry of the directory that the names
before it lead to, whether or not that entry is there. -/
theorem resolve_last_iff (short : ShortLinks fs) (good : ∀ n ∈ names, IsName slash n) (proper : Proper name)
    (fits : (joined slash (names ++ [name])).length < PATH_MAX) :
    fs.resolve false (joined slash (names ++ [name])) = .ok q ↔
      ∃ parent, LeadsTo fs names parent ∧ fs.get? parent = some .dir ∧ name.length ≤ NAME_MAX ∧ q = parent ++ [name] := by
  have last : names ++ [name] ≠ [] := List.append_ne_nil_of_right_ne_nil _ (List.cons_ne_nil _ _)
  have all : ∀ n ∈ names ++ [name], IsName slash n := by
    intro n among
    rcases List.mem_append.mp among with before | same
    · exact good n before
    · rw [List.mem_singleton.mp same]
      exact proper.toIsName
  rw [resolve_name_iff short proper (pieces_joined all) (getLast?_joined all) fits, origin_joined last]
  constructor
  · rintro ⟨k, few, parent, leads, dir, limit, rfl⟩
    exact ⟨parent, ⟨k, few, leads⟩, dir, limit, rfl⟩
  · rintro ⟨parent, ⟨k, few, leads⟩, dir, limit, rfl⟩
    exact ⟨k, few, parent, leads, dir, limit, rfl⟩

/-! ### `mkdir` -/

/-- Joined names are written without a slash at the end. -/
theorem trimSlashes_joined {tail : CStr} (some : names ≠ []) (good : ∀ n ∈ names, IsName slash n)
    (tails : tail = [] ∨ tail = [slash]) : trimSlashes (joined slash names ++ tail) = joined slash names := by
  obtain ⟨init, last, shape⟩ := (List.eq_nil_or_concat (joined slash names)).resolve_left (by
    rw [joined_eq_cons some]
    exact List.cons_ne_nil _ _)
  have plain : last ≠ slash := by
    rintro rfl
    refine getLast?_joined good ?_
    rw [shape, List.concat_eq_append, List.getLast?_concat]
  have nonempty : init ++ [last] ≠ [] := List.append_ne_nil_of_right_ne_nil _ (List.cons_ne_nil _ _)
  rw [List.concat_eq_append] at shape
  rw [shape, trimSlashes]
  rcases tails with rfl | rfl
  · simp [plain]
  · simp [plain]

theorem walk_ne_eexist {follow : Bool} {fuel links : Nat} {p : Place} : fs.walk follow fuel links p names ≠ .error .EEXIST := by
  induction fuel generalizing links p names with
  | zero => exact fun equal => by cases equal
  | succ fuel ih =>
      cases names with
      | nil => exact fun equal => by cases equal
      | cons n names =>
          rw [Fs.walk]
          cases fs.get? p with
          | none => exact fun equal => by cases equal
          | some node =>
              cases node with
              | file bytes => exact fun equal => by cases equal
              | link target => exact fun equal => by cases equal
              | dir =>
                  dsimp only
                  by_cases stays : n = [dot]
                  · rw [if_pos stays]
                    exact ih
                  by_cases up : n = [dot, dot]
                  · rw [if_neg stays, if_pos up]
                    exact ih
                  by_cases long : n.length > NAME_MAX
                  · rw [if_neg stays, if_neg up, if_pos long]
                    exact fun equal => by cases equal
                  rw [if_neg stays, if_neg up, if_neg long]
                  cases fs.get? (p ++ [n]) with
                  | none =>
                      dsimp only
                      split_ifs <;> exact fun equal => by cases equal
                  | some node =>
                      cases node with
                      | file bytes => exact ih
                      | dir => exact ih
                      | link target =>
                          dsimp only
                          split_ifs
                          · exact fun equal => by cases equal
                          · exact fun equal => by cases equal
                          · exact ih
                          · exact ih

theorem resolve_ne_eexist {follow : Bool} {path : CStr} : fs.resolve follow path ≠ .error .EEXIST := by
  rw [Fs.resolve]
  split_ifs
  · exact fun equal => by cases equal
  · exact fun equal => by cases equal
  all_goals exact walk_ne_eexist

theorem mkdir_of_resolve {path : CStr} {place : Place} (resolved : fs.resolve false (trimSlashes path) = .ok place) :
    fs.mkdir path = match fs.get? place with
      | none => .ok (fs.set place .dir)
      | some _ => .error .EEXIST := by
  rw [Fs.mkdir, resolved]
  rfl

theorem mkdir_of_error {path : CStr} {errno : Errno} (failed : fs.resolve false (trimSlashes path) = .error errno) :
    fs.mkdir path = .error errno := by
  rw [Fs.mkdir, failed]
  rfl

/-- A directory is made where the path leads to nothing. -/
theorem mkdir_ok_iff {path : CStr} {fs' : Fs} (short : ShortLinks fs) (good : ∀ n ∈ names, IsName slash n)
    (proper : Proper name) (fits : (joined slash (names ++ [name])).length < PATH_MAX)
    (trimmed : trimSlashes path = joined slash (names ++ [name])) :
    fs.mkdir path = .ok fs' ↔ ∃ parent, LeadsTo fs names parent ∧ fs.get? parent = some .dir ∧ name.length ≤ NAME_MAX ∧
      fs.get? (parent ++ [name]) = none ∧ fs' = fs.set (parent ++ [name]) .dir := by
  constructor
  · intro made
    obtain ⟨place, resolved, missing, rfl⟩ := mkdir_place made
    rw [trimmed, resolve_last_iff short good proper fits] at resolved
    obtain ⟨parent, leads, dir, limit, rfl⟩ := resolved
    exact ⟨parent, leads, dir, limit, missing, rfl⟩
  · rintro ⟨parent, leads, dir, limit, missing, rfl⟩
    have resolved := (resolve_last_iff short good proper fits).mpr ⟨parent, leads, dir, limit, rfl⟩
    rw [← trimmed] at resolved
    rw [mkdir_of_resolve resolved, missing]

/-- `EEXIST` is reported where the path leads to something. -/
theorem mkdir_eexist_iff {path : CStr} (short : ShortLinks fs) (good : ∀ n ∈ names, IsName slash n)
    (proper : Proper name) (fits : (joined slash (names ++ [name])).length < PATH_MAX)
    (trimmed : trimSlashes path = joined slash (names ++ [name])) :
    fs.mkdir path = .error .EEXIST ↔ ∃ parent, LeadsTo fs names parent ∧ fs.get? parent = some .dir ∧
      name.length ≤ NAME_MAX ∧ fs.get? (parent ++ [name]) ≠ none := by
  have entry := fun q => @resolve_last_iff fs q names name short good proper fits
  rw [← trimmed] at entry
  cases resolved : fs.resolve false (trimSlashes path) with
  | error errno =>
      rw [mkdir_of_error resolved, Except.error.injEq]
      constructor
      · rintro rfl
        exact absurd resolved resolve_ne_eexist
      · rintro ⟨parent, leads, dir, limit, -⟩
        cases resolved.symm.trans ((entry _).mpr ⟨parent, leads, dir, limit, rfl⟩)
  | ok place =>
      obtain ⟨parent, leads, dir, limit, rfl⟩ := (entry _).mp resolved
      rw [mkdir_of_resolve resolved]
      constructor
      · intro exists'
        refine ⟨parent, leads, dir, limit, fun missing => ?_⟩
        rw [missing] at exists'
        cases exists'
      · rintro ⟨parent', leads', -, -, there⟩
        rw [leads.unique leads'] at there
        obtain ⟨node, found⟩ := Option.ne_none_iff_exists'.mp there
        rw [found]

end Paths

/-! ### Relative paths and paths through links -/

section Entries

variable {fs : Fs} {path name : CStr} {names : List CStr} {q : Place}

/-- `rmdir` goes to an entry of the directory that the names before the last lead to. -/
theorem resolve_trimmed_iff (short : ShortLinks fs) (proper : Proper name) (split : components path = names ++ [name])
    (fits : path.length < PATH_MAX) :
    fs.resolve false (trimSlashes path) = .ok q ↔ ∃ k ≤ 40, ∃ parent, Leads fs (origin fs path) names k parent ∧
      fs.get? parent = some .dir ∧ name.length ≤ NAME_MAX ∧ q = parent ++ [name] := by
  have some : path ≠ [] := by
    rintro rfl
    cases (List.append_eq_nil_iff.mp split.symm).2
  have named : components path ≠ [] := by
    rw [split]
    exact List.append_ne_nil_of_right_ne_nil _ (List.cons_ne_nil _ _)
  have start : origin fs (trimSlashes path) = origin fs path := by
    rw [origin, origin, head?_trimSlashes some]
  rw [resolve_name_iff short proper ((components_trimSlashes path).trans split) (getLast?_trimSlashes named)
    (Nat.lt_of_le_of_lt (length_trimSlashes_le path) fits), start]

/-- A path that `rmdir` does not refuse ends in a proper name. -/
theorem proper_of_not_refused (named : refusedName (components path).getLast? = none) :
    ∃ names name, components path = names ++ [name] ∧ Proper name := by
  cases last : (components path).getLast? with
  | none =>
      rw [last] at named
      cases named
  | some name =>
      rw [last, refusedName] at named
      obtain ⟨names, split⟩ := List.getLast?_eq_some_iff.mp last
      refine ⟨names, name, split, isName_of_mem_pieces (List.mem_of_getLast? last), ?_, ?_⟩
      · rintro rfl
        cases named
      · rintro rfl
        cases named

end Entries

end MiniDropbox
