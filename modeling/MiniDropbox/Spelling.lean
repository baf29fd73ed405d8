/-
How `normalize_path` spells its result.

An absolute path becomes its resolved names, each behind one slash
(`normalizePath_resolves`), and a slash behind them all if a `..` came last. So two
spellings of one place may be normalised to two strings, and `canonical_iff` says when.
In a relative path a `..` that was kept is a component like any other for the next one, which
takes it back: the buffer holds one of them or none. `normalizePath_relative_iff` says that
the result is right if at most one is left unmatched.
-/

import MiniDropbox.NormalizeInt

namespace MiniDropbox

open Lexical

/-! ### Absolute paths -/

section Absolute

variable {path p q : CStr}

theorem resolved_concat (comps : List CStr) (comp : CStr) :
    resolved (comps ++ [comp]) = push [dot] [dot, dot] (resolved comps) comp := by
  rw [resolved, resolve, List.foldl_append]
  rfl

/-- The last component that is not `.` is `..`. -/
def EndsUp (path : CStr) : Prop := ((components path).filter (· ≠ [dot])).getLast? = some [dot, dot]

instance (path : CStr) : Decidable (EndsUp path) := inferInstanceAs (Decidable (_ = _))

/-- The buffer after some components. -/
theorem foldl_normalizeStep (comps : List CStr) (good : ∀ n ∈ comps, IsName slash n) :
    comps.foldl (normalizeStep true) [slash] = joined slash (resolved comps) ++
      if resolved comps = [] ∨ (comps.filter (· ≠ [dot])).getLast? = some [dot, dot] then [slash] else [] := by
  induction comps using List.reverseRecOn with
  | nil => rfl
  | append_singleton comps comp ih =>
      have earlier : ∀ n ∈ comps, IsName slash n := fun n hn => good n (List.mem_append_left _ hn)
      have writes : Writes (resolved comps) (comps.foldl (normalizeStep true) [slash]) :=
        foldl_normalizeStep_writes (.inl rfl) (by simp) earlier
      have names : ∀ n ∈ resolved comps, IsName slash n := fun n hn => earlier n (mem_resolve hn).1
      rw [List.foldl_append, List.foldl_cons, List.foldl_nil, resolved_concat, List.filter_append, push]
      by_cases stays : comp = [dot]
      · rw [if_pos stays, normalizeStep, if_pos stays, ih earlier, stays]
        simp
      rw [if_neg stays]
      by_cases leaves : comp = [dot, dot]
      · rw [if_pos leaves, leaves, normalizeStep_up writes names, if_pos]
        exact .inr List.getLast?_concat
      · rw [if_neg leaves, normalizeStep_name writes names stays leaves, if_neg, List.append_nil]
        rintro (none | last)
        · exact List.append_ne_nil_of_right_ne_nil _ (List.cons_ne_nil _ _) none
        · rw [List.filter_cons_of_pos (by simpa using stays), List.filter_nil, List.getLast?_concat] at last
          exact leaves (Option.some.inj last)

theorem normalizePath_shape (absolute : path.head? = some slash) :
    normalizePath path = joined slash (resolved (components path)) ++
      if resolved (components path) = [] ∨ EndsUp path then [slash] else [] := by
  have loop := foldl_normalizeStep (components path) fun n hn => isName_of_mem_pieces hn
  have nonempty : (components path).foldl (normalizeStep true) [slash] ≠ [] := by
    rw [loop]
    cases resolution : resolved (components path) with
    | nil => simp
    | cons n names => simp [joined]
  simp only [normalizePath, absolute, beq_self_eq_true, if_true, if_neg nonempty, EndsUp]
  exact loop

theorem head?_normalizePath (absolute : path.head? = some slash) : (normalizePath path).head? = some slash := by
  rw [normalizePath_shape absolute]
  cases resolved (components path) with
  | nil => rfl
  | cons n names => rfl

theorem isName_of_mem_resolved {n : CStr} (mem : n ∈ resolved (components path)) : IsName slash n :=
  (proper_of_mem_resolved mem).toIsName

/-- No two slashes follow each other in a normalised path. -/
theorem normalizePath_single (absolute : path.head? = some slash) : ¬ [slash, slash] <:+: normalizePath path := by
  intro adjacent
  have within : normalizePath path <:+: joined slash (resolved (components path)) ++ [slash] := by
    rw [normalizePath_shape absolute]
    split_ifs
    · exact List.infix_rfl
    · rw [List.append_nil]
      exact (List.prefix_append _ _).isInfix
  obtain ⟨before, behind, split⟩ := adjacent.trans within
  have chain := @isChain_joined _ slash (resolved (components path)) fun _ => isName_of_mem_resolved
  rw [← split] at chain
  exact List.isChain_pair.mp chain.left_of_append.right_of_append rfl rfl

/-- An absolute path is resolved: the names of the result are the stack that its components
leave, and the result is written with single slashes. -/
def Resolves (path : CStr) : Prop :=
  ∃ out, normalizePathInt path = some out ∧ components out = resolved (components path) ∧
    out.head? = some slash ∧ (∀ n ∈ components out, n ≠ [dot] ∧ n ≠ [dot, dot]) ∧ ¬ [slash, slash] <:+: out

theorem absolute_resolved (absolute : path.head? = some slash) (short : path.length < 2 ^ 31) : Resolves path := by
  have names := components_normalizePath absolute
  refine ⟨normalizePath path, normalizePathInt_eq short, names, head?_normalizePath absolute, ?_,
    normalizePath_single absolute⟩
  intro n mem
  rw [names] at mem
  exact ⟨(proper_of_mem_resolved mem).notDot, (proper_of_mem_resolved mem).notDots⟩

theorem absolute_resolved_dots : Resolves (cstr "/a//./b/../../../c") := absolute_resolved rfl (by decide)

/-- A `.` and 2 ^ 32 letters: as an `int`, the length of the component is 1. -/
def longName : CStr := dot :: List.replicate (2 ^ 32) 97

theorem isName_longName : IsName slash longName := by
  refine ⟨List.cons_ne_nil _ _, fun mem => ?_⟩
  rcases List.mem_cons.mp mem with same | letter
  · exact absurd same (by decide)
  · exact absurd (List.eq_of_mem_replicate letter) (by decide)

theorem components_name {name : CStr} (good : IsName slash name) : components (slash :: name) = [name] := by
  have behind : components (slash :: name) = components name := pieces_append [] name
  rw [behind, components, pieces_of_isName good]

/-- A name with a length of 1 passes for a `.` if it begins with one. -/
theorem normalizePathInt_dropped {name : CStr} (good : IsName slash name) (one : intOf name.length = 1)
    (first : name[0]? = some dot) : normalizePathInt (slash :: name) = some [slash] := by
  have skipped : normalizeStepInt true [slash] name = some [slash] := by
    rw [normalizeStepInt, if_pos ⟨one, first⟩]
  rw [normalizePathInt, components_name good]
  simp [skipped]

theorem resolved_name {name : CStr} (long : 2 < name.length) : resolved [name] = [name] := by
  have plain : ∀ n ∈ [name], n ≠ [dot] ∧ n ≠ [dot, dot] := by
    intro n mem
    rw [List.mem_singleton.mp mem]
    constructor
    all_goals
      rintro rfl
      exact absurd long (by decide)
  rw [resolved, resolve, foldl_push_of_plain plain]
  rfl

/-- The component of a longer string may be dropped. -/
theorem absolute_long : 0 ∉ slash :: longName ∧ (slash :: longName).head? = some slash ∧ ¬ Resolves (slash :: longName) := by
  refine ⟨fun mem => ?_, rfl, ?_⟩
  · rcases List.mem_cons.mp mem with same | mem
    · exact absurd same (by decide)
    rcases List.mem_cons.mp mem with same | letter
    · exact absurd same (by decide)
    · exact absurd (List.eq_of_mem_replicate letter) (by decide)
  · rintro ⟨out, result, names, -⟩
    have size : longName.length = 2 ^ 32 + 1 := by
      rw [longName, List.length_cons, List.length_replicate]
    have one : intOf longName.length = 1 := by
      rw [size]
      decide
    have root := (normalizePathInt_dropped isName_longName one List.getElem?_cons_zero).symm.trans result
    rw [← Option.some.inj root, components_name isName_longName, resolved_name (by rw [size]; decide)] at names
    cases names

/-- The result ends in a slash if it is the root, or where a `..` came last. -/
theorem getLast?_normalizePath (absolute : path.head? = some slash) :
    (normalizePath path).getLast? = some slash ↔ resolved (components path) = [] ∨ EndsUp path := by
  rw [normalizePath_shape absolute]
  split_ifs with slashed
  · rw [List.getLast?_concat]
    exact ⟨fun _ => slashed, fun _ => rfl⟩
  · rw [List.append_nil]
    exact ⟨fun last => absurd last (getLast?_joined fun _ => isName_of_mem_resolved), fun up => absurd up slashed⟩

theorem normalizePath_eq_slash (absolute : path.head? = some slash) (root : resolved (components path) = []) :
    normalizePath path = [slash] := by
  rw [normalizePath_shape absolute, root, if_pos (.inl rfl)]
  rfl

theorem normalizePath_eq_joined (absolute : path.head? = some slash) (below : resolved (components path) ≠ [])
    (name : ¬ EndsUp path) : normalizePath path = joined slash (resolved (components path)) := by
  rw [normalizePath_shape absolute, if_neg (not_or.mpr ⟨below, name⟩), List.append_nil]

/-- Resolved names are resolved to themselves. -/
theorem resolved_resolved (path : CStr) : resolved (resolved (components path)) = resolved (components path) := by
  rw [resolved, resolve, foldl_push_of_plain fun n mem =>
    ⟨(proper_of_mem_resolved mem).notDot, (proper_of_mem_resolved mem).notDots⟩]
  rfl

/-- Two spellings of one place are normalised to the same string, which is its own
normalisation and ends in a slash only if it is the root. -/
structure SameSpelling (p q : CStr) : Prop where
  same : normalizePath p = normalizePath q
  idempotent : normalizePath (normalizePath p) = normalizePath p
  bare : (normalizePath p).getLast? = some slash → normalizePath p = [slash]

/-- Exactly at the root, and where neither of the spellings ends in a `..`. -/
theorem sameSpelling_iff (absolute : p.head? = some slash) (absolute' : q.head? = some slash)
    (agree : resolved (components p) = resolved (components q)) :
    SameSpelling p q ↔ resolved (components p) = [] ∨ ¬ EndsUp p ∧ ¬ EndsUp q := by
  constructor
  · intro same
    by_cases root : resolved (components p) = []
    · exact .inl root
    refine .inr ?_
    have name : ¬ EndsUp p := by
      intro up
      have single := same.bare ((getLast?_normalizePath absolute).mpr (.inr up))
      have names := components_normalizePath absolute
      rw [single] at names
      exact root names.symm
    refine ⟨name, fun up => ?_⟩
    have last := (getLast?_normalizePath absolute').mpr (.inr up)
    rw [← same.same] at last
    rcases (getLast?_normalizePath absolute).mp last with none | up
    · exact root none
    · exact name up
  · intro condition
    by_cases root : resolved (components p) = []
    · have single := normalizePath_eq_slash absolute root
      refine ⟨?_, ?_, fun _ => single⟩
      · rw [single, normalizePath_eq_slash absolute' (agree ▸ root)]
      · rw [single]
        rfl
    · obtain ⟨name, name'⟩ := condition.resolve_left root
      have shape := normalizePath_eq_joined absolute root name
      refine ⟨?_, ?_, fun last => ?_⟩
      · rw [shape, normalizePath_eq_joined absolute' (agree ▸ root) name', agree]
      · have names := components_normalizePath absolute
        have plain : ¬ EndsUp (normalizePath p) := by
          intro up
          rw [EndsUp, names] at up
          exact (proper_of_mem_resolved (List.mem_filter.mp (List.mem_of_getLast? up)).1).notDots rfl
        have again : resolved (components (normalizePath p)) = resolved (components p) := by
          rw [names, resolved_resolved]
        rw [normalizePath_eq_joined (head?_normalizePath absolute) (again ▸ root) plain, again, shape]
      · rcases (getLast?_normalizePath absolute).mp last with none | up
        · exact absurd none root
        · exact absurd up name

/-- What the source makes of two spellings of one place: one string, which is its own
normalisation and ends in a slash only if it is the root. -/
def Canonical (p q : CStr) : Prop :=
  ∃ out, normalizePathInt p = some out ∧ normalizePathInt q = some out ∧ normalizePathInt out = some out ∧
    (out.getLast? = some slash → out = [slash])

/-- When `normalize_path` is canonical: exactly at the root, and where neither of the
spellings ends in a `..`. -/
theorem canonical_iff (absolute : p.head? = some slash) (absolute' : q.head? = some slash)
    (short : p.length < 2 ^ 31) (short' : q.length < 2 ^ 31)
    (agree : resolved (components p) = resolved (components q)) :
    Canonical p q ↔ resolved (components p) = [] ∨ ¬ EndsUp p ∧ ¬ EndsUp q := by
  have again : (normalizePath p).length < 2 ^ 31 :=
    Nat.lt_of_le_of_lt (length_normalizePath p) (Nat.max_lt.mpr ⟨by decide, short⟩)
  rw [← sameSpelling_iff absolute absolute' agree, Canonical, normalizePathInt_eq short, normalizePathInt_eq short']
  constructor
  · rintro ⟨out, result, result', fixed, bare⟩
    obtain rfl := Option.some.inj result
    rw [normalizePathInt_eq again] at fixed
    exact ⟨(Option.some.inj result').symm, Option.some.inj fixed, bare⟩
  · intro same
    refine ⟨normalizePath p, rfl, congrArg some same.same.symm, ?_, same.bare⟩
    rw [normalizePathInt_eq again, same.idempotent]

theorem canonical_spellings : Canonical (cstr "/a//b/./c") (cstr "/a/x/../b/c") := by
  refine (canonical_iff rfl rfl (by decide) (by decide) (by decide)).mpr (.inr ⟨?_, ?_⟩)
  · exact (by decide : ((components (cstr "/a//b/./c")).filter (· ≠ [dot])).getLast? ≠ some [dot, dot])
  · exact (by decide : ((components (cstr "/a/x/../b/c")).filter (· ≠ [dot])).getLast? ≠ some [dot, dot])

/-- `/a/b/..` keeps a slash that `/a` does not have. -/
theorem canonical_slashed :
    (cstr "/a/b/..").head? = some slash ∧ (cstr "/a").head? = some slash ∧
      resolved (components (cstr "/a/b/..")) = resolved (components (cstr "/a")) ∧
      ¬ Canonical (cstr "/a/b/..") (cstr "/a") := by
  refine ⟨rfl, rfl, by decide, ?_⟩
  rintro ⟨out, result, result', -⟩
  exact absurd (result.trans result'.symm) (by decide)

end Absolute

/-! ### Relative paths -/

section Relative

variable {path : CStr}

/-- A stack of names in the buffer, without a slash before them. -/
def written (stack : List CStr) : CStr := (joined slash stack).tail

theorem written_concat {stack : List CStr} {top : CStr} (nonempty : stack ≠ []) :
    written (stack ++ [top]) = written stack ++ slash :: top := by
  rw [written, written, joined_append, joined_singleton, joined_eq_cons nonempty]
  rfl

theorem written_append {stack : List CStr} {top : CStr} :
    ∃ before, written (stack ++ [top]) = before ++ top := by
  by_cases alone : stack = []
  · exact ⟨[], by rw [alone, written, List.nil_append, joined_singleton]; rfl⟩
  · exact ⟨written stack ++ [slash], by rw [written_concat alone, List.append_assoc, List.singleton_append]⟩

/-- The test for a kept `..` is one for a component `.`, which is never written. -/
theorem endsInDot_append {before name : CStr} (good : IsName slash name) (plain : name ≠ [dot]) :
    endsInDot (before ++ name) = false := by
  obtain ⟨init, last, rfl⟩ := List.eq_nil_or_concat name |>.resolve_left good.nonempty
  rw [List.concat_eq_append] at *
  rw [← List.append_assoc, endsInDot, List.length_append, List.length_singleton, Nat.add_sub_cancel,
    List.getElem?_concat_length]
  by_cases ends : last = dot
  · have more : init ≠ [] := by
      rintro rfl
      exact plain (by rw [ends]; rfl)
    obtain ⟨init, other, rfl⟩ := List.eq_nil_or_concat init |>.resolve_left more
    rw [List.concat_eq_append] at *
    have letter : other ≠ slash := by
      rintro rfl
      exact good.free (by simp)
    have index : (before ++ (init ++ [other])).length + 1 - 2 = (before ++ init).length := by
      simp only [List.length_append, List.length_singleton]
      omega
    have second : (before ++ (init ++ [other]) ++ [last])[(before ++ init).length]? = some other := by
      rw [← List.append_assoc before, List.append_assoc (before ++ init), List.singleton_append,
        List.getElem?_append_right (Nat.le_refl _), Nat.sub_self]
      rfl
    have two : ¬ (before ++ (init ++ [other])).length + 1 < 2 := by
      simp only [List.length_append, List.length_singleton]
      omega
    rw [index, second, decide_eq_false two]
    simp [letter]
  · simp [ends]

/-- Without a slash before it, rewinding stops at the beginning. -/
theorem rewind_zero {name : CStr} (free : slash ∉ name) : ∀ k ≤ name.length, rewind 0 name k = 0 := by
  intro k
  induction k with
  | zero =>
      intro _
      rfl
  | succ k ih =>
      intro inside
      have other : name[k] ≠ slash := fun same => free (same ▸ List.getElem_mem inside)
      rw [rewind, List.getElem?_eq_getElem inside, if_pos ⟨Nat.succ_pos k, by simpa using other⟩]
      exact ih (Nat.le_of_lt inside)

/-- What a component does to the names in the buffer. The second `..` in a row takes back
the first. -/
theorem normalizeStep_written {stack : List CStr} {comp : CStr} (names : ∀ n ∈ stack, IsName slash n)
    (plain : ∀ n ∈ stack, n ≠ [dot]) :
    normalizeStep false (written stack) comp =
      if comp = [dot] then written stack
      else if comp = [dot, dot] then
        if stack = [] then [dot, dot] else written stack.dropLast
      else written (stack ++ [comp]) := by
  have other : ([dot, dot] : CStr) ≠ [dot] := by decide
  by_cases stays : comp = [dot]
  · rw [if_pos stays, normalizeStep, if_pos stays]
  rw [if_neg stays]
  cases stack using List.reverseRecOn with
  | nil =>
      by_cases leaves : comp = [dot, dot]
      · rw [if_pos leaves, if_pos rfl, leaves]
        decide
      · rw [if_neg leaves, normalizeStep, if_neg stays, if_neg leaves]
        simp [written, joined]
  | append_singleton stack top =>
      have good := names top (by simp)
      have notDot := plain top (by simp)
      obtain ⟨before, shape⟩ := @written_append stack top
      have long : (written (stack ++ [top])).length > 0 := by
        rw [shape, List.length_append]
        exact Nat.add_pos_right _ (List.length_pos_iff.mpr good.nonempty)
      by_cases leaves : comp = [dot, dot]
      · have up : ¬ endsInDot (written (stack ++ [top])) := by
          rw [shape, endsInDot_append good notDot]
          decide
        rw [if_pos leaves, if_neg (List.append_ne_nil_of_right_ne_nil _ (List.cons_ne_nil _ _)), List.dropLast_concat,
          leaves]
        simp only [normalizeStep, if_neg other, if_true, Bool.false_eq_true, if_false]
        rw [if_pos ⟨long, up⟩]
        by_cases alone : stack = []
        · have single : written (stack ++ [top]) = top := by
            rw [alone, written, List.nil_append, joined_singleton]
            rfl
          rw [single, rewind_zero good.free _ (Nat.sub_le _ _), alone]
          rfl
        · have index : (written (stack ++ [top])).length - 1 = (written stack).length + 1 + (top.length - 1) := by
            rw [written_concat alone, List.length_append, List.length_cons]
            have := List.length_pos_iff.mpr good.nonempty
            omega
          have stops := @rewind_to 0 (written stack) top [] good.free (Nat.zero_le _) (top.length - 1) (Nat.sub_le _ _)
          rw [List.append_nil] at stops
          rw [index, written_concat alone, stops, if_pos (Nat.succ_pos _), Nat.add_sub_cancel, List.take_left]
      · rw [if_neg leaves]
        have last : (written (stack ++ [top]))[(written (stack ++ [top])).length - 1]? ≠ some slash := by
          rw [← List.getLast?_eq_getElem?, shape, List.getLast?_append_of_ne_nil _ good.nonempty]
          intro same
          exact good.free (List.mem_of_getLast? same)
        rw [normalizeStep, if_neg stays, if_neg leaves, if_pos ⟨long, last⟩,
          written_concat (List.append_ne_nil_of_right_ne_nil _ (List.cons_ne_nil _ _)), List.append_assoc,
          List.singleton_append]

theorem written_ne_nil {stack : List CStr} (names : ∀ n ∈ stack, IsName slash n) (nonempty : stack ≠ []) :
    written stack ≠ [] := by
  obtain ⟨stack, top, rfl⟩ := List.eq_nil_or_concat stack |>.resolve_left nonempty
  rw [List.concat_eq_append] at *
  obtain ⟨before, shape⟩ := @written_append stack top
  rw [shape]
  exact List.append_ne_nil_of_right_ne_nil _ (names top (by simp)).nonempty

/-- How far up a relative path leads, and its names from there. -/
def ascended (path : CStr) : Nat × List CStr := ascend [dot] [dot, dot] (components path)

/-- The spelling of a relative place. -/
def spelled (place : Nat × List CStr) : CStr :=
  if place = (0, []) then [dot] else [slash].intercalate (List.replicate place.1 [dot, dot] ++ place.2)

/-- The names in the buffer: of the `..` that are left unmatched, one or none. -/
def held (place : Nat × List CStr) : List CStr := List.replicate (place.1 % 2) [dot, dot] ++ place.2

theorem mem_held {place : Nat × List CStr} (names : ∀ n ∈ place.2, IsName slash n ∧ n ≠ [dot]) {n : CStr}
    (mem : n ∈ held place) : IsName slash n ∧ n ≠ [dot] := by
  rcases List.mem_append.mp mem with up | below
  · rw [List.eq_of_mem_replicate up]
    exact ⟨⟨by decide, by decide⟩, by decide⟩
  · exact names n below

/-- One component keeps the buffer in step with the place. -/
theorem normalizeStep_climb {place : Nat × List CStr} (names : ∀ n ∈ place.2, IsName slash n ∧ n ≠ [dot])
    (comp : CStr) :
    normalizeStep false (written (held place)) comp = written (held (climb [dot] [dot, dot] place comp)) := by
  rw [normalizeStep_written (fun n mem => (mem_held names mem).1) fun n mem => (mem_held names mem).2, climb]
  by_cases stays : comp = [dot]
  · rw [if_pos stays, if_pos stays]
  rw [if_neg stays, if_neg stays]
  by_cases leaves : comp = [dot, dot]
  · rw [if_pos leaves, if_pos leaves]
    obtain ⟨ups, stack⟩ := place
    cases stack using List.reverseRecOn with
    | nil =>
        rw [if_pos rfl, held, held]
        rcases Nat.mod_two_eq_zero_or_one ups with even | odd
        · rw [even, show (ups + 1) % 2 = 1 by omega]
          rfl
        · rw [odd, show (ups + 1) % 2 = 0 by omega]
          rfl
    | append_singleton stack top =>
        have more : stack ++ [top] ≠ [] := List.append_ne_nil_of_right_ne_nil _ (List.cons_ne_nil _ _)
        rw [if_neg more, held, held, if_neg (List.append_ne_nil_of_right_ne_nil _ more), ← List.append_assoc,
          List.dropLast_concat, List.dropLast_concat]
  · rw [if_neg leaves, if_neg leaves, held, held, List.append_assoc]

theorem mem_climb {place : Nat × List CStr} {comp n : CStr} (mem : n ∈ (climb [dot] [dot, dot] place comp).2) :
    n ∈ place.2 ∨ n = comp ∧ n ≠ [dot] := by
  unfold climb at mem
  split_ifs at mem with stays leaves root
  · exact .inl mem
  · cases mem
  · exact .inl (List.dropLast_subset _ mem)
  · rcases List.mem_append.mp mem with old | new
    · exact .inl old
    · rw [List.mem_singleton] at new
      exact .inr ⟨new, new ▸ stays⟩

theorem foldl_normalizeStep_climb {comps : List CStr} :
    ∀ {place : Nat × List CStr}, (∀ n ∈ place.2, IsName slash n ∧ n ≠ [dot]) → (∀ n ∈ comps, IsName slash n) →
      comps.foldl (normalizeStep false) (written (held place)) =
          written (held (comps.foldl (climb [dot] [dot, dot]) place)) ∧
        ∀ n ∈ (comps.foldl (climb [dot] [dot, dot]) place).2, IsName slash n ∧ n ≠ [dot] := by
  induction comps with
  | nil =>
      intro place names _
      exact ⟨rfl, names⟩
  | cons comp comps ih =>
      intro place names good
      rw [List.foldl_cons, List.foldl_cons, normalizeStep_climb names]
      refine ih ?_ fun n hn => good n (List.mem_cons_of_mem _ hn)
      intro n mem
      rcases mem_climb mem with old | ⟨rfl, plain⟩
      · exact names n old
      · exact ⟨good n List.mem_cons_self, plain⟩

theorem ascended_names {n : CStr} (mem : n ∈ (ascended path).2) : IsName slash n ∧ n ≠ [dot] :=
  (@foldl_normalizeStep_climb (components path) (0, []) nofun fun _ hn => isName_of_mem_pieces hn).2 n mem

/-- What a relative path is normalised to. -/
theorem normalizePath_relative (relative : path.head? ≠ some slash) :
    normalizePath path = spelled ((ascended path).1 % 2, (ascended path).2) := by
  have start : (path.head? == some slash) = false := beq_eq_false_iff_ne.mpr relative
  have buffer : (components path).foldl (normalizeStep false) [] = written (held (ascended path)) :=
    (@foldl_normalizeStep_climb (components path) (0, []) nofun fun _ hn => isName_of_mem_pieces hn).1
  simp only [normalizePath, start, Bool.false_eq_true, if_false, buffer, spelled]
  by_cases empty : held (ascended path) = []
  · obtain ⟨even, none⟩ := List.append_eq_nil_iff.mp empty
    rw [empty, none, (List.replicate_eq_nil_iff _).mp even]
    rfl
  · have long := written_ne_nil (fun n mem => (mem_held (fun _ => ascended_names) mem).1) empty
    have other : ((ascended path).1 % 2, (ascended path).2) ≠ (0, []) := by
      intro same
      obtain ⟨even, none⟩ := Prod.mk.inj same
      exact empty (by rw [held, even, none]; rfl)
    rw [if_neg long, if_neg other, written, joined_eq_cons empty]
    rfl

/-- The components of a spelling. -/
theorem components_spelled {place : Nat × List CStr} (names : ∀ n ∈ place.2, IsName slash n) :
    components (spelled place) =
      if place = (0, []) then [[dot]] else List.replicate place.1 [dot, dot] ++ place.2 := by
  rw [spelled]
  split_ifs with root
  · decide
  · have nonempty : List.replicate place.1 [dot, dot] ++ place.2 ≠ [] := by
      intro empty
      obtain ⟨zero, none⟩ := List.append_eq_nil_iff.mp empty
      exact root (Prod.ext ((List.replicate_eq_nil_iff _).mp zero) none)
    have good : ∀ n ∈ List.replicate place.1 [dot, dot] ++ place.2, IsName slash n := by
      intro n mem
      rcases List.mem_append.mp mem with up | below
      · rw [List.eq_of_mem_replicate up]
        exact ⟨by decide, by decide⟩
      · exact names n below
    have whole := pieces_joined good
    rw [joined_eq_cons nonempty, ← List.nil_append (slash :: _), pieces_append, pieces_nil, List.nil_append] at whole
    exact whole

/-- At most one `..` is kept. -/
theorem normalizePath_eq_spelled (relative : path.head? ≠ some slash) :
    normalizePath path = spelled (ascended path) ↔ (ascended path).1 ≤ 1 := by
  rw [normalizePath_relative relative]
  constructor
  · intro same
    by_contra high
    have names : ∀ n ∈ (ascended path).2, IsName slash n := fun n mem => (ascended_names mem).1
    have parts := congrArg components same
    have other : ascended path ≠ (0, []) := by
      intro root
      rw [root] at high
      exact high (Nat.zero_le 1)
    rw [components_spelled names, @components_spelled ((ascended path).1 % 2, (ascended path).2) names,
      if_neg other] at parts
    have fewer : (ascended path).1 % 2 < (ascended path).1 := by omega
    split_ifs at parts with root
    · have lengths := congrArg List.length parts
      rw [List.length_singleton, List.length_append, List.length_replicate] at lengths
      omega
    · have lengths := congrArg List.length parts
      simp only [List.length_append, List.length_replicate] at lengths
      omega
  · intro low
    rw [Nat.mod_eq_of_lt (Nat.lt_succ_of_le low)]

/-- When a relative path is resolved by the source: exactly if at most one `..` is left
unmatched. -/
theorem relative_resolved_iff (relative : path.head? ≠ some slash) (short : path.length < 2 ^ 31) :
    normalizePathInt path = some (spelled (ascended path)) ↔ (ascended path).1 ≤ 1 := by
  rw [normalizePathInt_eq short, Option.some.injEq, normalizePath_eq_spelled relative]

theorem relative_resolved_up :
    normalizePathInt (cstr "a/../../b/./c") = some (spelled (ascended (cstr "a/../../b/./c"))) :=
  (relative_resolved_iff (by decide) (by decide)).mpr (by decide)

/-- `../..` is normalised to `.`. -/
theorem relative_cancelled :
    (cstr "../..").head? ≠ some slash ∧
      normalizePathInt (cstr "../..") ≠ some (spelled (ascended (cstr "../.."))) := by
  decide

end Relative

end MiniDropbox
