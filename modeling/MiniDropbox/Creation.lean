/-
`create_directories_from_path`, for any root and any path.

Below its root the function makes the directories that `directories` lists, or as many as it
can (`createDirectoriesFromPath_inside`). `createsSoundly_iff` says when it does what it should:
not for a path that only begins with the letters of the root, not where something else than
a directory stands at the target, and not for the first name below `/`, which it passes over.
-/

import Mathlib.Data.List.Flatten
import MiniDropbox.Directories

namespace MiniDropbox

open Lexical

/-- An absolute path in the normal form, as the kernel takes it. -/
structure IsRoot (root : CStr) : Prop where
  absolute : root.head? = some slash
  normalized : normalizePath root = root
  free : 0 ∉ root

/-- The names of what a path below a root resolves to. -/
def targetNames (root userPath : CStr) : List CStr := resolved (components (root ++ slash :: userPath))

/-- The slash the normalised path ends in, if it does. -/
def targetTail (root userPath : CStr) : CStr :=
  if targetNames root userPath = [] ∨ EndsUp (root ++ slash :: userPath) then [slash] else []

/-- The paths that are handed to `mkdir` when the target lies below the root: one for each
name behind the root. Behind `/` the first one is passed over. -/
def directories (root userPath : CStr) : List CStr :=
  match components root with
  | [] =>
      match targetNames root userPath with
      | [] => []
      | n :: rest => ways [n] rest (targetTail root userPath)
  | front => ways front ((targetNames root userPath).drop front.length) (targetTail root userPath)

section Roots

variable {root userPath : CStr}

/-- A root is spelled out by its names. -/
theorem IsRoot.eq (isRoot : IsRoot root) : root = pathOf (components root) := by
  have names := components_normalizePath isRoot.absolute
  rw [isRoot.normalized] at names
  have shape := normalizePath_shape isRoot.absolute
  rw [isRoot.normalized, ← names] at shape
  have plain : ∀ n ∈ components root, Proper n := fun n among => proper_of_mem_resolved (names ▸ among)
  have down : ¬ EndsUp root := by
    intro up
    have last := List.mem_of_getLast? up
    exact (plain _ (List.mem_filter.mp last).1).notDots rfl
  rw [pathOf]
  by_cases none : components root = []
  · rw [if_pos none]
    rw [none, if_pos (.inl rfl)] at shape
    exact shape
  · rw [if_neg none]
    rw [if_neg (not_or.mpr ⟨none, down⟩), List.append_nil] at shape
    exact shape

theorem IsRoot.proper (isRoot : IsRoot root) : ∀ n ∈ components root, Proper n := by
  intro n among
  rw [← isRoot.normalized, components_normalizePath isRoot.absolute] at among
  exact proper_of_mem_resolved among

theorem IsRoot.below (isRoot : IsRoot root) : (root ++ slash :: userPath).head? = some slash := by
  have absolute := isRoot.absolute
  cases root with
  | nil => cases absolute
  | cons c root => exact absolute

/-- The normalised path of the target. -/
theorem normalizePath_target (isRoot : IsRoot root) :
    normalizePath (root ++ slash :: userPath) = joined slash (targetNames root userPath) ++ targetTail root userPath :=
  normalizePath_shape isRoot.below

/-- What a path below a root normalises to has no more letters than it. -/
theorem length_joined_target (isRoot : IsRoot root) :
    (joined slash (targetNames root userPath)).length ≤ (root ++ slash :: userPath).length := by
  have resolving : (joined slash (targetNames root userPath)).length ≤
      (joined slash (components (root ++ slash :: userPath))).length :=
    ((resolve_sublist (components (root ++ slash :: userPath))).flatMap (slash :: ·)).length_le
  have absolute := @IsRoot.below root userPath isRoot
  cases path : root ++ slash :: userPath with
  | nil =>
      rw [path] at absolute
      cases absolute
  | cons c rest =>
      rw [path] at absolute resolving
      cases absolute
      have names : components (slash :: rest) = components rest := @pieces_append _ slash _ [] rest
      rw [names] at resolving
      exact Nat.le_trans resolving (length_joined_pieces rest)

theorem targetTail_cases : targetTail root userPath = [] ∨ targetTail root userPath = [slash] := by
  rw [targetTail]
  split_ifs
  · exact .inr rfl
  · exact .inl rfl

theorem targetNames_proper : ∀ n ∈ targetNames root userPath, Proper n := fun _ => proper_of_mem_resolved

/-- Below a root that is not `/`, one directory for each name behind it. -/
theorem directories_of_split {rest : List CStr} (named : components root ≠ [])
    (split : components root ++ rest = targetNames root userPath) :
    directories root userPath = ways (components root) rest (targetTail root userPath) := by
  rw [directories]
  cases parts : components root with
  | nil => exact absurd parts named
  | cons top init =>
      dsimp only
      rw [← split, parts, List.drop_left]

/-- The names of the target are spelled within the limits. -/
theorem spelled_target (isRoot : IsRoot root) (fits : (root ++ slash :: userPath).length < PATH_MAX) :
    Spelled (targetNames root userPath) (targetTail root userPath) :=
  ⟨targetNames_proper, targetTail_cases, Nat.lt_of_le_of_lt (length_joined_target isRoot) fits⟩

theorem length_root (fits : (root ++ slash :: userPath).length < PATH_MAX) : root.length < PATH_MAX :=
  Nat.lt_of_le_of_lt (List.prefix_append root (slash :: userPath)).length_le fits

/-- The calls of the loop are those of the list. -/
theorem mkdirCalls_target (isRoot : IsRoot root) (free : 0 ∉ userPath)
    (inside : components root <+: targetNames root userPath) :
    let path := normalizePath (root ++ slash :: userPath)
    mkdirCalls (path.length + 1) (pathNextDir ⟨[], 0, 0⟩ (some path) (root.length - 1)).2 = directories root userPath := by
  intro path
  have clean : 0 ∉ path := by
    intro zero
    rcases mem_normalizePath isRoot.below zero with same | letter
    · exact absurd same (by decide)
    · rcases List.mem_append.mp letter with before | behind
      · exact isRoot.free before
      · rcases List.mem_cons.mp behind with same | letter
        · exact absurd same (by decide)
        · exact free letter
  have shape : path = joined slash (targetNames root userPath) ++ targetTail root userPath := normalizePath_target isRoot
  have tails := @targetTail_cases root userPath
  have rootEq := isRoot.eq
  have names : ∀ n ∈ targetNames root userPath, slash ∉ n := fun n among => (targetNames_proper n among).free
  obtain ⟨rest, split⟩ := inside
  have behind : ∀ later : List CStr, joined slash later ++ targetTail root userPath = [] ∨
      (joined slash later ++ targetTail root userPath).head? = some slash := by
    intro later
    cases later with
    | nil => exact tails.imp id fun slashed => by rw [slashed]; rfl
    | cons n later => exact .inr rfl
  cases parts : components root with
  | nil =>
      rw [parts] at rootEq split
      have one : (root.length : Int) - 1 = 0 := by
        rw [rootEq]
        rfl
      rw [one, directories, parts]
      cases target : targetNames root userPath with
      | nil =>
          have slashed : targetTail root userPath = [slash] := by
            rw [targetTail, if_pos (.inl target)]
          rw [target, slashed] at shape
          have cut := @pathNextDir_slash [] [] ⟨[], 0, 0⟩ (by decide) List.not_mem_nil (.inl rfl)
          have length : path.length = 1 := by rw [shape]; rfl
          have whole : path = slash :: ([] ++ []) := shape
          rw [length, whole]
          exact mkdirCalls_end cut
      | cons n later =>
          rw [target] at shape names
          have whole : path = slash :: (n ++ (joined slash later ++ targetTail root userPath)) := by
            rw [shape, joined_cons, List.cons_append, List.append_assoc]
          have cut := @pathNextDir_slash n (joined slash later ++ targetTail root userPath) ⟨[], 0, 0⟩ (whole ▸ clean)
            (names n List.mem_cons_self) (behind later)
          rw [← whole, ← @joined_singleton _ slash n, shape] at cut
          rw [shape] at clean
          refine mkdirCalls_ways (fun m hm => names m (List.mem_cons_of_mem _ hm)) tails clean (shape ▸ cut) ?_
          have count := length_ways [n] later (targetTail root userPath)
          have long := length_le_joined slash (n :: later)
          rw [List.length_cons] at long
          rw [shape, List.length_append]
          omega
  | cons top init =>
      have nonempty : components root ≠ [] := by
        rw [parts]
        exact List.cons_ne_nil _ _
      have some : root ≠ [] := by
        rintro rfl
        cases isRoot.absolute
      rw [directories_of_split nonempty split]
      rw [pathOf, if_neg nonempty] at rootEq
      rw [← split] at names shape
      rw [shape]
      rw [shape] at clean
      exact mkdirCalls_behind some List.not_mem_nil (by rw [← rootEq, List.append_nil])
        (fun m hm => names m (List.mem_append_right _ hm)) tails clean

/-- A path that lies in the root passes the test for its letters. -/
theorem starts_of_inside (isRoot : IsRoot root) (inside : components root <+: targetNames root userPath) :
    (normalizePath (root ++ slash :: userPath)).take root.length = root := by
  have rootEq := isRoot.eq
  have absolute := head?_normalizePath (@IsRoot.below root userPath isRoot)
  by_cases none : components root = []
  · rw [pathOf, if_pos none] at rootEq
    cases path : normalizePath (root ++ slash :: userPath) with
    | nil =>
        rw [path] at absolute
        cases absolute
    | cons c rest =>
        rw [path] at absolute
        cases absolute
        rw [rootEq]
        rfl
  · rw [pathOf, if_neg none] at rootEq
    obtain ⟨rest, split⟩ := inside
    rw [normalizePath_target isRoot, ← split, joined_append, ← rootEq, List.append_assoc, List.take_left]

theorem snprintf_fits (fits : (root ++ slash :: userPath).length < PATH_MAX) :
    snprintf PATH_MAX (root ++ slash :: userPath) = root ++ slash :: userPath :=
  List.take_of_length_le (Nat.le_sub_one_of_lt fits)

/-- What the function returns when the target lies below the root. -/
theorem createDirectoriesFromPath_inside {faults : Faults} {fs : Fs} (isRoot : IsRoot root) (free : 0 ∉ userPath)
    (fits : (root ++ slash :: userPath).length < PATH_MAX) (inside : components root <+: targetNames root userPath) :
    createDirectoriesFromPath faults fs root userPath = returnOf (mkdirAll faults fs (directories root userPath)) := by
  have starts := starts_of_inside isRoot inside
  rw [createDirectoriesFromPath_eq, mkdirPaths, snprintf_fits fits, if_pos starts, if_pos starts,
    mkdirCalls_target isRoot free inside]

end Roots

/-! ### What is made -/

section Making

variable {faults : Faults} {fs : Fs} {root userPath : CStr}

/-- The way from the root to the target. -/
def OnTheWay (root userPath : CStr) (names : List CStr) : Prop :=
  ∃ more, more ≠ [] ∧ components root ++ more <+: targetNames root userPath ∧ names = components root ++ more

/-- The only directory that is made below `/` when a path goes up to it from below. -/
theorem mkdirAll_first {n : CStr} (tree : Tree fs) (honest : Honest faults) (spelled : Spelled [n] [slash]) :
    Grown fs (mkdirAll faults fs (ways [n] [] [slash])).1 (· = [n]) ∧
      ((mkdirAll faults fs (ways [n] [] [slash])).2 = .ok () →
        ((mkdirAll faults fs (ways [n] [] [slash])).1 = fs ∧ Idle faults fs [n] [] [slash]) ∨
          ∃ q, LeadsTo (mkdirAll faults fs (ways [n] [] [slash])).1 [n] q ∧
            (mkdirAll faults fs (ways [n] [] [slash])).1.get? q = some .dir) := by
  have proper : Proper n := spelled.proper n List.mem_cons_self
  rw [Idle, ways, if_neg (List.cons_ne_nil _ _)]
  rcases @mkdir_cases faults fs [] n [slash] tree honest spelled with
    ⟨parent, made, leads, dir, limit, missing⟩ | ⟨found, works, there⟩ | ⟨⟨errno, failed, other⟩, -⟩
  · rw [List.nil_append] at made
    rw [mkdirAll_made made]
    have named : parent ++ [n] ≠ [] := List.append_ne_nil_of_right_ne_nil _ (List.cons_ne_nil _ _)
    exact ⟨.cons leads dir proper limit missing rfl .refl, fun _ => .inr
      ⟨_, leadsTo_made leads dir proper limit missing, by rw [mkdirAll, get?_set named, if_pos rfl]⟩⟩
  · rw [List.nil_append] at found
    rw [mkdirAll_exists found]
    exact ⟨.refl, fun _ => .inl ⟨rfl, List.forall_mem_singleton.mpr works, fun _ => there⟩⟩
  · rw [List.nil_append] at failed
    rw [mkdirAll_failed failed other]
    exact ⟨.refl, fun done => by cases done⟩

/-- The names of the root lead to its place. -/
theorem leadsTo_root {q : Place} (tree : Tree fs) (isRoot : IsRoot root) (short : root.length < PATH_MAX)
    (resolved : fs.resolve true root = .ok q) (dir : fs.get? q = some .dir) : LeadsTo fs (components root) q := by
  have good : ∀ n ∈ components root, IsName slash n := fun n among => (isRoot.proper n among).toIsName
  have shape := isRoot.eq
  have fits : (joined slash (components root)).length < PATH_MAX := by
    by_cases none : components root = []
    · rw [none]
      decide
    · rw [pathOf, if_neg none] at shape
      rwa [← shape]
  rw [shape] at resolved
  refine leadsTo_of_resolve tree.short good fits (fun missing => ?_) resolved
  cases missing.symm.trans dir

/-- Where a root that is not `/` is a directory, its names are taken. -/
theorem occupied_root (tree : Tree fs) (isRoot : IsRoot root) (short : root.length < PATH_MAX) (standing : IsDirectory fs root)
    (named : components root ≠ []) : Occupied fs (components root) := by
  obtain ⟨q, resolved, dir⟩ := standing
  have leads := leadsTo_root tree isRoot short resolved dir
  have proper := isRoot.proper
  obtain ⟨before, last, concat⟩ := (List.eq_nil_or_concat (components root)).resolve_left named
  rw [concat, List.concat_eq_append] at leads proper ⊢
  exact occupied_of_leadsTo (proper last (List.mem_append_right _ List.mem_cons_self)) leads

/-- What the calls of the list do: what is made are directories on the way to the target. If no
error is reported, the target has been made, or nothing has been done, and if there was
something to do, something stands at the target. -/
def Advances (faults : Faults) (fs : Fs) (root userPath : CStr) : Prop :=
  Grown fs (mkdirAll faults fs (directories root userPath)).1 (OnTheWay root userPath) ∧
    ((mkdirAll faults fs (directories root userPath)).2 = .ok () →
      ((mkdirAll faults fs (directories root userPath)).1 = fs ∧
        (∀ dir ∈ directories root userPath, faults .mkdir dir = none) ∧
        (directories root userPath ≠ [] → Occupied fs (targetNames root userPath))) ∨
      ∃ q, LeadsTo (mkdirAll faults fs (directories root userPath)).1 (targetNames root userPath) q ∧
        (mkdirAll faults fs (directories root userPath)).1.get? q = some .dir)

/-- Below `/`, the first name is passed over. -/
theorem directories_slash (tree : Tree fs) (honest : Honest faults) (parts : components root = [])
    (spelled : Spelled (targetNames root userPath) (targetTail root userPath)) : Advances faults fs root userPath := by
  rw [Advances, directories, parts]
  cases target : targetNames root userPath with
  | nil => exact ⟨.refl, fun _ => .inl ⟨rfl, nofun, fun some => absurd rfl some⟩⟩
  | cons n later =>
      rw [target] at spelled
      dsimp only
      by_cases single : later = [] ∧ targetTail root userPath = [slash]
      · obtain ⟨rfl, slashed⟩ := single
        rw [slashed] at spelled ⊢
        obtain ⟨grown, ends⟩ := mkdirAll_first tree honest spelled
        refine ⟨grown.wider ?_, ends⟩
        rintro names rfl
        refine ⟨[n], List.cons_ne_nil _ _, ⟨[], ?_⟩, by rw [parts]; rfl⟩
        rw [parts, target]
        rfl
      · have occupied : later = [] → targetTail root userPath ≠ [] → Occupied fs [n] := fun ended tail =>
          absurd ⟨ended, spelled.tails.resolve_left tail⟩ single
        obtain ⟨grown, ends⟩ := @mkdirAll_grown faults fs [n] later _ tree honest spelled occupied
        refine ⟨grown.wider ?_, ends⟩
        rintro names ⟨more, -, along, rfl⟩
        refine ⟨n :: more, List.cons_ne_nil _ _, ?_, by rw [parts]; rfl⟩
        rw [parts, target]
        exact List.cons_prefix_cons.mpr ⟨rfl, along⟩

theorem directories_grown (tree : Tree fs) (honest : Honest faults) (isRoot : IsRoot root)
    (fits : (root ++ slash :: userPath).length < PATH_MAX) (standing : IsDirectory fs root)
    (inside : components root <+: targetNames root userPath) : Advances faults fs root userPath := by
  have spelled := spelled_target isRoot fits
  by_cases named : components root = []
  · exact directories_slash tree honest named spelled
  · obtain ⟨rest, split⟩ := inside
    have occupied := occupied_root tree isRoot (length_root fits) standing named
    rw [← split] at spelled
    obtain ⟨grown, ends⟩ := mkdirAll_grown tree honest spelled fun _ _ => occupied
    rw [Advances, directories_of_split named split, ← split]
    refine ⟨grown.wider ?_, ends⟩
    rintro names ⟨more, some, along, rfl⟩
    refine ⟨more, some, ?_, rfl⟩
    rw [← split]
    exact (List.prefix_append_right_inj _).mpr along

/-- Something that stands at the target stays as it is, if no call fails. -/
theorem directories_occupied (tree : Tree fs) (honest : Honest faults) (isRoot : IsRoot root)
    (fits : (root ++ slash :: userPath).length < PATH_MAX) (inside : components root <+: targetNames root userPath)
    (occupied : Occupied fs (targetNames root userPath)) (works : ∀ dir ∈ directories root userPath, faults .mkdir dir = none) :
    mkdirAll faults fs (directories root userPath) = (fs, .ok ()) := by
  have spelled := spelled_target isRoot fits
  by_cases named : components root = []
  · rw [directories, named] at works ⊢
    cases target : targetNames root userPath with
    | nil => rfl
    | cons n later =>
        rw [target] at works spelled occupied
        exact @mkdirAll_occupied faults fs [n] later _ tree honest spelled occupied works
  · obtain ⟨rest, split⟩ := inside
    rw [directories_of_split named split] at works ⊢
    rw [← split] at spelled occupied
    exact mkdirAll_occupied tree honest spelled occupied works

/-- Something stands at the target if and only if `lstat` finds it. -/
theorem occupied_iff_lstat (tree : Tree fs) (isRoot : IsRoot root) (fits : (root ++ slash :: userPath).length < PATH_MAX)
    (some : targetNames root userPath ≠ []) : Occupied fs (targetNames root userPath) ↔
      ∃ node, fs.lstat (pathOf (targetNames root userPath)) = .ok node := by
  have spelled := spelled_target isRoot fits
  have short := spelled.short
  have proper := spelled.proper
  rw [pathOf, if_neg some]
  obtain ⟨init, name, concat⟩ := (List.eq_nil_or_concat (targetNames root userPath)).resolve_left some
  rw [List.concat_eq_append] at concat
  rw [concat] at short proper ⊢
  have good : ∀ n ∈ init, IsName slash n := fun n among => (proper n (List.mem_append_left _ among)).toIsName
  have resolved := fun q => @resolve_last_iff fs q init name tree.short good
    (proper name (List.mem_append_right _ List.mem_cons_self)) short
  constructor
  · rintro ⟨before, last, parent, split, leads, dir, limit, there⟩
    obtain ⟨rfl, same⟩ := List.append_inj' split rfl
    cases same
    obtain ⟨node, found⟩ := Option.ne_none_iff_exists'.mp there
    exact ⟨node, lstat_of_resolve ((resolved _).mpr ⟨parent, leads, dir, limit, rfl⟩) found⟩
  · rintro ⟨node, found⟩
    obtain ⟨place, walked, found⟩ := ok_of_bind found
    obtain ⟨parent, leads, dir, limit, rfl⟩ := (resolved _).mp walked
    refine ⟨init, name, parent, rfl, leads, dir, limit, fun missing => ?_⟩
    rw [missing] at found
    cases found

end Making

/-! ### What the function is for -/

section Creation

variable (faults : Faults) (fs : Fs) (root userPath : CStr)

/-- What `create_directories_from_path` should do. It returns 0 only if the target lies in
the root and is a directory afterwards. What it changes are directories that it makes where
there was nothing, each where a path from the root towards the target leads, and unless a
link stands on the way that is below the place of the root. It refuses a target outside. -/
structure CreatesSoundly : Prop where
  reached : (createDirectoriesFromPath faults fs root userPath).2.1 = 0 →
    components root <+: targetNames root userPath ∧
      IsDirectory (createDirectoriesFromPath faults fs root userPath).1 (pathOf (targetNames root userPath))
  made : ∀ place, (createDirectoriesFromPath faults fs root userPath).1.get? place ≠ fs.get? place →
    fs.get? place = none ∧ (createDirectoriesFromPath faults fs root userPath).1.get? place = some .dir ∧
      ∃ more, more ≠ [] ∧ components root ++ more <+: targetNames root userPath ∧
        (createDirectoriesFromPath faults fs root userPath).1.resolve true (pathOf (components root ++ more)) = .ok place ∧
        ∀ q, fs.resolve true root = .ok q →
          (∀ some, some <+: more → ∀ target, fs.get? (q ++ some) ≠ Option.some (.link target)) → place = q ++ more
  refused : ¬ components root <+: targetNames root userPath →
    (createDirectoriesFromPath faults fs root userPath).2.1 = -2 ∧
      (createDirectoriesFromPath faults fs root userPath).1 = fs

/-- The target does not lie beside the root under a name that begins with the letters of the
root's. If it lies in the root, what stands there is a directory, unless one of the calls
fails; and the first name below `/`, for which no call is made, is there already. -/
structure Creatable : Prop where
  beside : (normalizePath (root ++ slash :: userPath)).take root.length = root →
    components root <+: targetNames root userPath
  standing : components root <+: targetNames root userPath → directories root userPath ≠ [] →
    (∀ dir ∈ directories root userPath, faults .mkdir dir = none) →
    (∃ node, fs.lstat (pathOf (targetNames root userPath)) = .ok node) → IsDirectory fs (pathOf (targetNames root userPath))
  first : components root <+: targetNames root userPath → directories root userPath = [] →
    IsDirectory fs (pathOf (targetNames root userPath))

end Creation

section Outcome

variable {faults : Faults} {fs fs' : Fs} {root userPath : CStr} {way : List CStr → Prop}

/-- A path that does not begin with the letters of the root is refused. -/
theorem createDirectoriesFromPath_refused (fits : (root ++ slash :: userPath).length < PATH_MAX)
    (other : (normalizePath (root ++ slash :: userPath)).take root.length ≠ root) :
    createDirectoriesFromPath faults fs root userPath = (fs, -2, none) := by
  rw [createDirectoriesFromPath_eq, snprintf_fits fits, if_neg other]

/-- One that does is not. -/
theorem createDirectoriesFromPath_starts (fits : (root ++ slash :: userPath).length < PATH_MAX)
    (starts : (normalizePath (root ++ slash :: userPath)).take root.length = root) :
    (createDirectoriesFromPath faults fs root userPath).2.1 ≠ -2 := by
  rw [createDirectoriesFromPath_eq, snprintf_fits fits, if_pos starts]
  generalize mkdirAll faults fs _ = ended
  obtain ⟨made, result⟩ := ended
  cases result with
  | ok done => exact nofun
  | error errno => exact nofun

/-- A tree in which directories have been made has the links it had. -/
theorem Grown.links (grown : Grown fs fs' way) {place : Place} {target : CStr} (link : fs'.get? place = some (.link target)) :
    fs.get? place = some (.link target) := by
  by_cases same : fs'.get? place = fs.get? place
  · rw [← same, link]
  · cases (grown.made place same).1.symm.trans link

theorem Grown.short (grown : Grown fs fs' way) (short : ShortLinks fs) : ShortLinks fs' :=
  fun place target link => short place target (grown.links link)

/-- Where names within the limits lead to a directory, their path does. -/
theorem isDirectory_of_leadsTo {names : List CStr} {q : Place} (short : ShortLinks fs) (spelled : Spelled names [])
    (leads : LeadsTo fs names q) (dir : fs.get? q = some .dir) : IsDirectory fs (pathOf names) :=
  ⟨q, resolve_of_leadsTo short (fun n among => (spelled.proper n among).toIsName) spelled.short leads, dir⟩

theorem isDirectory_slash (tree : Tree fs) : IsDirectory fs (pathOf []) :=
  isDirectory_of_leadsTo tree.short ⟨nofun, .inl rfl, by decide⟩ ⟨0, Nat.zero_le _, .done⟩ rfl

/-- The way to the target is spelled within the limits. -/
theorem spelled_of_along (isRoot : IsRoot root) (fits : (root ++ slash :: userPath).length < PATH_MAX) {names : List CStr}
    (along : names <+: targetNames root userPath) : Spelled names [] := by
  have spelled := spelled_target isRoot fits
  obtain ⟨rest, split⟩ := along
  rw [← split] at spelled
  exact spelled.before

/-- A directory on the way to the target lies below the place of the root, unless a link
stands in between. -/
theorem place_of_onTheWay (tree : Tree fs) (isRoot : IsRoot root) (fits : root.length < PATH_MAX)
    (grown : Grown fs fs' way) {more : List CStr} {q place : Place} (proper : ∀ n ∈ more, Proper n)
    (resolved : fs.resolve true root = .ok q) (dir : fs.get? q = some .dir)
    (leads : LeadsTo fs' (components root ++ more) place)
    (free : ∀ some, some <+: more → ∀ target, fs.get? (q ++ some) ≠ Option.some (.link target)) : place = q ++ more := by
  obtain ⟨k, -, start⟩ := (leadsTo_root tree isRoot fits resolved dir).kept grown.kept
  obtain ⟨k', -, leads⟩ := leads
  obtain ⟨m, l, l', first, second, -⟩ := leads.split
  obtain ⟨-, rfl⟩ := first.unique start
  exact second.plain proper fun some along target link => free some along target (grown.links link)

/-- Below the root, the function does what it should if and only if what stands at the target
is a directory whenever it is passed over. -/
theorem createsSoundly_inside (tree : Tree fs) (honest : Honest faults) (isRoot : IsRoot root) (standing : IsDirectory fs root)
    (free : 0 ∉ userPath) (fits : (root ++ slash :: userPath).length < PATH_MAX)
    (inside : components root <+: targetNames root userPath) :
    CreatesSoundly faults fs root userPath ↔ Creatable faults fs root userPath := by
  have called := @createDirectoriesFromPath_inside root userPath faults fs isRoot free fits inside
  have tried := @directories_grown faults fs root userPath tree honest isRoot fits standing inside
  have idle := @directories_occupied faults fs root userPath tree honest isRoot fits inside
  have found := @occupied_iff_lstat fs root userPath tree isRoot fits
  constructor
  · intro sound
    have still : mkdirAll faults fs (directories root userPath) = (fs, .ok ()) → IsDirectory fs (pathOf (targetNames root userPath)) := by
      intro done
      rw [done, returnOf] at called
      have reached := sound.reached (by rw [called])
      rw [called] at reached
      exact reached.2
    refine ⟨fun _ => inside, fun _ _ works there => ?_, fun _ none => still (by rw [none, mkdirAll])⟩
    by_cases top : targetNames root userPath = []
    · rw [top]
      exact isDirectory_slash tree
    · exact still (idle ((found top).mpr there) works)
  · intro creatable
    obtain ⟨grown, ends⟩ := tried
    have result : (createDirectoriesFromPath faults fs root userPath).1 = (mkdirAll faults fs (directories root userPath)).1 ∧
        ((createDirectoriesFromPath faults fs root userPath).2.1 = 0 → (mkdirAll faults fs (directories root userPath)).2 = .ok ()) := by
      rw [called]
      cases mkdirAll faults fs (directories root userPath) with
      | mk made outcome =>
          cases outcome with
          | ok done => exact ⟨rfl, fun _ => rfl⟩
          | error errno => exact ⟨rfl, fun zero => by cases zero⟩
    refine ⟨fun zero => ⟨inside, ?_⟩, fun place changed => ?_, fun outside => absurd inside outside⟩
    · rw [result.1]
      rcases ends (result.2 zero) with ⟨same, works, there⟩ | ⟨q, leads, dir⟩
      · rw [same]
        by_cases none : directories root userPath = []
        · exact creatable.first inside none
        · by_cases top : targetNames root userPath = []
          · rw [top]
            exact isDirectory_slash tree
          · exact creatable.standing inside none works ((found top).mp (there none))
      · exact isDirectory_of_leadsTo (grown.short tree.short) (spelled_of_along isRoot fits List.prefix_rfl) leads dir
    · rw [result.1] at changed ⊢
      obtain ⟨dir, names, ⟨more, some, along, rfl⟩, leads⟩ := grown.made place changed
      have spelled := spelled_of_along isRoot fits along
      have good : ∀ n ∈ components root ++ more, IsName slash n := fun n among => (spelled.proper n among).toIsName
      have missing : fs.get? place = none := by
        by_contra there
        obtain ⟨node, there⟩ := Option.ne_none_iff_exists'.mp there
        exact changed ((grown.kept place node there).trans there.symm)
      refine ⟨missing, dir, more, some, along, resolve_of_leadsTo (grown.short tree.short) good spelled.short leads, ?_⟩
      intro q resolved plain
      obtain ⟨q', walked, place'⟩ := standing
      obtain rfl : q' = q := Except.ok.inj (walked.symm.trans resolved)
      exact place_of_onTheWay tree isRoot (length_root fits) grown
        (fun n among => spelled.proper n (List.mem_append_right _ among)) resolved place' leads plain

end Outcome

/-- When `create_directories_from_path` does what it should: for every tree in which the root
is a directory, every root and every path that fits, and all failures of `mkdir`. -/
theorem createsSoundly_iff {faults : Faults} {fs : Fs} {root userPath : CStr} (tree : Tree fs) (honest : Honest faults)
    (isRoot : IsRoot root) (standing : IsDirectory fs root) (free : 0 ∉ userPath)
    (fits : (root ++ slash :: userPath).length < PATH_MAX) :
    CreatesSoundly faults fs root userPath ↔ Creatable faults fs root userPath := by
  by_cases inside : components root <+: targetNames root userPath
  · exact createsSoundly_inside tree honest isRoot standing free fits inside
  · constructor
    · intro sound
      refine ⟨fun starts => ?_, fun there => absurd there inside, fun there => absurd there inside⟩
      exact absurd (sound.refused inside).1 (createDirectoriesFromPath_starts fits starts)
    · intro creatable
      have refused := @createDirectoriesFromPath_refused faults fs root userPath fits fun starts => inside (creatable.beside starts)
      refine ⟨fun zero => ?_, fun place changed => ?_, fun _ => ?_⟩
      · rw [refused] at zero
        cases zero
      · rw [refused] at changed
        exact absurd rfl changed
      · rw [refused]
        exact ⟨rfl, rfl⟩

/-- Two directories next to each other, `r` and `rx`. -/
def neighbours : Fs := ((⟨[], []⟩ : Fs).set [cstr "r"] .dir).set [cstr "rx"] .dir

theorem tree_bare (cwd : Place) : Tree ⟨[], cwd⟩ := by
  refine ⟨fun place name there => absurd ?_ there, fun place target link => ?_⟩
  · rw [Fs.get?, if_neg (List.append_ne_nil_of_right_ne_nil _ (List.cons_ne_nil _ _))]
    rfl
  · rw [Fs.get?] at link
    split_ifs at link with root
    · cases link
    · exact absurd link (by simp)

theorem neighbours_tree : Tree neighbours :=
  @Tree.made _ [] (cstr "rx") (@Tree.made _ [] (cstr "r") (tree_bare []) rfl) rfl

/-- Below `/r`, `a/b` is made. -/
theorem createsSoundly_below : CreatesSoundly (fun _ _ => none) neighbours (cstr "/r") (cstr "a/b") :=
  (createsSoundly_iff neighbours_tree (fun _ => (Option.some_ne_none _).symm) ⟨by decide, by decide, by decide⟩
    ⟨[cstr "r"], by decide, by decide⟩ (by decide) (by decide)).mpr
    ⟨fun _ => by decide,
      fun _ _ _ there => absurd there (by
        have missing : neighbours.lstat (pathOf (targetNames (cstr "/r") (cstr "a/b"))) = .error .ENOENT := by decide
        rw [missing]
        rintro ⟨node, found⟩
        cases found),
      fun _ none => absurd none (by decide)⟩

/-- Next to `/r`, `rx/b` is made as well. -/
theorem createsSoundly_beside : Tree neighbours ∧ IsRoot (cstr "/r") ∧ IsDirectory neighbours (cstr "/r") ∧
    createDirectoriesFromPath (fun _ _ => none) neighbours (cstr "/r") (cstr "../rx/b") =
      (neighbours.set [cstr "rx", cstr "b"] .dir, 0, none) ∧
    ¬ CreatesSoundly (fun _ _ => none) neighbours (cstr "/r") (cstr "../rx/b") := by
  have made : createDirectoriesFromPath (fun _ _ => none) neighbours (cstr "/r") (cstr "../rx/b") =
      (neighbours.set [cstr "rx", cstr "b"] .dir, 0, none) := by decide
  refine ⟨neighbours_tree, ⟨by decide, by decide, by decide⟩,
    ⟨[cstr "r"], by decide, by decide⟩, made, fun sound => ?_⟩
  have inside := (sound.reached (by rw [made])).1
  exact absurd inside (by decide)

end MiniDropbox
