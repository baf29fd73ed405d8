/-
The directory iterator and the loop of `create_directories_from_path`.

The first call of `path_next_dir` skips the root, each further one goes on to the end of a
name (`pathNextDir_name`). So the loop hands the prefixes of the normalised path to `mkdir`,
from the first name behind the root on (`mkdirCalls_behind`).
-/

import Mathlib.Data.List.GetD
import Mathlib.Data.List.TakeWhile
import MiniDropbox.Storage

namespace MiniDropbox

open Lexical

/-! ### The iterator -/

/-- The prefixes of a path behind the names of `front`: one more name each, and at last the
whole path, if something comes behind the names. -/
def ways (front : List CStr) : List CStr → CStr → List CStr
  | [], tail => if tail = [] then [] else [joined slash front ++ tail]
  | n :: rest, tail => joined slash (front ++ [n]) :: ways (front ++ [n]) rest tail

/-- The iterator has cut the path off at a place where a name ends. -/
structure CutAt (path : CStr) (c : Nat) (iter : PathIter) : Prop where
  len : iter.len = path.length
  here : iter.currSlash = c
  inside : c ≤ path.length
  copy : iter.path = path.set c 0
  ends : c < path.length → path[c]? = some slash

section Iterator

variable {path before name behind : CStr} {skip : Int} {iter : PathIter}

/-- A byte cut out of a string ends it there. -/
theorem cString_set {path : CStr} (free : 0 ∉ path) {i : Nat} (inside : i ≤ path.length) :
    cString (path.set i 0) = path.take i := by
  by_cases ended : i = path.length
  · rw [ended, List.set_eq_of_length_le (Nat.le_refl _), List.take_length, cString,
      List.takeWhile_eq_self_iff]
    intro c hc
    simp only [ne_eq, decide_eq_true_eq]
    rintro rfl
    exact free hc
  · rw [List.set_eq_take_append_cons_drop, if_pos (Nat.lt_of_le_of_ne inside ended),
      cString_append fun hit => free (List.mem_of_mem_take hit)]

/-- The scan stops at the first place where it may. -/
theorem scanDir_eq {fuel i j : Nat} (from_ : i ≤ j) (enough : j ≤ i + fuel)
    (goes : ∀ k, i ≤ k → k < j → (path.getD k 0 ≠ slash ∨ (k : Int) ≤ skip) ∧ path.getD k 0 ≠ 0)
    (stops : ¬ ((path.getD j 0 ≠ slash ∨ (j : Int) ≤ skip) ∧ path.getD j 0 ≠ 0)) :
    scanDir path skip fuel i = j := by
  induction fuel generalizing i with
  | zero => exact Nat.le_antisymm from_ enough
  | succ fuel ih =>
      rw [scanDir]
      by_cases ended : i = j
      · rw [ended, if_neg stops]
      · have below : i < j := Nat.lt_of_le_of_ne from_ ended
        rw [if_pos (goes i (Nat.le_refl i) below)]
        exact ih below (by omega) fun k later => goes k (Nat.le_of_succ_le later)

/-- Behind a name stands the end of the path or a slash, where a scan stops. -/
theorem ends_behind (next : behind = [] ∨ behind.head? = some slash) {j : Nat} (past : skip < j) :
    ¬ ((behind.getD 0 0 ≠ slash ∨ (j : Int) ≤ skip) ∧ behind.getD 0 0 ≠ 0) := by
  rcases next with rfl | slashed
  · exact fun goes => goes.2 rfl
  · cases behind with
    | nil => cases slashed
    | cons c behind =>
        cases slashed
        rintro ⟨other | low, -⟩
        · exact other rfl
        · omega

theorem slash_behind {front : CStr} (next : behind = [] ∨ behind.head? = some slash)
    (below : front.length < (front ++ behind).length) : (front ++ behind)[front.length]? = some slash := by
  rw [List.getElem?_append_right (Nat.le_refl _), Nat.sub_self]
  rcases next with rfl | slashed
  · rw [List.append_nil] at below
    exact absurd below (Nat.lt_irrefl _)
  · rw [← List.head?_eq_getElem?, slashed]

/-- A name in a path is scanned to its end. -/
theorem scan_name (free : 0 ∉ before ++ slash :: (name ++ behind)) (plain : slash ∉ name)
    (next : behind = [] ∨ behind.head? = some slash) {fuel : Nat} (enough : name.length ≤ fuel) :
    scanDir (before ++ slash :: (name ++ behind)) 0 fuel (before.length + 1) = (before ++ slash :: name).length := by
  have split : before ++ slash :: (name ++ behind) = (before ++ [slash]) ++ (name ++ behind) := by simp
  have start : (before ++ [slash]).length = before.length + 1 := List.length_append
  have last : (before ++ slash :: name).length = before.length + 1 + name.length := by
    rw [List.length_append, List.length_cons]
    omega
  rw [last]
  refine scanDir_eq (Nat.le_add_right _ _) (Nat.add_le_add_left enough _) ?_ ?_
  · intro k above below
    obtain ⟨i, rfl⟩ := Nat.exists_eq_add_of_le above
    have inside : i < name.length := by omega
    have letter : (before ++ slash :: (name ++ behind)).getD (before.length + 1 + i) 0 = name[i] := by
      rw [split, ← start, List.getD_append_right _ _ _ _ (Nat.le_add_right _ _), Nat.add_sub_cancel_left,
        List.getD_append _ _ _ _ inside, List.getD_eq_getElem _ _ inside]
    rw [letter]
    have mem : name[i] ∈ name := List.getElem_mem inside
    refine ⟨.inl fun same => plain (same ▸ mem), fun zero => free ?_⟩
    rw [← zero]
    exact List.mem_append_right _ (List.mem_cons_of_mem _ (List.mem_append_left _ mem))
  · have letter : (before ++ slash :: (name ++ behind)).getD (before.length + 1 + name.length) 0 = behind.getD 0 0 := by
      rw [split, ← start, List.getD_append_right _ _ _ _ (Nat.le_add_right _ _), Nat.add_sub_cancel_left,
        List.getD_append_right _ _ _ _ (Nat.le_refl _), Nat.sub_self]
    rw [letter]
    exact ends_behind next (by omega)

/-- The iterator goes on to the end of the next name, and at last to the end of the path. -/
theorem pathNextDir_name (free : 0 ∉ before ++ slash :: (name ++ behind)) (plain : slash ∉ name)
    (next : behind = [] ∨ behind.head? = some slash)
    (stands : CutAt (before ++ slash :: (name ++ behind)) before.length iter) :
    ∃ iter', pathNextDir iter none 0 = (some (before ++ slash :: name), iter') ∧
      CutAt (before ++ slash :: (name ++ behind)) (before ++ slash :: name).length iter' := by
  have long : name.length ≤ (before ++ slash :: (name ++ behind)).length := by
    rw [List.length_append, List.length_cons, List.length_append]
    omega
  have scanned := scan_name free plain next long
  obtain ⟨path, whole⟩ : ∃ path, path = before ++ slash :: (name ++ behind) := ⟨_, rfl⟩
  have taken : path.take (before ++ slash :: name).length = before ++ slash :: name := by
    rw [whole, ← List.cons_append, ← List.append_assoc, List.take_left]
  have short : (before ++ slash :: name).length ≤ path.length := by
    rw [← taken]
    exact List.length_take_le' _ _
  have later : before.length < path.length := by
    rw [List.length_append, List.length_cons] at short
    omega
  have at_slash : path[before.length]? = some slash := by
    rw [whole, List.getElem?_append_right (Nat.le_refl _), Nat.sub_self, List.getElem?_cons_zero]
  rw [← whole] at scanned stands free ⊢
  have going : ¬ ((before.length : Int) ≥ path.length) := by omega
  have restored : (path.set before.length 0).set before.length slash = path := by
    rw [List.set_set]
    obtain ⟨inside, value⟩ := List.getElem?_eq_some_iff.mp at_slash
    conv_rhs => rw [← List.set_getElem_self inside, value]
  have step : ((before.length : Int) + 1).toNat = before.length + 1 := rfl
  have cut := cString_set free short
  rw [taken] at cut
  refine ⟨⟨path.set (before ++ slash :: name).length 0, path.length, (before ++ slash :: name).length⟩, ?_,
    ⟨rfl, rfl, short, rfl, fun below => ?_⟩⟩
  · simp only [pathNextDir, stands.len, stands.here, if_neg going, if_pos (Int.natCast_nonneg before.length), stands.copy,
      Int.toNat_natCast, restored, step, scanned, cut]
  · have split : path = (before ++ slash :: name) ++ behind := by
      rw [whole, List.append_assoc, List.cons_append]
    rw [split] at below ⊢
    exact slash_behind next below

/-- The first call cuts the path off where a scan from its beginning stops. -/
theorem pathNextDir_begin {path : CStr} {j : Nat} (inside : j ≤ path.length) (ends : j < path.length → path[j]? = some slash)
    (scanned : scanDir path skip path.length 0 = j) : CutAt path j (pathNextDir iter (some path) skip).2 := by
  have going : ¬ ((-1 : Int) ≥ path.length) := by omega
  have first : ¬ ((-1 : Int) ≥ 0) := by decide
  have start : ((-1 : Int) + 1).toNat = 0 := rfl
  simp only [pathNextDir, if_neg going, if_neg first, start, scanned]
  exact ⟨rfl, rfl, inside, rfl, ends⟩

/-- Behind a root that is not `/` the first call goes on to the end of the name. -/
theorem pathNextDir_root {root : CStr} (free : 0 ∉ root ++ name ++ behind) (nonempty : root ≠ []) (plain : slash ∉ name)
    (next : behind = [] ∨ behind.head? = some slash) :
    CutAt (root ++ name ++ behind) (root ++ name).length
      (pathNextDir iter (some (root ++ name ++ behind)) ((root.length : Int) - 1)).2 := by
  have positive := List.length_pos_iff.mpr nonempty
  have inside : (root ++ name).length ≤ (root ++ name ++ behind).length := (List.prefix_append _ _).length_le
  have letter : (root ++ name ++ behind).getD (root ++ name).length 0 = behind.getD 0 0 := by
    rw [List.getD_append_right _ _ _ _ (Nat.le_refl _), Nat.sub_self]
  have past : root.length ≤ (root ++ name).length := (List.prefix_append _ _).length_le
  refine pathNextDir_begin inside (slash_behind next) (scanDir_eq (Nat.zero_le _) (by omega) ?_ ?_)
  · intro k _ below
    rw [List.getD_append _ _ _ _ below, List.getD_eq_getElem _ _ below]
    refine ⟨?_, fun zero => free ?_⟩
    · by_cases low : k < root.length
      · exact .inr (by omega)
      · refine .inl fun same => plain ?_
        rw [List.getElem_append_right (Nat.le_of_not_lt low)] at same
        rw [← same]
        exact List.getElem_mem _
    · rw [← zero]
      exact List.mem_append_left _ (List.getElem_mem below)
  · rw [letter]
    exact ends_behind next (by omega)

/-- Behind `/` it goes on to the end of the first name. -/
theorem pathNextDir_slash (free : 0 ∉ slash :: (name ++ behind)) (plain : slash ∉ name)
    (next : behind = [] ∨ behind.head? = some slash) :
    CutAt (slash :: (name ++ behind)) (slash :: name).length (pathNextDir iter (some (slash :: (name ++ behind))) 0).2 := by
  have inside : (slash :: name).length ≤ (slash :: (name ++ behind)).length := by
    rw [List.length_cons, List.length_cons, List.length_append]
    omega
  have first : scanDir (slash :: (name ++ behind)) 0 (slash :: (name ++ behind)).length 0 = (slash :: name).length := by
    have scanned := @scan_name [] name behind free plain next (name ++ behind).length
      (by rw [List.length_append]; exact Nat.le_add_right _ _)
    have nonzero : (slash :: (name ++ behind)).getD 0 0 ≠ 0 := by
      rw [List.getD_cons_zero]
      decide
    rw [List.length_cons, scanDir, if_pos ⟨.inr (Int.le_refl 0), nonzero⟩]
    exact scanned
  exact pathNextDir_begin inside (@slash_behind behind (slash :: name) next) first

theorem pathNextDir_end {path : CStr} (stands : CutAt path path.length iter) : pathNextDir iter none 0 = (none, iter) := by
  simp only [pathNextDir, stands.len, stands.here, ge_iff_le, Int.le_refl, if_true]

end Iterator

/-! ### The loop -/

/-- `mkdir` for one path after the other. What exists already is passed over. -/
def mkdirAll (faults : Faults) (fs : Fs) : List CStr → Fs × Except Errno Unit
  | [] => (fs, .ok ())
  | dir :: dirs =>
      match perform faults .mkdir dir (fs.mkdir dir) with
      | .ok fs => mkdirAll faults fs dirs
      | .error errno => if errno = .EEXIST then mkdirAll faults fs dirs else (fs, .error errno)

section Loop

variable {faults : Faults} {fs : Fs} {iter : PathIter} {front rest : List CStr} {tail : CStr}

theorem joined_concat (front : List CStr) (n : CStr) : joined slash (front ++ [n]) = joined slash front ++ slash :: n := by
  rw [joined_append, joined_singleton]

/-- The paths that the loop hands to `mkdir`, as long as none fails. -/
def mkdirCalls : Nat → PathIter → List CStr
  | 0, _ => []
  | fuel + 1, iter =>
      match pathNextDir iter none 0 with
      | (none, _) => []
      | (some dir, iter) => dir :: mkdirCalls fuel iter

/-- The loop is `mkdir` for one path of the iterator after the other. -/
theorem createDirectories_calls {fuel : Nat} :
    createDirectories faults fs fuel iter = mkdirAll faults fs (mkdirCalls fuel iter) := by
  induction fuel generalizing fs iter with
  | zero => rfl
  | succ fuel ih =>
      rw [createDirectories, mkdirCalls]
      obtain ⟨dir, iter'⟩ := pathNextDir iter none 0
      cases dir with
      | none => rfl
      | some dir =>
          dsimp only
          rw [mkdirAll]
          cases perform faults .mkdir dir (fs.mkdir dir) with
          | ok made => exact ih
          | error errno =>
              dsimp only
              rw [ih]

theorem mkdirCalls_step {fuel : Nat} {iter' : PathIter} {dir : CStr} (found : pathNextDir iter none 0 = (some dir, iter')) :
    mkdirCalls (fuel + 1) iter = dir :: mkdirCalls fuel iter' := by
  rw [mkdirCalls, found]

theorem mkdirCalls_end {fuel : Nat} {path : CStr} (stands : CutAt path path.length iter) : mkdirCalls (fuel + 1) iter = [] := by
  rw [mkdirCalls, pathNextDir_end stands]

/-- They are the prefixes of the path. -/
theorem mkdirCalls_ways {fuel : Nat} (names : ∀ n ∈ rest, slash ∉ n) (tails : tail = [] ∨ tail = [slash])
    (free : 0 ∉ joined slash (front ++ rest) ++ tail)
    (stands : CutAt (joined slash (front ++ rest) ++ tail) (joined slash front).length iter)
    (enough : (ways front rest tail).length < fuel) : mkdirCalls fuel iter = ways front rest tail := by
  induction rest generalizing front fuel iter with
  | nil =>
      obtain ⟨fuel, rfl⟩ := Nat.exists_eq_succ_of_ne_zero (Nat.ne_of_gt (Nat.zero_lt_of_lt enough))
      rw [List.append_nil] at free stands
      rcases tails with rfl | rfl
      · rw [List.append_nil] at stands
        rw [mkdirCalls_end stands, ways, if_pos rfl]
      · have path : joined slash front ++ [slash] = joined slash front ++ slash :: ([] ++ []) := rfl
        rw [path] at free stands
        obtain ⟨iter', found, stands'⟩ := pathNextDir_name free List.not_mem_nil (.inl rfl) stands
        rw [ways, if_neg (List.cons_ne_nil _ _)] at enough ⊢
        obtain ⟨fuel, rfl⟩ := Nat.exists_eq_succ_of_ne_zero (Nat.ne_of_gt (Nat.lt_of_succ_lt_succ enough))
        rw [mkdirCalls_step found, mkdirCalls_end stands']
  | cons n rest ih =>
      obtain ⟨fuel, rfl⟩ := Nat.exists_eq_succ_of_ne_zero (Nat.ne_of_gt (Nat.zero_lt_of_lt enough))
      have path : joined slash (front ++ n :: rest) ++ tail =
          joined slash front ++ slash :: (n ++ (joined slash rest ++ tail)) := by
        rw [joined_append, joined_cons, List.append_assoc, List.cons_append, List.append_assoc]
      have behind : joined slash rest ++ tail = [] ∨ (joined slash rest ++ tail).head? = some slash := by
        cases rest with
        | nil => exact tails.imp id fun slashed => by rw [slashed]; rfl
        | cons m rest => exact .inr rfl
      have later : joined slash (front ++ n :: rest) ++ tail = joined slash ((front ++ [n]) ++ rest) ++ tail := by
        rw [List.append_assoc, List.singleton_append]
      rw [path] at stands
      obtain ⟨iter', found, stands'⟩ := pathNextDir_name (path ▸ free) (names n List.mem_cons_self) behind stands
      rw [ways] at enough ⊢
      rw [← path, later, ← joined_concat] at stands'
      rw [← joined_concat] at found
      rw [later] at free
      rw [mkdirCalls_step found]
      exact congrArg _ (ih (fun m hm => names m (List.mem_cons_of_mem _ hm)) free stands' (Nat.lt_of_succ_lt_succ enough))

theorem length_ways (front rest : List CStr) (tail : CStr) : (ways front rest tail).length ≤ rest.length + 1 := by
  induction rest generalizing front with
  | nil =>
      rw [ways]
      split_ifs
      · exact Nat.zero_le _
      · exact Nat.le_refl _
  | cons n rest ih =>
      rw [ways, List.length_cons, List.length_cons]
      exact Nat.succ_le_succ (ih _)

/-- The calls for a path that begins with the letters of a root: one for each name behind the
one in which the root ends. -/
theorem mkdirCalls_behind {root x : CStr} (some : root ≠ []) (plain : slash ∉ x) (spelled : joined slash front = root ++ x)
    (names : ∀ n ∈ rest, slash ∉ n) (tails : tail = [] ∨ tail = [slash])
    (free : 0 ∉ joined slash (front ++ rest) ++ tail) :
    mkdirCalls ((joined slash (front ++ rest) ++ tail).length + 1)
      (pathNextDir iter (Option.some (joined slash (front ++ rest) ++ tail)) (root.length - 1)).2 = ways front rest tail := by
  have whole : joined slash (front ++ rest) ++ tail = root ++ x ++ (joined slash rest ++ tail) := by
    rw [joined_append, List.append_assoc, spelled]
  have behind : joined slash rest ++ tail = [] ∨ (joined slash rest ++ tail).head? = Option.some slash := by
    cases rest with
    | nil => exact tails.imp id fun slashed => by rw [slashed]; rfl
    | cons n rest => exact .inr rfl
  have cut := @pathNextDir_root x (joined slash rest ++ tail) iter root (whole ▸ free) some plain behind
  rw [← whole, ← spelled] at cut
  refine mkdirCalls_ways names tails free cut ?_
  have count := length_ways front rest tail
  have long := length_le_joined slash rest
  have positive := List.length_pos_iff.mpr some
  rw [whole, List.length_append, List.length_append, List.length_append]
  omega

/-- The paths that `create_directories_from_path` hands to `mkdir`, as long as none fails. -/
def mkdirPaths (root userPath : CStr) : List CStr :=
  let path := normalizePath (snprintf PATH_MAX (root ++ slash :: userPath))
  if path.take root.length = root then
    mkdirCalls (path.length + 1) (pathNextDir ⟨[], 0, 0⟩ (some path) (root.length - 1)).2
  else []

/-- What it returns when the loop has ended. -/
def returnOf : Fs × Except Errno Unit → Fs × Int × Option Errno
  | (fs, .ok _) => (fs, 0, none)
  | (fs, .error errno) => (fs, -3, some errno)

theorem returnOf_fs (ended : Fs × Except Errno Unit) : (returnOf ended).1 = ended.1 := by
  obtain ⟨fs, result⟩ := ended
  cases result with
  | ok done => rfl
  | error errno => rfl

/-- A path that begins with the letters of the root is made, and no other. -/
theorem createDirectoriesFromPath_eq {root userPath : CStr} : createDirectoriesFromPath faults fs root userPath =
    if (normalizePath (snprintf PATH_MAX (root ++ slash :: userPath))).take root.length = root then
      returnOf (mkdirAll faults fs (mkdirPaths root userPath))
    else (fs, -2, none) := by
  rw [createDirectoriesFromPath, mkdirPaths]
  dsimp only
  by_cases starts : (normalizePath (snprintf PATH_MAX (root ++ slash :: userPath))).take root.length = root
  · rw [if_pos starts, if_pos starts, if_pos starts, createDirectories_calls]
    generalize mkdirAll faults fs _ = ended
    obtain ⟨made, result⟩ := ended
    cases result with
    | ok done => rfl
    | error errno => rfl
  · rw [if_neg starts, if_neg starts]

/-- Each path is that of a directory on the way, and the ones behind it go on from there; or
it is the last one, which only repeats the target with a slash. -/
theorem ways_split (split : ways front rest tail = before ++ dir :: after) :
    (∃ more later, more ≠ [] ∧ rest = more ++ later ∧ dir = joined slash (front ++ more) ∧ after = ways (front ++ more) later tail) ∨
      tail ≠ [] ∧ dir = joined slash (front ++ rest) ++ tail ∧ after = [] := by
  induction rest generalizing front before with
  | nil =>
      rw [ways] at split
      split_ifs at split with none
      · cases before <;> cases split
      · obtain ⟨rfl, same⟩ := List.append_eq_singleton_iff.mp split.symm |>.resolve_right (fun other => List.cons_ne_nil _ _ other.2)
        cases same
        exact .inr ⟨none, by rw [List.append_nil], rfl⟩
  | cons n rest ih =>
      rw [ways] at split
      cases before with
      | nil =>
          cases split
          exact .inl ⟨[n], rest, List.cons_ne_nil _ _, rfl, rfl, rfl⟩
      | cons first before =>
          rcases ih (List.cons.inj split).2 with ⟨more, later, -, rfl, here, behind⟩ | ⟨some, here, behind⟩
          · rw [List.append_assoc, List.singleton_append] at here behind
            exact .inl ⟨n :: more, later, List.cons_ne_nil _ _, rfl, here, behind⟩
          · rw [List.append_assoc, List.singleton_append] at here
            exact .inr ⟨some, here, behind⟩

end Loop

end MiniDropbox
