/-
What `path_next_dir` enumerates (`util.c`).

The first call takes a path and a number of characters to skip, the others go on where the
one before stopped. `PathIter` counts with numbers of any size; the source keeps the length
and the positions in an `int`, which `IntPathIter` follows.

* `nextDirs_eq` — the calls return the prefixes in front of the slashes behind the skipped
  characters, then the path itself, then `NULL` for ever.
* `intDirs_eq` — so do those of the source, for a path of fewer than 2 ^ 31 bytes.
* `intDirs_long` — a path of 2 ^ 31 bytes yields `NULL` at once.
-/

import MiniDropbox.Iterator

namespace MiniDropbox

/-! ### The sequence of calls -/

/-- Further calls of `path_next_dir(NULL, 0)`. -/
def nextDirs (iter : PathIter) : Nat → List (Option CStr)
  | 0 => []
  | n + 1 => (pathNextDir iter none 0).1 :: nextDirs (pathNextDir iter none 0).2 n

/-- The call `path_next_dir(path, skip)` and `n` further calls. -/
def pathDirs (iter : PathIter) (path : CStr) (skip n : Nat) : List (Option CStr) :=
  (pathNextDir iter (some path) skip).1 :: nextDirs (pathNextDir iter (some path) skip).2 n

/-- The places where a prefix ends: the slashes behind the place `skip`, and the end. -/
def stops (path : CStr) (skip : Nat) : List Nat :=
  ((List.range path.length).filter fun i => path[i]? = some slash ∧ skip < i) ++ [path.length]

/-- What `n` calls return: the prefixes one after the other, and then `NULL`. -/
def returns (path : CStr) (places : List Nat) (n : Nat) : List (Option CStr) :=
  (places.map (fun i => some (path.take i)) ++ List.replicate n none).take n

variable {path : CStr} {skip : Int} {iter : PathIter} {i j k n : Nat}

theorem returns_succ (path : CStr) (i : Nat) (places : List Nat) (n : Nat) :
    returns path (i :: places) (n + 1) = some (path.take i) :: returns path places n := by
  rw [returns, List.map_cons, List.cons_append, List.take_succ_cons, returns, List.replicate_succ',
    ← List.append_assoc, List.take_append_of_le_length]
  simp

theorem returns_nil (path : CStr) (n : Nat) : returns path [] n = List.replicate n none := by
  simp [returns]

/-! ### One call -/

/-- Where the scan may stop. -/
def Stops (path : CStr) (skip : Int) (j : Nat) : Prop :=
  ¬ ((path.getD j 0 ≠ slash ∨ (j : Int) ≤ skip) ∧ path.getD j 0 ≠ 0)

/-- The scan goes on to the first place where it may stop. -/
theorem scanDir_spec {fuel : Nat} (enough : path.length ≤ i + fuel) :
    i ≤ scanDir path skip fuel i ∧ Stops path skip (scanDir path skip fuel i) ∧
      ∀ m, i ≤ m → m < scanDir path skip fuel i → ¬ Stops path skip m := by
  induction fuel generalizing i with
  | zero =>
      refine ⟨Nat.le_refl _, fun goes => goes.2 ?_, fun m above below => ?_⟩
      · rw [scanDir, List.getD_eq_getElem?_getD, List.getElem?_eq_none (by omega)]
        rfl
      · rw [scanDir] at below
        omega
  | succ fuel ih =>
      rw [scanDir]
      split_ifs with goes
      · obtain ⟨above, stop, between⟩ := @ih (i + 1) (by omega)
        refine ⟨Nat.le_of_succ_le above, stop, fun m from_ below => ?_⟩
        by_cases first : m = i
        · rw [first]
          exact not_not_intro goes
        · exact between m (by omega) below
      · exact ⟨Nat.le_refl _, goes, fun m above below => by omega⟩

/-- In a string the scan stops at a slash behind the skipped characters, or at the end. -/
theorem stops_iff (free : 0 ∉ path) (within : j ≤ path.length) :
    Stops path skip j ↔ j = path.length ∨ path[j]? = some slash ∧ skip < j := by
  rw [Stops]
  by_cases ended : j = path.length
  · have zero : path.getD j 0 = 0 := by
      rw [List.getD_eq_getElem?_getD, List.getElem?_eq_none (Nat.le_of_eq ended.symm)]
      rfl
    exact iff_of_true (fun goes => goes.2 zero) (.inl ended)
  · have inside : j < path.length := Nat.lt_of_le_of_ne within ended
    have letter : path.getD j 0 = path[j] := List.getD_eq_getElem _ _ inside
    have nonzero : path[j] ≠ 0 := fun zero => free (zero ▸ List.getElem_mem inside)
    rw [letter, List.getElem?_eq_getElem inside, Option.some.injEq]
    constructor
    · intro halts
      push Not at halts
      refine .inr ⟨?_, ?_⟩
      · by_contra other
        exact nonzero (halts (.inl other))
      · by_contra low
        exact nonzero (halts (.inr (Int.not_lt.mp low)))
    · rintro (whole | ⟨same, high⟩) ⟨goes, -⟩
      · exact ended whole
      · rcases goes with other | low
        · exact other same
        · omega

/-- The first stop behind `k`, and the stops behind that one. -/
theorem stops_cons (inside : j ≤ path.length) (at_stop : j = path.length ∨ path[j]? = some slash ∧ k < j)
    (first : ∀ m < j, ¬ (path[m]? = some slash ∧ k < m)) :
    stops path k = j :: if j < path.length then stops path j else [] := by
  have front : ∀ m ≤ j, (List.range m).filter (fun i => path[i]? = some slash ∧ k < i) = [] := by
    intro m below
    rw [List.filter_eq_nil_iff]
    intro i mem
    simpa using first i (by rw [List.mem_range] at mem; omega)
  rw [stops]
  rcases at_stop with rfl | ⟨here, above⟩
  · rw [front _ (Nat.le_refl _), if_neg (Nat.lt_irrefl _), List.nil_append]
  · have below : j < path.length := (List.getElem?_eq_some_iff.mp here).1
    obtain ⟨rest, size⟩ : ∃ rest, path.length = j + 1 + rest := ⟨path.length - (j + 1), by omega⟩
    have split : List.range path.length = List.range j ++ j :: (List.range rest).map (j + 1 + ·) := by
      rw [size, List.range_add, List.range_succ, List.append_assoc, List.singleton_append]
    have none_before : (List.range j).filter (fun i => path[i]? = some slash ∧ j < i) = [] := by
      rw [List.filter_eq_nil_iff]
      intro i mem
      have := List.mem_range.mp mem
      simp only [decide_eq_true_eq]
      omega
    have later : ∀ i ∈ (List.range rest).map (j + 1 + ·),
        decide (path[i]? = some slash ∧ k < i) = decide (path[i]? = some slash ∧ j < i) := by
      intro i mem
      obtain ⟨d, -, rfl⟩ := List.mem_map.mp mem
      rw [decide_eq_decide]
      exact and_congr_right fun _ => ⟨fun _ => by omega, fun _ => by omega⟩
    rw [if_pos below, stops, split, List.filter_append, List.filter_append, none_before,
      front j (Nat.le_refl _), List.filter_cons_of_pos (by simpa using ⟨here, above⟩),
      List.filter_cons_of_neg (by simp), List.filter_congr later]
    rfl

/-- A scan from inside the path. -/
theorem scan_stop (free : 0 ∉ path) (inside : i ≤ path.length) : ∃ j, scanDir path skip path.length i = j ∧
    i ≤ j ∧ j ≤ path.length ∧ (j = path.length ∨ path[j]? = some slash ∧ skip < j) ∧
      ∀ m, i ≤ m → m < j → ¬ (path[m]? = some slash ∧ skip < m) := by
  obtain ⟨above, halts, between⟩ := @scanDir_spec path skip i path.length (Nat.le_add_left _ _)
  have ends : scanDir path skip path.length i ≤ path.length := by
    by_contra beyond
    exact between path.length inside (Nat.lt_of_not_le beyond) ((stops_iff free (Nat.le_refl _)).mpr (.inl rfl))
  refine ⟨_, rfl, above, ends, (stops_iff free ends).mp halts, fun m from_ below hit => ?_⟩
  exact between m from_ below ((stops_iff free (Nat.le_trans (Nat.le_of_lt below) ends)).mpr (.inr hit))

/-- The first call stops at the first stop. -/
theorem pathNextDir_first (free : 0 ∉ path) (iter : PathIter) (k : Nat) :
    ∃ j, (pathNextDir iter (some path) k).1 = some (path.take j) ∧
      CutAt path j (pathNextDir iter (some path) k).2 ∧
        stops path k = j :: if j < path.length then stops path j else [] := by
  obtain ⟨j, scanned, -, within, halts, first⟩ := @scan_stop path k 0 free (Nat.zero_le _)
  have going : ¬ ((-1 : Int) ≥ path.length) := by omega
  have begin_ : ¬ ((-1 : Int) ≥ 0) := by decide
  have start : ((-1 : Int) + 1).toNat = 0 := rfl
  refine ⟨j, ?_, pathNextDir_begin within (fun below => ?_) scanned, stops_cons within ?_ fun m below hit => ?_⟩
  · simp only [pathNextDir, if_neg going, if_neg begin_, start, scanned, cString_set free within]
  · rcases halts with whole | ⟨here, -⟩
    · exact absurd whole (Nat.ne_of_lt below)
    · exact here
  · exact halts.imp_right fun both => ⟨both.1, by have := both.2; omega⟩
  · exact first m (Nat.zero_le _) below ⟨hit.1, by have := hit.2; omega⟩

/-- A further call stops at the next stop. -/
theorem pathNextDir_further (free : 0 ∉ path) (stands : CutAt path i iter) (below : i < path.length) :
    ∃ j, (pathNextDir iter none 0).1 = some (path.take j) ∧ CutAt path j (pathNextDir iter none 0).2 ∧
      stops path i = j :: if j < path.length then stops path j else [] := by
  obtain ⟨j, scanned, above, within, halts, first⟩ := @scan_stop path 0 (i + 1) free below
  have going : ¬ ((i : Int) ≥ path.length) := by omega
  have restored : (path.set i 0).set i slash = path := by
    rw [List.set_set]
    obtain ⟨inside, value⟩ := List.getElem?_eq_some_iff.mp (stands.ends below)
    conv_rhs => rw [← List.set_getElem_self inside, value]
  have step : ((i : Int) + 1).toNat = i + 1 := rfl
  have moved : pathNextDir iter none 0 = (some (path.take j), ⟨path.set j 0, path.length, j⟩) := by
    simp only [pathNextDir, stands.len, stands.here, if_neg going, if_pos (Int.natCast_nonneg i), stands.copy,
      Int.toNat_natCast, restored, step, scanned, cString_set free within]
  rw [moved]
  refine ⟨j, rfl, ⟨rfl, rfl, within, rfl, fun inside => ?_⟩, stops_cons within ?_ fun m early hit => ?_⟩
  · rcases halts with whole | ⟨here, -⟩
    · exact absurd whole (Nat.ne_of_lt inside)
    · exact here
  · exact halts.imp_right fun both => ⟨both.1, above⟩
  · exact first m (Nat.succ_le_of_lt hit.2) early ⟨hit.1, by have := hit.2; omega⟩

/-- Behind the whole path there is nothing more. -/
theorem pathNextDir_done (stands : CutAt path path.length iter) : pathNextDir iter none 0 = (none, iter) := by
  simp only [pathNextDir, stands.len, stands.here]
  exact if_pos (Int.le_refl _)

/-! ### All the calls -/

theorem nextDirs_eq (free : 0 ∉ path) (stands : CutAt path i iter) (n : Nat) :
    nextDirs iter n = returns path (if i < path.length then stops path i else []) n := by
  induction n generalizing i iter with
  | zero => simp [nextDirs, returns]
  | succ n ih =>
      rw [nextDirs]
      by_cases below : i < path.length
      · obtain ⟨j, value, next, split⟩ := pathNextDir_further free stands below
        rw [value, ih next, if_pos below, split, returns_succ]
      · have ended : i = path.length := Nat.le_antisymm stands.inside (Nat.le_of_not_lt below)
        have done := pathNextDir_done (ended ▸ stands)
        rw [done, ih stands, if_neg below, returns_nil, returns_nil, List.replicate_succ]

/-- The first call and the further ones return the prefixes, the path, and then `NULL`. -/
theorem pathDirs_eq (free : 0 ∉ path) (iter : PathIter) (k n : Nat) :
    pathDirs iter path k n = returns path (stops path k) (n + 1) := by
  obtain ⟨j, value, next, split⟩ := pathNextDir_first free iter k
  rw [pathDirs, value, nextDirs_eq free next, split, returns_succ]

/-! ### The positions of the source -/

/-- The static variables of `path_next_dir`, as the source declares them. -/
structure IntPathIter where
  path : List Byte
  len : Int
  currSlash : Int

/-- The loop of `path_next_dir`; `none` when `i++` leaves the range of `int`. -/
def scanDirInt (path : List Byte) (skip : Int) : Nat → Nat → Option Nat
  | 0, i => some i
  | fuel + 1, i =>
      if (path.getD i 0 ≠ slash ∨ (i : Int) ≤ skip) ∧ path.getD i 0 ≠ 0 then
        if i + 1 < 2 ^ 31 then scanDirInt path skip fuel (i + 1) else none
      else some i

/-- Mirrors `path_next_dir`, with its `int` variables. -/
def pathNextDirInt (iter : IntPathIter) (fullPath : Option CStr) (skip : Int) :
    Option (Option CStr × IntPathIter) :=
  let iter := match fullPath with
    | some path => ⟨path, intOf path.length, -1⟩
    | none => iter
  if iter.currSlash ≥ iter.len then some (none, iter)
  else
    let path := if iter.currSlash ≥ 0 ∧ iter.currSlash < iter.len then iter.path.set iter.currSlash.toNat slash
      else iter.path
    (scanDirInt path skip path.length (iter.currSlash + 1).toNat).map fun i =>
      (some (cString (path.set i 0)), ⟨path.set i 0, iter.len, i⟩)

def intNextDirs (iter : IntPathIter) : Nat → Option (List (Option CStr))
  | 0 => some []
  | n + 1 => (pathNextDirInt iter none 0).bind fun out => (intNextDirs out.2 n).map (out.1 :: ·)

/-- The call `path_next_dir(path, skip)` and `n` further calls, on the variables of the
source. -/
def intPathDirs (iter : IntPathIter) (path : CStr) (skip n : Nat) : Option (List (Option CStr)) :=
  (pathNextDirInt iter (some path) skip).bind fun out => (intNextDirs out.2 n).map (out.1 :: ·)

/-- The calls return, in order of length, the prefix in front of each slash behind the place
`skip`, then the path once, and then `NULL` for ever. -/
def Enumerates (iter : IntPathIter) (path : CStr) (skip : Nat) : Prop :=
  ∀ n, intPathDirs iter path skip n = some (returns path (stops path skip) (n + 1))

/-- The same variables, with numbers of any size. -/
def PathIter.toInt (iter : PathIter) : IntPathIter := ⟨iter.path, iter.len, iter.currSlash⟩

/-- The scan of a short path stays in the range of `int`. -/
theorem scanDirInt_eq (short : path.length < 2 ^ 31) (fuel : Nat) :
    scanDirInt path skip fuel i = some (scanDir path skip fuel i) := by
  induction fuel generalizing i with
  | zero => rfl
  | succ fuel ih =>
      rw [scanDirInt, scanDir]
      split_ifs with goes small
      · exact ih
      · have inside : i < path.length := by
          by_contra beyond
          apply goes.2
          rw [List.getD_eq_getElem?_getD, List.getElem?_eq_none (Nat.le_of_not_lt beyond)]
          rfl
        omega
      · rfl

/-- On a short path the first call is the one with numbers of any size. -/
theorem pathNextDirInt_first (short : path.length < 2 ^ 31) (iter : IntPathIter) (before : PathIter) (k : Nat) :
    pathNextDirInt iter (some path) k =
      some ((pathNextDir before (some path) k).1, (pathNextDir before (some path) k).2.toInt) := by
  have going : ¬ ((-1 : Int) ≥ path.length) := by omega
  have begin_ : ¬ ((-1 : Int) ≥ 0 ∧ (-1 : Int) < path.length) := fun both => absurd both.1 (by decide)
  have begin' : ¬ ((-1 : Int) ≥ 0) := by decide
  simp only [pathNextDirInt, pathNextDir, intOf_of_lt short, if_neg going, if_neg begin_, if_neg begin',
    scanDirInt_eq short, Option.map_some]
  rfl

/-- And so is each further call. -/
theorem pathNextDirInt_further (short : path.length < 2 ^ 31) (stands : CutAt path i iter) :
    pathNextDirInt iter.toInt none 0 =
      some ((pathNextDir iter none 0).1, (pathNextDir iter none 0).2.toInt) := by
  by_cases done : i = path.length
  · have last : ¬ (i : Int) < path.length := by omega
    simp only [pathNextDirInt, pathNextDir, PathIter.toInt, stands.here, stands.len, if_pos (Int.not_lt.mp last)]
  · have below : i < path.length := Nat.lt_of_le_of_ne stands.inside done
    have going : ¬ ((i : Int) ≥ path.length) := by omega
    have both : (i : Int) ≥ 0 ∧ (i : Int) < path.length := ⟨Int.natCast_nonneg i, by omega⟩
    have size : ((path.set i 0).set i slash).length = path.length := by simp
    simp only [pathNextDirInt, pathNextDir, PathIter.toInt, stands.here, stands.len, stands.copy, if_neg going,
      if_pos both, if_pos both.1, Int.toNat_natCast, scanDirInt_eq (Nat.lt_of_le_of_lt (Nat.le_of_eq size) short),
      size, Option.map_some]

theorem intNextDirs_eq (free : 0 ∉ path) (short : path.length < 2 ^ 31) (stands : CutAt path i iter) (n : Nat) :
    intNextDirs iter.toInt n = some (nextDirs iter n) := by
  induction n generalizing i iter with
  | zero => rfl
  | succ n ih =>
      rw [intNextDirs, nextDirs, pathNextDirInt_further short stands, Option.bind_some]
      by_cases below : i < path.length
      · obtain ⟨j, -, next, -⟩ := pathNextDir_further free stands below
        rw [ih next]
        rfl
      · have ended : i = path.length := Nat.le_antisymm stands.inside (Nat.le_of_not_lt below)
        rw [pathNextDir_done (ended ▸ stands), ih stands]
        rfl

/-- The prefixes of a path of fewer than 2 ^ 31 bytes are enumerated. -/
theorem prefixes_enumerated (path : CStr) (free : 0 ∉ path) (short : path.length < 2 ^ 31) (skip : Nat)
    (iter : IntPathIter) : Enumerates iter path skip := by
  intro n
  obtain ⟨j, -, next, -⟩ := pathNextDir_first free ⟨[], 0, 0⟩ skip
  rw [intPathDirs, pathNextDirInt_first short iter ⟨[], 0, 0⟩, Option.bind_some, intNextDirs_eq free short next,
    Option.map_some, ← pathDirs_eq free ⟨[], 0, 0⟩]
  rfl

/-- The path of the repository's own test. -/
def britishDict : CStr := cstr "/usr/share/dict/british"

theorem prefixes_british : 0 ∉ britishDict ∧ britishDict.length < 2 ^ 31 ∧ Enumerates ⟨[], 0, 0⟩ britishDict 9 :=
  ⟨by decide, by decide, prefixes_enumerated britishDict (by decide) (by decide) 9 ⟨[], 0, 0⟩⟩

/-- A path whose length is negative as an `int`. -/
def longPath : CStr := List.replicate (2 ^ 31) 97

/-- Already the first call returns `NULL`. -/
theorem prefixes_long : 0 ∉ longPath ∧ ¬ Enumerates ⟨[], 0, 0⟩ longPath 0 := by
  refine ⟨fun mem => absurd (List.eq_of_mem_replicate mem) (by decide), fun enumerates => ?_⟩
  have size : longPath.length = 2 ^ 31 := List.length_replicate
  have negative : intOf (2 ^ 31) = -2 ^ 31 := by decide
  have none_left : (-1 : Int) ≥ intOf longPath.length := by
    rw [size, negative]
    decide
  have first : intPathDirs ⟨[], 0, 0⟩ longPath 0 0 = some [none] := by
    simp only [intPathDirs, pathNextDirInt, if_pos none_left, Option.bind_some, intNextDirs, Option.map_some]
  have right := first.symm.trans (enumerates 0)
  obtain ⟨place, places, split⟩ := List.exists_cons_of_ne_nil
    (List.append_ne_nil_of_right_ne_nil
      ((List.range longPath.length).filter fun i => longPath[i]? = some slash ∧ 0 < i)
      (List.cons_ne_nil longPath.length []))
  rw [stops, split, returns_succ] at right
  cases right

end MiniDropbox
