/-
How far the directories on the way of a path are made.

A call of `mkdir` that finds something changes nothing. Behind the first directory that is
made nothing is there, so the following ones are made up to the first that fails
(`getLast?_madeBy`); which one that is can be told from the names and the failures alone.
-/

import MiniDropbox.Directories

namespace MiniDropbox

open Lexical

/-- The calls of `mkdir` that make a directory. -/
def madeBy (faults : Faults) (fs : Fs) : List CStr → List CStr
  | [] => []
  | dir :: dirs =>
      match perform faults .mkdir dir (fs.mkdir dir) with
      | .ok fs => dir :: madeBy faults fs dirs
      | .error errno => if errno = .EEXIST then madeBy faults fs dirs else []

/-- A call of `mkdir` finds that something is there. -/
def Found (faults : Faults) (fs : Fs) (dir : CStr) : Prop := perform faults .mkdir dir (fs.mkdir dir) = .error .EEXIST

/-- How far the directories can be made where there is nothing: up to the first that fails or
whose name is too long. -/
def reach (faults : Faults) (front : List CStr) : List CStr → List CStr
  | [] => front
  | n :: rest =>
      if faults .mkdir (joined slash (front ++ [n])) = none ∧ n.length ≤ NAME_MAX then reach faults (front ++ [n]) rest
      else front

section Calls

variable {faults : Faults} {fs fs' : Fs} {before dirs : List CStr} {dir : CStr}

theorem mkdirAll_found (found : ∀ dir ∈ before, Found faults fs dir) :
    mkdirAll faults fs (before ++ dirs) = mkdirAll faults fs dirs := by
  induction before with
  | nil => rfl
  | cons dir before ih =>
      rw [List.cons_append, mkdirAll_exists (found dir List.mem_cons_self)]
      exact ih fun d among => found d (List.mem_cons_of_mem _ among)

theorem madeBy_exists (found : Found faults fs dir) : madeBy faults fs (dir :: dirs) = madeBy faults fs dirs := by
  rw [Found] at found
  rw [madeBy, found]
  rfl

theorem madeBy_found (found : ∀ dir ∈ before, Found faults fs dir) : madeBy faults fs (before ++ dirs) = madeBy faults fs dirs := by
  induction before with
  | nil => rfl
  | cons dir before ih =>
      rw [List.cons_append, madeBy_exists (found dir List.mem_cons_self)]
      exact ih fun d among => found d (List.mem_cons_of_mem _ among)

theorem madeBy_made (made : perform faults .mkdir dir (fs.mkdir dir) = .ok fs') :
    madeBy faults fs (dir :: dirs) = dir :: madeBy faults fs' dirs := by
  rw [madeBy, made]

theorem madeBy_failed {errno : Errno} (failed : perform faults .mkdir dir (fs.mkdir dir) = .error errno)
    (other : errno ≠ .EEXIST) : madeBy faults fs (dir :: dirs) = [] := by
  rw [madeBy, failed]
  exact if_neg other

/-- What is there stays there. -/
theorem mkdirAll_kept {place : Place} {node : Node} (there : fs.get? place = some node) :
    (mkdirAll faults fs dirs).1.get? place = some node := by
  induction dirs generalizing fs with
  | nil => exact there
  | cons dir dirs ih =>
      rw [mkdirAll]
      split
      · rename_i made
        obtain ⟨q, -, missing, rfl⟩ := mkdir_place (perform_ok made)
        exact ih (kept_set missing place node there)
      · split_ifs
        · exact ih there
        · exact there

/-- The tree stays as it is exactly if no call makes anything. -/
theorem mkdirAll_idle_iff : (mkdirAll faults fs dirs).1 = fs ↔ madeBy faults fs dirs = [] := by
  induction dirs with
  | nil => exact ⟨fun _ => rfl, fun _ => rfl⟩
  | cons dir dirs ih =>
      cases result : perform faults .mkdir dir (fs.mkdir dir) with
      | ok made =>
          obtain ⟨place, -, missing, rfl⟩ := mkdir_place (perform_ok result)
          rw [mkdirAll_made result, madeBy_made result]
          refine ⟨fun same => ?_, nofun⟩
          have named : place ≠ [] := by
            rintro rfl
            cases missing
          have there : (fs.set place .dir).get? place = some .dir := by
            rw [get?_set named, if_pos rfl]
          have kept := @mkdirAll_kept faults _ dirs place .dir there
          rw [same, missing] at kept
          cases kept
      | error errno =>
          by_cases found : errno = .EEXIST
          · rw [found] at result
            rw [mkdirAll_exists result, madeBy_exists result]
            exact ih
          · rw [mkdirAll_failed result found, madeBy_failed result found]
            exact ⟨fun _ => rfl, fun _ => rfl⟩

/-- Something is found by all calls, or there is a first one that finds nothing. -/
theorem found_or_first (faults : Faults) (fs : Fs) (dirs : List CStr) : (∀ dir ∈ dirs, Found faults fs dir) ∨
    ∃ before dir after, dirs = before ++ dir :: after ∧ (∀ d ∈ before, Found faults fs d) ∧ ¬ Found faults fs dir := by
  induction dirs with
  | nil => exact .inl nofun
  | cons dir dirs ih =>
      by_cases found : Found faults fs dir
      · rcases ih with all | ⟨before, first, after, split, earlier, missing⟩
        · exact .inl (List.forall_mem_cons.mpr ⟨found, all⟩)
        · exact .inr ⟨dir :: before, first, after, by rw [split]; rfl, List.forall_mem_cons.mpr ⟨found, earlier⟩, missing⟩
      · exact .inr ⟨[], dir, dirs, rfl, nofun, found⟩

end Calls

section Ways

variable {faults : Faults} {fs fs' : Fs} {front rest before after : List CStr} {dir tail : CStr} {place : Place}

theorem reach_along (front rest : List CStr) : reach faults front rest <+: front ++ rest := by
  induction rest generalizing front with
  | nil =>
      rw [List.append_nil]
      exact List.prefix_rfl
  | cons n rest ih =>
      rw [reach]
      split_ifs
      · have longer : front ++ n :: rest = front ++ [n] ++ rest := by rw [List.append_assoc, List.singleton_append]
        rw [longer]
        exact ih _
      · exact List.prefix_append _ _

/-- In a directory that has just been made, the directories are made as far as they can. -/
theorem madeBy_fresh (tree : Tree fs) (honest : Honest faults) (spelled : Spelled (front ++ rest) tail)
    (leads : LeadsTo fs front place) (dir : fs.get? place = some .dir) (empty : ∀ n, fs.get? (place ++ [n]) = none)
    (occupied : Occupied fs front) :
    (madeBy faults fs (ways front rest tail)).getLast?.getD (joined slash front) = joined slash (reach faults front rest) := by
  induction rest generalizing fs front place with
  | nil =>
      rw [List.append_nil] at spelled
      have made : madeBy faults fs (ways front [] tail) = [] := by
        rw [← mkdirAll_idle_iff]
        rcases mkdirAll_tail tree honest spelled fun _ => occupied with ⟨same, -⟩ | ⟨errno, failed⟩
        · rw [same]
        · rw [failed]
      rw [made]
      rfl
  | cons n rest ih =>
      have longer : front ++ n :: rest = front ++ [n] ++ rest := by rw [List.append_assoc, List.singleton_append]
      have step := (longer ▸ spelled).before
      rw [ways, reach]
      rcases mkdir_cases tree honest step with ⟨parent, made, leads', dir', limit, missing⟩ | ⟨-, -, there⟩ | ⟨⟨errno, failed, other⟩, -⟩
      · rw [List.append_nil] at made
        have named : parent ++ [n] ≠ [] := List.append_ne_nil_of_right_ne_nil _ (List.cons_ne_nil _ _)
        have onward := leadsTo_made leads' dir' step.last limit missing
        have later := ih (tree.made dir') (longer ▸ spelled) onward (by rw [get?_set named, if_pos rfl])
          (made_empty tree missing) (occupied_of_leadsTo step.last onward)
        rw [madeBy_made made, List.getLast?_cons, Option.getD_some, later, if_pos ⟨unfailed_of_perform made, limit⟩]
      · exact absurd (empty n) (there.there leads)
      · rw [List.append_nil] at failed
        have blocked : ¬ (faults .mkdir (joined slash (front ++ [n])) = none ∧ n.length ≤ NAME_MAX) := by
          rintro ⟨works, limit⟩
          have trimmed := step.trimmed (List.append_ne_nil_of_right_ne_nil front (List.cons_ne_nil n []))
          rw [List.append_nil] at trimmed
          have called := (mkdir_ok_iff tree.short step.good step.last step.short trimmed).mpr
            ⟨place, leads, dir, limit, empty n, rfl⟩
          simp only [perform, works, called] at failed
          cases failed
        rw [madeBy_failed failed other, if_neg blocked]
        rfl

/-- Behind the first directory that is made, the directories are made as far as they can. -/
theorem getLast?_madeBy (tree : Tree fs) (honest : Honest faults) (spelled : Spelled (front ++ rest) tail)
    (split : ways front rest tail = before ++ dir :: after) (found : ∀ d ∈ before, Found faults fs d)
    (made : perform faults .mkdir dir (fs.mkdir dir) = .ok fs') :
    ∃ last, (madeBy faults fs (ways front rest tail)).getLast? = some last ∧
      components last = reach faults (components dir) ((front ++ rest).drop (components dir).length) := by
  have good : ∀ n ∈ front ++ rest, IsName slash n := fun n among => (spelled.proper n among).toIsName
  rw [split, madeBy_found found, madeBy_made made, List.getLast?_cons]
  refine ⟨_, rfl, ?_⟩
  rcases ways_split split with ⟨more, later, some, rfl, rfl, rfl⟩ | ⟨-, rfl, rfl⟩
  · rw [← List.append_assoc] at spelled good ⊢
    have names : components (joined slash (front ++ more)) = front ++ more :=
      pieces_joined fun n among => good n (List.mem_append_left _ among)
    obtain ⟨init, name, concat⟩ := (List.eq_nil_or_concat more).resolve_left some
    rw [List.concat_eq_append] at concat
    rw [names, List.drop_left]
    rw [concat, ← List.append_assoc] at spelled made ⊢
    have step := spelled.before
    rcases mkdir_cases tree honest step with ⟨parent, made', leads, dir, limit, missing⟩ | ⟨there, -⟩ | ⟨⟨errno, failed, -⟩, -⟩
    · rw [List.append_nil] at made'
      obtain rfl := Except.ok.inj (made'.symm.trans made)
      have named : parent ++ [name] ≠ [] := List.append_ne_nil_of_right_ne_nil _ (List.cons_ne_nil _ _)
      have onward := leadsTo_made leads dir step.last limit missing
      rw [madeBy_fresh (tree.made dir) honest spelled onward (by rw [get?_set named, if_pos rfl]) (made_empty tree missing)
        (occupied_of_leadsTo step.last onward)]
      refine pieces_joined fun n among => ?_
      exact (spelled.proper n ((reach_along _ _).subset among)).toIsName
    · rw [List.append_nil] at there
      cases there.symm.trans made
    · rw [List.append_nil] at failed
      cases failed.symm.trans made
  · have names : components (joined slash (front ++ rest) ++ tail) = front ++ rest := by
      rcases spelled.tails with rfl | rfl
      · rw [List.append_nil]
        exact pieces_joined good
      · exact Writes.components (.inl rfl) good
    rw [names, List.drop_length]
    exact names

end Ways

end MiniDropbox
