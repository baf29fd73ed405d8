/-
The directories that `create_directories_from_path` makes.

What exists already is passed over, and a directory that has just been made is empty, so the
rest of the path is made as well (`mkdirAll_fresh`). So when the loop comes to its end, the
target has been made or something stood there before (`mkdirAll_grown`).
-/

import MiniDropbox.Resolution

namespace MiniDropbox

open Lexical

/-! ### Trees -/

/-- A tree: what has an entry is a directory, and links lead to paths. -/
structure Tree (fs : Fs) : Prop where
  parents : ∀ place name, fs.get? (place ++ [name]) ≠ none → fs.get? place = some .dir
  short : ShortLinks fs

/-- `mkdir` says that something exists only where it does. -/
def Honest (faults : Faults) : Prop := ∀ path, faults .mkdir path ≠ some .EEXIST

/-- Something stands at the end of the names, as `lstat` sees it. -/
def Occupied (fs : Fs) (names : List CStr) : Prop :=
  ∃ init name parent, names = init ++ [name] ∧ LeadsTo fs init parent ∧ fs.get? parent = some .dir ∧
    name.length ≤ NAME_MAX ∧ fs.get? (parent ++ [name]) ≠ none

section Trees

variable {fs : Fs} {parent q place : Place} {names front more : List CStr} {name : CStr}

/-- A directory that is made in a directory keeps the tree one. -/
theorem Tree.made (tree : Tree fs) (dir : fs.get? parent = some .dir) : Tree (fs.set (parent ++ [name]) .dir) := by
  have below : parent ++ [name] ≠ [] := List.append_ne_nil_of_right_ne_nil _ (List.cons_ne_nil _ _)
  constructor
  · intro place m there
    rw [get?_set (List.append_ne_nil_of_right_ne_nil _ (List.cons_ne_nil _ _))] at there
    have old : fs.get? place = some .dir := by
      by_cases new : place ++ [m] = parent ++ [name]
      · rw [(List.append_inj' new rfl).1, dir]
      · rw [if_neg new] at there
        exact tree.parents place m there
    by_cases root : place = []
    · rw [root]
      rfl
    · rw [get?_set root]
      split_ifs
      · rfl
      · exact old
  · intro place target link
    by_cases root : place = []
    · rw [root] at link
      cases link
    · rw [get?_set root] at link
      split_ifs at link
      · cases link
      · exact tree.short place target link

/-- Where a proper name leads, its place is in the directory before it. -/
theorem Leads.last {k : Nat} (proper : Proper name) (leads : Leads fs [] (names ++ [name]) k q) :
    ∃ parent k', k' ≤ k ∧ Leads fs [] names k' parent ∧ fs.get? parent = some .dir ∧ name.length ≤ NAME_MAX ∧
      fs.get? (parent ++ [name]) ≠ none := by
  obtain ⟨m, k', l, first, second, rfl⟩ := leads.split
  cases second with
  | here => exact absurd rfl proper.notDot
  | up => exact absurd rfl proper.notDots
  | down dir _ _ limit there =>
      exact ⟨m, k', Nat.le_add_right _ _, first, dir, limit, by rw [there]; nofun⟩
  | follow dir _ _ limit there =>
      exact ⟨m, k', Nat.le_add_right _ _, first, dir, limit, by rw [there]; nofun⟩

/-- Where names lead something stands. -/
theorem occupied_of_leadsTo (proper : Proper name) (leads : LeadsTo fs (names ++ [name]) q) : Occupied fs (names ++ [name]) := by
  obtain ⟨k, few, leads⟩ := leads
  obtain ⟨parent, k', less, first, dir, limit, there⟩ := leads.last proper
  exact ⟨names, name, parent, rfl, ⟨k', Nat.le_trans less few, first⟩, dir, limit, there⟩

/-- On the way to something that stands there, every name is taken. -/
theorem Occupied.before (proper : ∀ n ∈ front ++ name :: more, Proper n) (occupied : Occupied fs (front ++ name :: more)) :
    Occupied fs (front ++ [name]) := by
  cases more using List.reverseRecOn with
  | nil => exact occupied
  | append_singleton more last =>
      obtain ⟨init, top, parent, split, ⟨k, few, leads⟩, -⟩ := occupied
      have shape : front ++ name :: (more ++ [last]) = (front ++ [name] ++ more) ++ [last] := by simp
      rw [shape] at split
      obtain ⟨rfl, -⟩ := List.append_inj' split rfl
      obtain ⟨m, k', l, first, -, sum⟩ := leads.split
      exact occupied_of_leadsTo (proper name (List.mem_append_right _ List.mem_cons_self))
        ⟨k', by omega, first⟩

/-- Without links, names lead from a place to what they spell below it. -/
theorem Leads.plain {k : Nat} (leads : Leads fs place names k q) (proper : ∀ n ∈ names, Proper n)
    (free : ∀ some, some <+: names → ∀ target, fs.get? (place ++ some) ≠ Option.some (.link target)) :
    q = place ++ names := by
  induction leads with
  | done => rw [List.append_nil]
  | here => exact absurd rfl (proper _ List.mem_cons_self).notDot
  | up => exact absurd rfl (proper _ List.mem_cons_self).notDots
  | @down p q n rest node k dir _ _ _ _ _ _ ih =>
      have later : q = p ++ [n] ++ rest := by
        refine ih (fun m hm => proper m (List.mem_cons_of_mem _ hm)) fun some along target => ?_
        have whole := free (n :: some) (List.cons_prefix_cons.mpr ⟨rfl, along⟩) target
        rwa [List.append_assoc, List.singleton_append]
      rw [later, List.append_assoc, List.singleton_append]
  | @follow p q n target rest k dir _ _ _ there =>
      exact absurd there (free [n] (List.cons_prefix_cons.mpr ⟨rfl, List.nil_prefix⟩) target)

end Trees

/-! ### What `mkdirAll` makes -/

/-- The places that change were empty, and now hold directories that names on the way lead to. -/
structure Grown (fs fs' : Fs) (way : List CStr → Prop) : Prop where
  kept : ∀ place node, fs.get? place = some node → fs'.get? place = some node
  made : ∀ place, fs'.get? place ≠ fs.get? place → fs'.get? place = some .dir ∧ ∃ names, way names ∧ LeadsTo fs' names place

section Making

variable {faults : Faults} {fs fs' : Fs} {way : List CStr → Prop} {parent place : Place} {names front rest : List CStr}
  {name tail : CStr}

theorem LeadsTo.kept (leads : LeadsTo fs names place)
    (kept : ∀ place node, fs.get? place = some node → fs'.get? place = some node) : LeadsTo fs' names place := by
  obtain ⟨k, few, leads⟩ := leads
  exact ⟨k, few, leads.kept kept⟩

theorem Grown.refl : Grown fs fs way := ⟨fun _ _ => id, fun _ changed => absurd rfl changed⟩

/-- The names of a directory that has just been made lead to it. -/
theorem leadsTo_made (leads : LeadsTo fs names parent) (dir : fs.get? parent = some .dir) (proper : Proper name)
    (limit : name.length ≤ NAME_MAX) (missing : fs.get? (parent ++ [name]) = none) :
    LeadsTo (fs.set (parent ++ [name]) .dir) (names ++ [name]) (parent ++ [name]) := by
  obtain ⟨k, few, leads⟩ := leads
  have below : parent ++ [name] ≠ [] := List.append_ne_nil_of_right_ne_nil _ (List.cons_ne_nil _ _)
  have there : (fs.set (parent ++ [name]) .dir).get? (parent ++ [name]) = some .dir := by
    rw [get?_set below, if_pos rfl]
  exact ⟨k, few, (leads.kept (kept_set missing)).append
    (.down (kept_set missing _ _ dir) proper.notDot proper.notDots limit there (fun _ => nofun) .done)⟩

theorem Grown.wider {wide : List CStr → Prop} (grown : Grown fs fs' way) (along : ∀ names, way names → wide names) :
    Grown fs fs' wide := by
  refine ⟨grown.kept, fun place changed => ?_⟩
  obtain ⟨dir, names, on, leads⟩ := grown.made place changed
  exact ⟨dir, names, along names on, leads⟩

theorem Grown.cons (leads : LeadsTo fs names parent) (dir : fs.get? parent = some .dir) (proper : Proper name)
    (limit : name.length ≤ NAME_MAX) (missing : fs.get? (parent ++ [name]) = none) (along : way (names ++ [name]))
    (grown : Grown (fs.set (parent ++ [name]) .dir) fs' way) : Grown fs fs' way := by
  have made := leadsTo_made leads dir proper limit missing
  constructor
  · intro place node there
    exact grown.kept place node (kept_set missing place node there)
  · intro place changed
    by_cases here : place = parent ++ [name]
    · subst here
      have there : (fs.set (parent ++ [name]) .dir).get? (parent ++ [name]) = some .dir := by
        rw [get?_set (List.append_ne_nil_of_right_ne_nil _ (List.cons_ne_nil _ _)), if_pos rfl]
      exact ⟨grown.kept _ _ there, _, along, made.kept grown.kept⟩
    · refine grown.made place fun same => changed ?_
      rw [same]
      by_cases root : place = []
      · rw [root]
        rfl
      · rw [get?_set root, if_neg here]

/-- The paths of some names are those of the kernel. -/
structure Spelled (names : List CStr) (tail : CStr) : Prop where
  proper : ∀ n ∈ names, Proper n
  tails : tail = [] ∨ tail = [slash]
  short : (joined slash names).length < PATH_MAX

theorem Spelled.good (spelled : Spelled (names ++ [name]) tail) : ∀ n ∈ names, IsName slash n :=
  fun n among => (spelled.proper n (List.mem_append_left _ among)).toIsName

theorem Spelled.last (spelled : Spelled (names ++ [name]) tail) : Proper name :=
  spelled.proper name (List.mem_append_right _ List.mem_cons_self)

theorem Spelled.trimmed (spelled : Spelled names tail) (some : names ≠ []) :
    trimSlashes (joined slash names ++ tail) = joined slash names :=
  trimSlashes_joined some (fun n among => (spelled.proper n among).toIsName) spelled.tails

/-- A shorter way is spelled as well, without the tail. -/
theorem Spelled.before (spelled : Spelled (names ++ rest) tail) : Spelled names [] where
  proper := fun n among => spelled.proper n (List.mem_append_left _ among)
  tails := .inl rfl
  short := by
    have short := spelled.short
    rw [joined_append, List.length_append] at short
    exact Nat.lt_of_le_of_lt (Nat.le_add_right _ _) short

/-- What a call of `mkdir` does: it makes the directory, finds that something stands there, or
fails in another way. -/
theorem mkdir_cases (tree : Tree fs) (honest : Honest faults) (spelled : Spelled (names ++ [name]) tail) :
    let dir := joined slash (names ++ [name]) ++ tail
    (∃ parent, perform faults .mkdir dir (fs.mkdir dir) = .ok (fs.set (parent ++ [name]) .dir) ∧ LeadsTo fs names parent ∧
      fs.get? parent = some .dir ∧ name.length ≤ NAME_MAX ∧ fs.get? (parent ++ [name]) = none) ∨
    (perform faults .mkdir dir (fs.mkdir dir) = .error .EEXIST ∧ faults .mkdir dir = none ∧ Occupied fs (names ++ [name])) ∨
    (∃ errno, perform faults .mkdir dir (fs.mkdir dir) = .error errno ∧ errno ≠ .EEXIST) ∧
      (Occupied fs (names ++ [name]) → faults .mkdir dir ≠ none) := by
  intro dir
  have trimmed := spelled.trimmed (List.append_ne_nil_of_right_ne_nil names (List.cons_ne_nil name []))
  cases fault : faults .mkdir dir with
  | some errno =>
      refine .inr (.inr ⟨⟨errno, ?_, ?_⟩, fun _ => nofun⟩)
      · simp only [perform, fault]
      · rintro rfl
        exact honest dir fault
  | none =>
      have called : perform faults .mkdir dir (fs.mkdir dir) = fs.mkdir dir := by simp only [perform, fault]
      have made := fun fs' => @mkdir_ok_iff fs names name dir fs' tree.short spelled.good spelled.last spelled.short trimmed
      have found := @mkdir_eexist_iff fs names name dir tree.short spelled.good spelled.last spelled.short trimmed
      have taken : Occupied fs (names ++ [name]) ↔ fs.mkdir dir = .error .EEXIST := by
        rw [found]
        constructor
        · rintro ⟨init, top, parent, split, leads, directory, limit, there⟩
          obtain ⟨rfl, last⟩ := List.append_inj' split rfl
          cases last
          exact ⟨parent, leads, directory, limit, there⟩
        · rintro ⟨parent, leads, directory, limit, there⟩
          exact ⟨names, name, parent, rfl, leads, directory, limit, there⟩
      rw [called, taken]
      cases result : fs.mkdir dir with
      | ok fs' =>
          obtain ⟨parent, leads, directory, limit, missing, rfl⟩ := (made fs').mp result
          exact .inl ⟨parent, rfl, leads, directory, limit, missing⟩
      | error errno =>
          by_cases exists' : errno = .EEXIST
          · rw [exists']
            exact .inr (.inl ⟨rfl, rfl, rfl⟩)
          · refine .inr (.inr ⟨⟨errno, rfl, exists'⟩, fun same => ?_⟩)
            cases same
            exact absurd rfl exists'

theorem mkdirAll_made {dir : CStr} {dirs : List CStr} (made : perform faults .mkdir dir (fs.mkdir dir) = .ok fs') :
    mkdirAll faults fs (dir :: dirs) = mkdirAll faults fs' dirs := by
  rw [mkdirAll, made]

theorem mkdirAll_exists {dir : CStr} {dirs : List CStr} (found : perform faults .mkdir dir (fs.mkdir dir) = .error .EEXIST) :
    mkdirAll faults fs (dir :: dirs) = mkdirAll faults fs dirs := by
  rw [mkdirAll, found]
  rfl

theorem mkdirAll_failed {dir : CStr} {dirs : List CStr} {errno : Errno}
    (failed : perform faults .mkdir dir (fs.mkdir dir) = .error errno) (other : errno ≠ .EEXIST) :
    mkdirAll faults fs (dir :: dirs) = (fs, .error errno) := by
  rw [mkdirAll, failed]
  dsimp only
  rw [if_neg other]

theorem Occupied.there (occupied : Occupied fs (names ++ [name])) (leads : LeadsTo fs names parent) :
    fs.get? (parent ++ [name]) ≠ none := by
  obtain ⟨init, top, parent', split, leads', -, -, there⟩ := occupied
  obtain ⟨rfl, last⟩ := List.append_inj' split rfl
  cases last
  rwa [leads.unique leads'] at there

/-- No call of the loop fails, and something stands at the target already, unless there are no
calls. -/
def Idle (faults : Faults) (fs : Fs) (front rest : List CStr) (tail : CStr) : Prop :=
  (∀ dir ∈ ways front rest tail, faults .mkdir dir = none) ∧ (ways front rest tail ≠ [] → Occupied fs (front ++ rest))

/-- Where something stands already, the call that repeats the last name of a path makes
nothing. -/
theorem mkdirAll_tail (tree : Tree fs) (honest : Honest faults) (spelled : Spelled front tail)
    (occupied : tail ≠ [] → Occupied fs front) :
    (mkdirAll faults fs (ways front [] tail) = (fs, .ok ()) ∧ Idle faults fs front [] tail) ∨
      ∃ errno, mkdirAll faults fs (ways front [] tail) = (fs, .error errno) := by
  by_cases none : tail = []
  · rw [Idle, ways, if_pos none]
    exact .inl ⟨rfl, List.forall_mem_nil _, fun some => absurd rfl some⟩
  · have there := occupied none
    obtain ⟨init, name, -, rfl, -⟩ := occupied none
    rw [Idle, ways, if_neg none]
    rcases mkdir_cases tree honest spelled with ⟨parent, -, leads, -, -, missing⟩ | ⟨found, works, -⟩ | ⟨⟨errno, failed, other⟩, -⟩
    · exact absurd missing (there.there leads)
    · rw [mkdirAll_exists found, List.append_nil]
      exact .inl ⟨rfl, List.forall_mem_singleton.mpr works, fun _ => there⟩
    · exact .inr ⟨errno, mkdirAll_failed failed other⟩

/-- A directory that is made in an empty one is empty itself. -/
theorem made_empty (tree : Tree fs) (missing : fs.get? place = none) (n : CStr) :
    (fs.set place .dir).get? (place ++ [n]) = none := by
  have other : place ++ [n] ≠ place := by simp
  rw [get?_set (List.append_ne_nil_of_right_ne_nil _ (List.cons_ne_nil _ _)), if_neg other]
  by_contra there
  cases missing.symm.trans (tree.parents place n there)

/-- In a directory that has just been made the rest of the way is made as well, or the loop
ends with an error. -/
theorem mkdirAll_fresh (tree : Tree fs) (honest : Honest faults) (spelled : Spelled (front ++ rest) tail)
    (leads : LeadsTo fs front place) (dir : fs.get? place = some .dir) (empty : ∀ n, fs.get? (place ++ [n]) = none)
    (occupied : Occupied fs front) (ends : (mkdirAll faults fs (ways front rest tail)).2 = .ok ()) :
    ∃ q, LeadsTo (mkdirAll faults fs (ways front rest tail)).1 (front ++ rest) q ∧
      (mkdirAll faults fs (ways front rest tail)).1.get? q = some .dir := by
  induction rest generalizing fs front place with
  | nil =>
      rw [List.append_nil] at spelled ⊢
      rcases mkdirAll_tail tree honest spelled fun _ => occupied with ⟨same, -⟩ | ⟨errno, failed⟩
      · rw [same]
        exact ⟨place, leads, dir⟩
      · rw [failed] at ends
        cases ends
  | cons n rest ih =>
      have longer : front ++ n :: rest = front ++ [n] ++ rest := by rw [List.append_assoc, List.singleton_append]
      have step := (longer ▸ spelled).before
      rw [ways] at ends ⊢
      rcases mkdir_cases tree honest step with ⟨parent, made, leads', dir', limit, missing⟩ | ⟨-, -, there⟩ | ⟨⟨errno, failed, other⟩, -⟩
      · rw [List.append_nil] at made
        rw [mkdirAll_made made] at ends ⊢
        have named : parent ++ [n] ≠ [] := List.append_ne_nil_of_right_ne_nil _ (List.cons_ne_nil _ _)
        have onward := leadsTo_made leads' dir' step.last limit missing
        rw [longer] at spelled ⊢
        exact ih (tree.made dir') spelled onward (by rw [get?_set named, if_pos rfl]) (made_empty tree missing)
          (occupied_of_leadsTo step.last onward) ends
      · exact absurd (empty n) (there.there leads)
      · rw [List.append_nil] at failed
        rw [mkdirAll_failed failed other] at ends
        cases ends

/-- What the loop changes are directories that names on the way lead to. When it comes to its
end, it has been idle, or the target has been made. -/
theorem mkdirAll_grown (tree : Tree fs) (honest : Honest faults) (spelled : Spelled (front ++ rest) tail)
    (occupied : rest = [] → tail ≠ [] → Occupied fs front) :
    Grown fs (mkdirAll faults fs (ways front rest tail)).1
      (fun names => ∃ more, more ≠ [] ∧ more <+: rest ∧ names = front ++ more) ∧
    ((mkdirAll faults fs (ways front rest tail)).2 = .ok () →
      ((mkdirAll faults fs (ways front rest tail)).1 = fs ∧ Idle faults fs front rest tail) ∨
      ∃ q, LeadsTo (mkdirAll faults fs (ways front rest tail)).1 (front ++ rest) q ∧
        (mkdirAll faults fs (ways front rest tail)).1.get? q = some .dir) := by
  induction rest generalizing fs front with
  | nil =>
      rw [List.append_nil] at spelled
      rcases mkdirAll_tail tree honest spelled (occupied rfl) with ⟨same, idle⟩ | ⟨errno, failed⟩
      · rw [same]
        exact ⟨.refl, fun _ => .inl ⟨rfl, idle⟩⟩
      · rw [failed]
        exact ⟨.refl, nofun⟩
  | cons n rest ih =>
      have longer : front ++ n :: rest = front ++ [n] ++ rest := by rw [List.append_assoc, List.singleton_append]
      have step := (longer ▸ spelled).before
      have along : ∀ names, (∃ more, more ≠ [] ∧ more <+: rest ∧ names = front ++ [n] ++ more) →
          ∃ more, more ≠ [] ∧ more <+: n :: rest ∧ names = front ++ more := by
        rintro names ⟨more, -, along, rfl⟩
        exact ⟨n :: more, List.cons_ne_nil _ _, List.cons_prefix_cons.mpr ⟨rfl, along⟩, by simp⟩
      rw [longer] at spelled ⊢
      rw [ways]
      rcases mkdir_cases tree honest step with ⟨parent, made, leads, dir, limit, missing⟩ | ⟨found, works, there⟩ | ⟨⟨errno, failed, other⟩, -⟩
      · rw [List.append_nil] at made
        rw [mkdirAll_made made]
        have named : parent ++ [n] ≠ [] := List.append_ne_nil_of_right_ne_nil _ (List.cons_ne_nil _ _)
        have onward := leadsTo_made leads dir step.last limit missing
        have there := occupied_of_leadsTo step.last onward
        have later := ih (tree.made dir) spelled fun _ _ => there
        refine ⟨.cons leads dir step.last limit missing ?_ (later.1.wider along), fun ends => .inr ?_⟩
        · exact ⟨[n], List.cons_ne_nil _ _, List.cons_prefix_cons.mpr ⟨rfl, List.nil_prefix⟩, rfl⟩
        · exact mkdirAll_fresh (tree.made dir) honest spelled onward (by rw [get?_set named, if_pos rfl])
            (made_empty tree missing) there ends
      · rw [List.append_nil] at found
        rw [List.append_nil] at works
        rw [mkdirAll_exists found]
        have later := ih tree spelled fun _ _ => there
        refine ⟨later.1.wider along, fun ends => (later.2 ends).imp_left ?_⟩
        rintro ⟨same, working, standing⟩
        refine ⟨same, ?_, fun _ => ?_⟩
        · rw [ways]
          exact List.forall_mem_cons.mpr ⟨works, working⟩
        · cases rest with
          | nil => exact there
          | cons m rest =>
              rw [longer]
              exact standing (List.cons_ne_nil _ _)
      · rw [List.append_nil] at failed
        rw [mkdirAll_failed failed other]
        exact ⟨.refl, nofun⟩

/-- Where something stands at the target and no call fails, nothing is made. -/
theorem mkdirAll_occupied (tree : Tree fs) (honest : Honest faults) (spelled : Spelled (front ++ rest) tail)
    (occupied : Occupied fs (front ++ rest)) (works : ∀ dir ∈ ways front rest tail, faults .mkdir dir = none) :
    mkdirAll faults fs (ways front rest tail) = (fs, .ok ()) := by
  induction rest generalizing front with
  | nil =>
      rw [List.append_nil] at spelled occupied
      by_cases none : tail = []
      · rw [ways, if_pos none]
        rfl
      · have there := occupied
        obtain ⟨init, name, -, rfl, -⟩ := occupied
        rw [ways, if_neg none] at works ⊢
        rcases mkdir_cases tree honest spelled with ⟨parent, -, leads, -, -, missing⟩ | ⟨found, -⟩ | ⟨-, faulty⟩
        · exact absurd missing (there.there leads)
        · rw [mkdirAll_exists found]
          rfl
        · exact absurd (works _ List.mem_cons_self) (faulty there)
  | cons n rest ih =>
      have longer : front ++ n :: rest = front ++ [n] ++ rest := by rw [List.append_assoc, List.singleton_append]
      have there := occupied.before spelled.proper
      have step := (longer ▸ spelled).before
      rw [ways] at works ⊢
      rw [longer] at spelled occupied
      rcases mkdir_cases tree honest step with ⟨parent, -, leads, -, -, missing⟩ | ⟨found, -⟩ | ⟨-, faulty⟩
      · exact absurd missing (there.there leads)
      · rw [List.append_nil] at found
        rw [mkdirAll_exists found]
        exact ih spelled occupied fun dir among => works dir (List.mem_cons_of_mem _ among)
      · have fault := faulty there
        rw [List.append_nil] at fault
        exact absurd (works _ List.mem_cons_self) fault

end Making

end MiniDropbox
