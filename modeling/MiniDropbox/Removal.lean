/-
Recursive removal (`rm_r` of `util.c`).

`Runs` is what `rm_r` does, without a bound on the depth of its recursion. The results of the
recursive calls are not looked at; that a removal was complete shows only in the last `rmdir`.

* `runs_cut` — a run changes nothing outside the subtree of its path, and if it ends with 0
  nothing of that subtree is left.
* `runs_ok` — it ends with 0 if no call is made to fail and the path does not depend on what
  is removed.
* `rmR_removes` — every run ends, whatever fails, and is the one that `rmR` computes.
-/

import MiniDropbox.Directories

namespace MiniDropbox

open Lexical

/-! ### Runs -/

/-- A call of `rm_r`, or the rest of its loop over the entries of a directory. -/
inductive Task where
  | call (path : CStr)
  | loop (path : CStr) (names : List CStr)

/-- A run of `rm_r`: the tree it is given, the one it leaves, and how it ends. -/
inductive Runs (faults : Faults) : Task → Fs → Fs → Except Errno Unit → Prop
  | unstatted {path : CStr} {fs : Fs} {errno : Errno} :
      perform faults .rmLstat path (fs.lstat path) = .error errno → Runs faults (.call path) fs fs (.error errno)
  | unopened {path : CStr} {fs : Fs} {errno : Errno} : perform faults .rmLstat path (fs.lstat path) = .ok .dir →
      perform faults .rmOpendir path (fs.opendir path) = .error errno → Runs faults (.call path) fs fs (.error errno)
  | kept {path : CStr} {names : List CStr} {fs fs' : Fs} {errno : Errno} :
      perform faults .rmLstat path (fs.lstat path) = .ok .dir →
      perform faults .rmOpendir path (fs.opendir path) = .ok names → Runs faults (.loop path names) fs fs' (.ok ()) →
      perform faults .rmRmdir path (fs'.rmdir path) = .error errno → Runs faults (.call path) fs fs' (.error errno)
  | removed {path : CStr} {names : List CStr} {fs fs' fs'' : Fs} : perform faults .rmLstat path (fs.lstat path) = .ok .dir →
      perform faults .rmOpendir path (fs.opendir path) = .ok names → Runs faults (.loop path names) fs fs' (.ok ()) →
      perform faults .rmRmdir path (fs'.rmdir path) = .ok fs'' → Runs faults (.call path) fs fs'' (.ok ())
  | linked {path : CStr} {node : Node} {fs : Fs} {errno : Errno} : perform faults .rmLstat path (fs.lstat path) = .ok node →
      node ≠ .dir → perform faults .rmUnlink path (fs.unlink path) = .error errno →
      Runs faults (.call path) fs fs (.error errno)
  | unlinked {path : CStr} {node : Node} {fs fs' : Fs} : perform faults .rmLstat path (fs.lstat path) = .ok node →
      node ≠ .dir → perform faults .rmUnlink path (fs.unlink path) = .ok fs' → Runs faults (.call path) fs fs' (.ok ())
  | done {path : CStr} {fs : Fs} : Runs faults (.loop path []) fs fs (.ok ())
  | next {path name : CStr} {names : List CStr} {fs fs' fs'' : Fs} {result : Except Errno Unit} :
      Runs faults (.call (snprintf PATH_MAX (path ++ slash :: name))) fs fs' result →
      Runs faults (.loop path names) fs' fs'' (.ok ()) → Runs faults (.loop path (name :: names)) fs fs'' (.ok ())

section Runs

variable {faults : Faults} {fs fs' : Fs} {task : Task} {result : Except Errno Unit}

/-- What a task leads to when `rmR` does it, with so much fuel. -/
def Task.computed (faults : Faults) (fuel : Nat) (fs : Fs) : Task → Fs × Except Errno Unit
  | .call path => rmR faults fuel fs path
  | .loop path names =>
      (names.foldl (fun fs name => (rmR faults fuel fs (snprintf PATH_MAX (path ++ slash :: name))).1) fs, .ok ())

theorem rmR_plain {path : CStr} {node : Node} {fuel : Nat} (found : perform faults .rmLstat path (fs.lstat path) = .ok node)
    (plain : node ≠ .dir) : rmR faults (fuel + 1) fs path =
      match perform faults .rmUnlink path (fs.unlink path) with
      | .error errno => (fs, .error errno)
      | .ok fs => (fs, .ok ()) := by
  rw [rmR, found]
  cases node with
  | dir => exact absurd rfl plain
  | file bytes => rfl
  | link target => rfl

theorem rmR_dir {path : CStr} {names : List CStr} {fuel : Nat} (found : perform faults .rmLstat path (fs.lstat path) = .ok .dir)
    (opened : perform faults .rmOpendir path (fs.opendir path) = .ok names) : rmR faults (fuel + 1) fs path =
      match perform faults .rmRmdir path (((Task.loop path names).computed faults fuel fs).1.rmdir path) with
      | .error errno => (((Task.loop path names).computed faults fuel fs).1, .error errno)
      | .ok fs => (fs, .ok ()) := by
  rw [rmR, found]
  dsimp only
  rw [opened]
  rfl

/-- With fuel enough, `rmR` does what the run does. -/
theorem Runs.computed (runs : Runs faults task fs fs' result) :
    ∃ enough, ∀ fuel ≥ enough, task.computed faults fuel fs = (fs', result) := by
  induction runs with
  | unstatted failed =>
      refine ⟨1, fun fuel enough => ?_⟩
      obtain ⟨fuel, rfl⟩ := Nat.exists_eq_add_of_le' enough
      rw [Task.computed, rmR, failed]
  | unopened dir failed =>
      refine ⟨1, fun fuel enough => ?_⟩
      obtain ⟨fuel, rfl⟩ := Nat.exists_eq_add_of_le' enough
      rw [Task.computed, rmR, dir]
      dsimp only
      rw [failed]
  | kept dir opened _ failed ih =>
      obtain ⟨enough, later⟩ := ih
      refine ⟨enough + 1, fun fuel more => ?_⟩
      obtain ⟨fuel, rfl⟩ := Nat.exists_eq_add_of_le' (Nat.le_trans (Nat.le_add_left 1 enough) more)
      rw [Task.computed, rmR_dir dir opened, later fuel (Nat.le_of_succ_le_succ more), failed]
  | removed dir opened _ removed ih =>
      obtain ⟨enough, later⟩ := ih
      refine ⟨enough + 1, fun fuel more => ?_⟩
      obtain ⟨fuel, rfl⟩ := Nat.exists_eq_add_of_le' (Nat.le_trans (Nat.le_add_left 1 enough) more)
      rw [Task.computed, rmR_dir dir opened, later fuel (Nat.le_of_succ_le_succ more), removed]
  | linked found plain failed =>
      refine ⟨1, fun fuel enough => ?_⟩
      obtain ⟨fuel, rfl⟩ := Nat.exists_eq_add_of_le' enough
      rw [Task.computed, rmR_plain found plain, failed]
  | unlinked found plain removed =>
      refine ⟨1, fun fuel enough => ?_⟩
      obtain ⟨fuel, rfl⟩ := Nat.exists_eq_add_of_le' enough
      rw [Task.computed, rmR_plain found plain, removed]
  | done => exact ⟨0, fun _ _ => rfl⟩
  | next _ _ first rest =>
      obtain ⟨enough, called⟩ := first
      obtain ⟨enough', looped⟩ := rest
      refine ⟨max enough enough', fun fuel more => ?_⟩
      have call := called fuel (Nat.le_trans (Nat.le_max_left _ _) more)
      have loop := looped fuel (Nat.le_trans (Nat.le_max_right _ _) more)
      simp only [Task.computed, List.foldl_cons] at call loop ⊢
      rw [call]
      exact loop

/-- There is one run. -/
theorem Runs.unique (runs : Runs faults task fs fs' result) {other : Fs} {ends : Except Errno Unit}
    (runs' : Runs faults task fs other ends) : (other, ends) = (fs', result) := by
  obtain ⟨enough, computes⟩ := runs.computed
  obtain ⟨enough', computes'⟩ := runs'.computed
  exact (computes' _ (Nat.le_max_right enough enough')).symm.trans (computes _ (Nat.le_max_left enough enough'))

end Runs

/-! ### What a run changes -/

/-- In the subtree at a place things have been removed, and nothing else has changed. -/
structure Cut (fs : Fs) (place : Place) (fs' : Fs) : Prop where
  cwd : fs'.cwd = fs.cwd
  nodes : fs'.nodes.Sublist fs.nodes
  each : ∀ q, fs'.get? q = fs.get? q ∨ place <+: q ∧ fs'.get? q = none
  tree : Tree fs'

section Cuts

variable {fs fs' fs'' : Fs} {place q : Place} {path name : CStr} {node : Node}

theorem Cut.refl (tree : Tree fs) : Cut fs place fs := ⟨rfl, .refl _, fun _ => .inl rfl, tree⟩

theorem Cut.trans (first : Cut fs place fs') (second : Cut fs' place fs'') : Cut fs place fs'' := by
  refine ⟨second.cwd.trans first.cwd, second.nodes.trans first.nodes, fun q => ?_, second.tree⟩
  rcases second.each q with same | gone
  · rw [same]
    exact first.each q
  · exact .inr gone

/-- What is removed below an entry is removed below the directory. -/
theorem Cut.above (cut : Cut fs (place ++ [name]) fs') : Cut fs place fs' := by
  refine ⟨cut.cwd, cut.nodes, fun q => ?_, cut.tree⟩
  rcases cut.each q with same | ⟨below, gone⟩
  · exact .inl same
  · exact .inr ⟨(List.prefix_append _ _).trans below, gone⟩

theorem Cut.found (cut : Cut fs place fs') (there : fs'.get? q = some node) : fs.get? q = some node := by
  rcases cut.each q with same | ⟨-, gone⟩
  · rw [← same, there]
  · cases gone.symm.trans there

theorem Cut.missing (cut : Cut fs place fs') (missing : fs.get? q = none) : fs'.get? q = none := by
  rcases cut.each q with same | ⟨-, gone⟩
  · rw [same, missing]
  · exact gone

theorem Cut.present (cut : Cut fs place fs') (there : fs'.get? q ≠ none) : fs.get? q ≠ none :=
  fun missing => there (cut.missing missing)

/-- The directory of an entry is not below it. -/
theorem Cut.parent (cut : Cut fs (place ++ [name]) fs') : fs'.get? place = fs.get? place := by
  rcases cut.each place with same | ⟨below, -⟩
  · exact same
  · have length := below.length_le
    rw [List.length_append, List.length_singleton] at length
    exact absurd length (Nat.not_succ_le_self _)

theorem Cut.genuine (cut : Cut fs place fs') (genuine : Genuine fs) : Genuine fs' where
  once := genuine.once.sublist (cut.nodes.map _)
  names := fun entry among => genuine.names entry (cut.nodes.subset among)
  nodes := fun entry among => genuine.nodes entry (cut.nodes.subset among)

theorem Cut.leads (cut : Cut fs place fs') {start : Place} {names : List CStr} {k : Nat} (leads : Leads fs' start names k q) :
    Leads fs start names k q :=
  leads.kept fun _ _ there => cut.found there

theorem Cut.origin (cut : Cut fs place fs') : origin fs' path = origin fs path := by
  rw [MiniDropbox.origin, MiniDropbox.origin, cut.cwd]

/-- What has no entries can be removed. -/
theorem Tree.erase (tree : Tree fs) (leaf : ∀ name, fs.get? (place ++ [name]) = none) : Cut fs place (fs.erase place) := by
  have each : ∀ q, (fs.erase place).get? q = fs.get? q ∨ place <+: q ∧ (fs.erase place).get? q = none := by
    intro q
    by_cases root : q = []
    · rw [root]
      exact .inl rfl
    · rw [get?_erase root]
      split_ifs with here
      · exact .inr ⟨here ▸ List.prefix_refl _, rfl⟩
      · exact .inl rfl
  have older : ∀ q, (fs.erase place).get? q ≠ none → (fs.erase place).get? q = fs.get? q := by
    intro q there
    rcases each q with same | ⟨-, gone⟩
    · exact same
    · exact absurd gone there
  refine ⟨rfl, List.filter_sublist, each, fun q name there => ?_, fun q target link => ?_⟩
  · have entry := there
    rw [older _ there] at entry
    have parent := tree.parents q name entry
    by_cases root : q = []
    · rw [root]
      rfl
    · rw [get?_erase root, if_neg, parent]
      rintro rfl
      exact entry (leaf name)
  · rw [older q (by rw [link]; exact Option.some_ne_none _)] at link
    exact tree.short q target link

theorem Tree.leaf_of_plain (tree : Tree fs) (found : fs.get? place = some node) (plain : node ≠ .dir) (name : CStr) :
    fs.get? (place ++ [name]) = none := by
  by_contra there
  exact plain (Option.some.inj (found.symm.trans (tree.parents place name there)))

theorem mem_names_iff_there : name ∈ fs.names place ↔ fs.get? (place ++ [name]) ≠ none :=
  Genuine.mem_names_iff.trans Option.isSome_iff_ne_none

theorem leaf_of_empty (empty : fs.names place = []) (name : CStr) : fs.get? (place ++ [name]) = none := by
  by_contra there
  have among := mem_names_iff_there.mpr there
  rw [empty] at among
  exact List.not_mem_nil among

/-- Where there are no entries there is nothing further down. -/
theorem Tree.bare (tree : Tree fs) (leaf : ∀ name, fs.get? (place ++ [name]) = none) {below : Place} (down : below ≠ []) :
    fs.get? (place ++ below) = none := by
  induction below using List.reverseRecOn with
  | nil => exact absurd rfl down
  | append_singleton below name ih =>
      by_cases top : below = []
      · rw [top]
        exact leaf name
      · by_contra there
        rw [← List.append_assoc] at there
        cases (ih top).symm.trans (tree.parents _ name there)

/-- After its removal nothing is left of what had no entries. -/
theorem Tree.erased (tree : Tree fs) (leaf : ∀ name, fs.get? (place ++ [name]) = none) (named : place ≠ []) (below : Place) :
    (fs.erase place).get? (place ++ below) = none := by
  by_cases top : below = []
  · rw [top, List.append_nil, get?_erase named, if_pos rfl]
  · exact (tree.erase leaf).missing (tree.bare leaf top)

end Cuts

/-! ### Tasks at a place -/

/-- The only node that `lstat` may find at a path is the one at the place. -/
def Finds (fs : Fs) (path : CStr) (place : Place) : Prop :=
  ∀ q node, fs.resolve false path = .ok q → fs.get? q = some node → q = place

/-- The names of a path lead to the place if they lead anywhere. -/
def Aims (fs : Fs) (path : CStr) (place : Place) : Prop :=
  ∀ k q, Leads fs (origin fs path) (components path) k q → q = place

/-- The paths that `rm_r` makes for what is below a place fit their buffers. -/
def Fits (fs : Fs) (path : CStr) (place : Place) : Prop :=
  ∀ below, fs.get? (place ++ below) ≠ none → (path ++ joined slash below).length < PATH_MAX

def Task.At (fs : Fs) (place : Place) : Task → Prop
  | .call path => Finds fs path place ∧ Fits fs path place
  | .loop path names => path ≠ [] ∧ Aims fs path place ∧ Fits fs path place ∧
      ∀ name ∈ names, Proper name ∧ (path ++ slash :: name).length < PATH_MAX

/-- What a task that ends with 0 leaves: nothing at the place, or, after a loop, the directory. -/
def Task.Leaves (fs : Fs) (place : Place) (fs' : Fs) : Task → Prop
  | .call _ => ∀ below, fs'.get? (place ++ below) = none
  | .loop _ _ => fs'.get? place = fs.get? place

section Tasks

variable {faults : Faults} {fs fs' : Fs} {place q : Place} {path name : CStr} {names : List CStr} {node : Node}

theorem lstat_place (found : fs.lstat path = .ok node) : ∃ q, fs.resolve false path = .ok q ∧ fs.get? q = some node := by
  obtain ⟨q, resolved, found⟩ := ok_of_bind found
  split at found
  · cases found
  · cases found
    exact ⟨q, resolved, by assumption⟩

/-- What `unlink` removes is no directory. -/
theorem unlink_plain (removed : fs.unlink path = .ok fs') :
    ∃ q node, fs.resolve false path = .ok q ∧ fs.get? q = some node ∧ node ≠ .dir ∧ fs' = fs.erase q := by
  obtain ⟨q, resolved, removed⟩ := ok_of_bind removed
  cases there : fs.get? q with
  | none =>
      rw [there] at removed
      cases removed
  | some node =>
      rw [there] at removed
      cases node with
      | dir => cases removed
      | file bytes =>
          cases removed
          exact ⟨q, _, resolved, there, fun dir => (by cases dir), rfl⟩
      | link target =>
          cases removed
          exact ⟨q, _, resolved, there, fun dir => (by cases dir), rfl⟩

theorem Aims.cut (aims : Aims fs path place) (cut : Cut fs q fs') : Aims fs' path place := by
  intro k r leads
  rw [cut.origin] at leads
  exact aims k r (cut.leads leads)

theorem Finds.aims (finds : Finds fs path place) (found : fs.lstat path = .ok .dir) : Aims fs path place := by
  obtain ⟨q, resolved, directory⟩ := lstat_place found
  obtain ⟨k, -, leads⟩ := leads_of_directory resolved directory
  intro l r other
  rw [(leads.unique other).2]
  exact finds q .dir resolved directory

theorem Aims.finds (aims : Aims fs path place) (short : ShortLinks fs) (proper : Proper name) (nonempty : path ≠ [])
    (fits : (path ++ slash :: name).length < PATH_MAX) : Finds fs (path ++ slash :: name) (place ++ [name]) := by
  intro q node resolved _
  obtain ⟨k, -, parent, leads, -, -, rfl⟩ := (resolve_entry_iff short proper nonempty fits).mp resolved
  rw [aims k parent leads]

/-- `rmdir` acts at the place. -/
theorem Aims.rmdir (aims : Aims fs path place) (short : ShortLinks fs) (fits : path.length < PATH_MAX)
    (removed : fs.rmdir path = .ok fs') : fs.resolve false (trimSlashes path) = .ok place ∧
      refusedName (components path).getLast? = none ∧ place ≠ [] ∧ fs.names place = [] ∧ fs' = fs.erase place := by
  obtain ⟨q, resolved, named, directory, empty, rfl⟩ := rmdir_place removed
  have leadsTo := resolved
  obtain ⟨names, name, split, proper⟩ := proper_of_not_refused named
  obtain ⟨k, -, parent, leads, dir, limit, rfl⟩ := (resolve_trimmed_iff short proper split fits).mp resolved
  have whole : Leads fs (origin fs path) (components path) (k + 0) (parent ++ [name]) := by
    rw [split]
    exact leads.append (.down dir proper.notDot proper.notDots limit directory Node.dir_ne_link .done)
  obtain rfl := aims _ _ whole
  exact ⟨leadsTo, named, List.append_ne_nil_of_right_ne_nil _ (List.cons_ne_nil _ _), empty, rfl⟩

theorem Fits.cut (fits : Fits fs path place) (cut : Cut fs q fs') : Fits fs' path place :=
  fun below there => fits below (cut.present there)

theorem Fits.entry (fits : Fits fs path place) : Fits fs (path ++ slash :: name) (place ++ [name]) := by
  intro below there
  rw [List.append_assoc, List.singleton_append] at there
  have short := fits _ there
  rwa [joined_cons, ← List.cons_append, ← List.append_assoc] at short

theorem Fits.last (fits : Fits fs path place) (there : fs.get? (place ++ [name]) ≠ none) :
    (path ++ slash :: name).length < PATH_MAX := by
  have short := fits [name] there
  rwa [joined_singleton] at short

theorem Task.At.cut {task : Task} (at' : task.At fs place) (cut : Cut fs q fs')
    (loop : ∃ path names, task = .loop path names) : task.At fs' place := by
  obtain ⟨path, names, rfl⟩ := loop
  obtain ⟨nonempty, aims, fits, each⟩ := at'
  exact ⟨nonempty, aims.cut cut, fits.cut cut, each⟩

/-- The loop over an opened directory is at its place. -/
theorem at_loop (genuine : Genuine fs) (call : (Task.call path).At fs place) (found : fs.lstat path = .ok .dir)
    (opened : fs.opendir path = .ok names) : fs.get? place = some .dir ∧ names = fs.names place ∧ (Task.loop path names).At fs place := by
  obtain ⟨finds, fits⟩ := call
  obtain ⟨q, resolved, directory⟩ := lstat_place found
  obtain rfl := finds q .dir resolved directory
  obtain ⟨r, followed, -, rfl⟩ := opendir_directory opened
  rw [resolve_follow resolved directory Node.dir_ne_link] at followed
  cases followed
  refine ⟨directory, rfl, (resolve_fits resolved).1, finds.aims found, fits, fun name among => ⟨(genuine.entry among).1, ?_⟩⟩
  exact fits.last (mem_names_iff_there.mp among)

theorem snprintf_short {text : CStr} (short : text.length < PATH_MAX) : snprintf PATH_MAX text = text :=
  List.take_of_length_le (Nat.le_pred_of_lt short)

/-- The call for an entry is at the place of the entry. -/
theorem Task.At.entry (tree : Tree fs) (loop : (Task.loop path (name :: names)).At fs place) :
    (Task.call (snprintf PATH_MAX (path ++ slash :: name))).At fs (place ++ [name]) := by
  obtain ⟨nonempty, aims, fits, each⟩ := loop
  obtain ⟨proper, short⟩ := each name List.mem_cons_self
  rw [snprintf_short short]
  exact ⟨aims.finds tree.short proper nonempty short, fits.entry⟩

theorem Task.At.rest (loop : (Task.loop path (name :: names)).At fs place) : (Task.loop path names).At fs place := by
  obtain ⟨nonempty, aims, fits, each⟩ := loop
  exact ⟨nonempty, aims, fits, fun n among => each n (List.mem_cons_of_mem _ among)⟩

/-- A run changes nothing outside the subtree at its place, and if a call ends with 0 nothing
of that is left. -/
theorem Runs.cut {task : Task} {result : Except Errno Unit} (runs : Runs faults task fs fs' result) (tree : Tree fs)
    (genuine : Genuine fs) (at' : task.At fs place) : Cut fs place fs' ∧ (result = .ok () → task.Leaves fs place fs') := by
  induction runs generalizing place with
  | unstatted => exact ⟨.refl tree, fun ok => by cases ok⟩
  | unopened => exact ⟨.refl tree, fun ok => by cases ok⟩
  | kept found opened _ _ ih =>
      obtain ⟨-, -, loop⟩ := at_loop genuine at' (perform_ok found) (perform_ok opened)
      exact ⟨(ih tree genuine loop).1, fun ok => by cases ok⟩
  | removed found opened _ removed ih =>
      obtain ⟨-, -, loop⟩ := at_loop genuine at' (perform_ok found) (perform_ok opened)
      obtain ⟨emptied, -⟩ := ih tree genuine loop
      obtain ⟨q, resolved, -⟩ := lstat_place (perform_ok found)
      obtain ⟨-, -, named, empty, rfl⟩ := (loop.2.1.cut emptied).rmdir emptied.tree.short (resolve_fits resolved).2 (perform_ok removed)
      have leaf := leaf_of_empty empty
      exact ⟨emptied.trans (emptied.tree.erase leaf), fun _ => emptied.tree.erased leaf named⟩
  | linked => exact ⟨.refl tree, fun ok => by cases ok⟩
  | unlinked _ _ removed =>
      obtain ⟨q, node, resolved, there, plain, rfl⟩ := unlink_plain (perform_ok removed)
      obtain rfl := at'.1 q node resolved there
      have leaf := tree.leaf_of_plain there plain
      refine ⟨tree.erase leaf, fun _ => tree.erased leaf ?_⟩
      rintro rfl
      exact plain (Option.some.inj there).symm
  | done => exact ⟨.refl tree, fun _ => rfl⟩
  | next _ _ first rest =>
      obtain ⟨entry, -⟩ := first tree genuine (at'.entry tree)
      obtain ⟨others, kept⟩ := rest entry.tree (entry.genuine genuine) (at'.rest.cut entry ⟨_, _, rfl⟩)
      exact ⟨entry.above.trans others, fun ok => (kept rfl).trans entry.parent⟩

end Tasks

/-! ### Removal that does not fail -/

/-- A path leads to its node also when what is below the node is gone, and `rmdir` does not
refuse how it is spelled. -/
structure Steady (fs : Fs) (path : CStr) (place : Place) : Prop where
  named : refusedName (components path).getLast? = none
  way : ∀ fs', Cut fs place fs' → fs'.get? place = fs.get? place → fs'.resolve false (trimSlashes path) = .ok place

/-- The names of a path lead to a directory also when what is below it is gone. -/
def Way (fs : Fs) (path : CStr) (place : Place) : Prop :=
  ∀ fs', Cut fs place fs' → fs'.get? place = some .dir → ∃ k ≤ 40, Leads fs' (origin fs' path) (components path) k place

section Success

variable {faults : Faults} {fs fs' : Fs} {place q : Place} {path name : CStr} {names : List CStr} {node : Node}

theorem Steady.toWay (steady : Steady fs path place) (fits : path.length < PATH_MAX) (directory : fs.get? place = some .dir) :
    Way fs path place := by
  intro fs' cut dir
  obtain ⟨names, name, split, proper⟩ := proper_of_not_refused steady.named
  have resolved := steady.way fs' cut (dir.trans directory.symm)
  obtain ⟨k, few, parent, leads, top, limit, rfl⟩ := (resolve_trimmed_iff cut.tree.short proper split fits).mp resolved
  have whole := leads.append (.down top proper.notDot proper.notDots limit dir Node.dir_ne_link .done)
  rw [← split] at whole
  exact ⟨k + 0, few, whole⟩

theorem Way.cut (way : Way fs path place) (cut : Cut fs place fs') : Way fs' path place :=
  fun fs'' later dir => way fs'' (cut.trans later) dir

/-- The path of an entry is as steady as the one of its directory. -/
theorem Way.entry (way : Way fs path place) (directory : fs.get? place = some .dir) (nonempty : path ≠ [])
    (proper : Proper name) (limit : name.length ≤ NAME_MAX) (short : (path ++ slash :: name).length < PATH_MAX) :
    Steady fs (path ++ slash :: name) (place ++ [name]) where
  named := by
    rw [components_entry proper, List.getLast?_concat, refusedName, if_neg proper.notDot, if_neg proper.notDots]
  way := by
    intro fs' cut _
    have dir := cut.parent.trans directory
    obtain ⟨k, few, leads⟩ := way fs' cut.above dir
    refine (resolve_trimmed_iff cut.tree.short proper (components_entry proper) short).mpr ⟨k, few, place, ?_, dir, limit, rfl⟩
    rwa [origin, List.head?_append_of_ne_nil _ nonempty]

theorem perform_none {α : Type} {site : Site} {call : Except Errno α} (none : faults site path = none) :
    perform faults site path call = call := by
  rw [perform, none]

theorem unlink_of_place (resolved : fs.resolve false path = .ok place) (there : fs.get? place = some node)
    (plain : node ≠ .dir) : fs.unlink path = .ok (fs.erase place) := by
  rw [Fs.unlink, resolved]
  cases node with
  | dir => exact absurd rfl plain
  | file bytes => simp only [bind, Except.bind, there]
  | link target => simp only [bind, Except.bind, there]

theorem Steady.rmdir (steady : Steady fs path place) (cut : Cut fs place fs') (same : fs'.get? place = fs.get? place)
    (directory : fs.get? place = some .dir) (empty : fs'.names place = []) : fs'.rmdir path = .ok (fs'.erase place) := by
  rw [Fs.rmdir, steady.way fs' cut same]
  simp only [bind, Except.bind, steady.named, same, directory, empty, if_true]

/-- None of the calls of `rm_r` is made to fail. -/
structure Unfailing (faults : Faults) : Prop where
  lstat : ∀ path, faults .rmLstat path = none
  unlink : ∀ path, faults .rmUnlink path = none
  opendir : ∀ path, faults .rmOpendir path = none
  rmdir : ∀ path, faults .rmRmdir path = none

/-- What a task needs in order not to fail. -/
def Task.Ready (fs : Fs) (place : Place) : Task → Prop
  | .call path => fs.resolve false path = .ok place ∧ fs.get? place ≠ none ∧ Steady fs path place
  | .loop path _ => fs.get? place = some .dir ∧ Way fs path place

/-- The call ends with 0, or the entries of the loop are gone. -/
def Task.Succeeds (place : Place) (fs' : Fs) (result : Except Errno Unit) : Task → Prop
  | .call _ => result = .ok ()
  | .loop _ names => ∀ name ∈ names, fs'.get? (place ++ [name]) = none

theorem Task.Ready.loop (call : (Task.call path).Ready fs place) (directory : fs.get? place = some .dir) :
    (Task.loop path names).Ready fs place :=
  ⟨directory, call.2.2.toWay (resolve_fits call.1).2 directory⟩

/-- The entry of a loop that is there can be removed. -/
theorem Task.Ready.entry (genuine : Genuine fs) (tree : Tree fs) (loop : (Task.loop path (name :: names)).Ready fs place)
    (at' : (Task.loop path (name :: names)).At fs place) (there : fs.get? (place ++ [name]) ≠ none) :
    (Task.call (snprintf PATH_MAX (path ++ slash :: name))).Ready fs (place ++ [name]) := by
  obtain ⟨directory, way⟩ := loop
  obtain ⟨nonempty, -, -, each⟩ := at'
  obtain ⟨proper, short⟩ := each name List.mem_cons_self
  have limit := (genuine.entry (mem_names_iff_there.mpr there)).2.2
  obtain ⟨k, few, leads⟩ := way fs (.refl tree) directory
  rw [snprintf_short short]
  exact ⟨(resolve_entry_iff tree.short proper nonempty short).mpr ⟨k, few, place, leads, directory, limit, rfl⟩, there,
    way.entry directory nonempty proper limit short⟩

/-- A run in which no call is made to fail succeeds. -/
theorem Runs.ok {task : Task} {result : Except Errno Unit} (unfailing : Unfailing faults)
    (runs : Runs faults task fs fs' result) (tree : Tree fs) (genuine : Genuine fs) (at' : task.At fs place)
    (ready : task.Ready fs place) : task.Succeeds place fs' result := by
  induction runs generalizing place with
  | unstatted failed =>
      obtain ⟨resolved, there, -⟩ := ready
      obtain ⟨node, found⟩ := Option.ne_none_iff_exists'.mp there
      rw [perform_none (unfailing.lstat _), lstat_of_resolve resolved found] at failed
      cases failed
  | unopened found failed =>
      obtain ⟨q, resolved, directory⟩ := lstat_place (perform_ok found)
      have followed := resolve_follow resolved directory Node.dir_ne_link
      rw [perform_none (unfailing.opendir _), opendir_of_directory followed directory] at failed
      cases failed
  | @kept path names fs fs' errno found opened runs failed ih =>
      obtain ⟨directory, rfl, loop⟩ := at_loop genuine at' (perform_ok found) (perform_ok opened)
      obtain ⟨emptied, kept⟩ := runs.cut tree genuine loop
      have gone := ih tree genuine loop (ready.loop directory)
      have empty : fs'.names place = [] := List.eq_nil_iff_forall_not_mem.mpr fun name among => by
        have there := mem_names_iff_there.mp among
        exact there (gone name (mem_names_iff_there.mpr (emptied.present there)))
      rw [perform_none (unfailing.rmdir _), ready.2.2.rmdir emptied (kept rfl) directory empty] at failed
      cases failed
  | removed => rfl
  | linked found plain failed =>
      obtain ⟨q, resolved, there⟩ := lstat_place (perform_ok found)
      rw [perform_none (unfailing.unlink _), unlink_of_place resolved there plain] at failed
      cases failed
  | unlinked => rfl
  | done => exact List.forall_mem_nil _
  | @next path name names fs fs' fs'' result call later first rest =>
      obtain ⟨entry, cleared⟩ := call.cut tree genuine (at'.entry tree)
      have behind := at'.rest.cut entry ⟨_, _, rfl⟩
      have left : (Task.loop path names).Ready fs' place :=
        ⟨entry.parent.trans ready.1, ready.2.cut entry.above⟩
      have others := rest entry.tree (entry.genuine genuine) behind left
      refine List.forall_mem_cons.mpr ⟨?_, others⟩
      have gone : fs'.get? (place ++ [name]) = none := by
        by_cases missing : fs.get? (place ++ [name]) = none
        · exact entry.missing missing
        · have nothing := cleared (first tree genuine (at'.entry tree) (ready.entry genuine tree at' missing)) []
          rwa [List.append_nil] at nothing
      exact (later.cut entry.tree (entry.genuine genuine) behind).1.missing gone

end Success

/-! ### Removal that succeeds -/

section Steadiness

variable {faults : Faults} {fs fs' : Fs} {place q : Place} {path : CStr} {node : Node}

/-- A path is steady if it leads to its node when nothing is left below that. -/
theorem steady_of_bare (cut : Cut fs place fs') (same : fs'.get? place = fs.get? place)
    (bare : ∀ below ≠ [], fs'.get? (place ++ below) = none) (named : refusedName (components path).getLast? = none)
    (fits : path.length < PATH_MAX) (resolved : fs'.resolve false (trimSlashes path) = .ok place) : Steady fs path place := by
  refine ⟨named, fun other cut' same' => ?_⟩
  have kept : ∀ r node, fs'.get? r = some node → other.get? r = some node := by
    intro r node there
    rcases cut'.each r with old | ⟨⟨below, rfl⟩, -⟩
    · rw [old]
      exact cut.found there
    · by_cases top : below = []
      · rw [top, List.append_nil] at there ⊢
        rw [same', ← same]
        exact there
      · cases (bare below top).symm.trans there
  obtain ⟨names, name, split, proper⟩ := proper_of_not_refused named
  obtain ⟨k, few, parent, leads, dir, limit, whole⟩ := (resolve_trimmed_iff cut.tree.short proper split fits).mp resolved
  refine (resolve_trimmed_iff cut'.tree.short proper split fits).mpr ⟨k, few, parent, ?_, kept _ _ dir, limit, whole⟩
  have started := leads.kept kept
  rwa [cut.origin, ← cut'.origin] at started

/-- The path of a node that is no directory ends in a proper name. -/
theorem proper_of_plain (tree : Tree fs) (resolved : fs.resolve false path = .ok place) (there : fs.get? place = some node)
    (plain : node ≠ .dir) : path.getLast? ≠ some slash ∧ refusedName (components path).getLast? = none := by
  have other : fs.get? place ≠ some .dir := fun dir => plain (Option.some.inj (there.symm.trans dir))
  -- the last name is neither `.` nor `..`, wherever it is looked up
  have last : ∀ fuel links m name, fs.walk false fuel links m [name] = .ok place → name ≠ [dot] ∧ name ≠ [dot, dot] := by
    intro fuel links m name walked
    cases walks_of_walk walked with
    | here dir later =>
        cases later
        exact absurd dir other
    | up dir later =>
        cases later
        refine absurd ?_ other
        cases m using List.reverseRecOn with
        | nil => rfl
        | append_singleton m n =>
            rw [List.dropLast_concat]
            exact tree.parents m n (by rw [dir]; exact Option.some_ne_none _)
    | missing dir notDot notDots => exact ⟨notDot, notDots⟩
    | down dir notDot notDots => exact ⟨notDot, notDots⟩
    | last dir notDot notDots => exact ⟨notDot, notDots⟩
    | link dir notDot notDots => exact ⟨notDot, notDots⟩
  obtain ⟨nonempty, -⟩ := resolve_fits resolved
  have walked := walk_of_resolve resolved
  rw [trail] at walked
  by_cases slashed : path.getLast? = some slash
  · rw [if_pos slashed] at walked
    obtain ⟨k, m, fuel, -, -, rest⟩ := leads_of_walk walked (.inl (List.cons_ne_nil _ _))
    exact absurd rfl (last _ _ _ _ rest).1
  · rw [if_neg slashed, List.append_nil] at walked
    refine ⟨slashed, ?_⟩
    cases named : (components path).getLast? with
    | none =>
        have only := eq_sep_of_pieces_nil (List.getLast?_eq_none_iff.mp named) _ (List.getLast_mem nonempty)
        rw [List.getLast?_eq_some_getLast nonempty, only] at slashed
        exact absurd rfl slashed
    | some name =>
        obtain ⟨names, split⟩ := List.getLast?_eq_some_iff.mp named
        rw [split] at walked
        obtain ⟨k, m, fuel, -, -, rest⟩ := leads_of_walk walked (.inl (List.cons_ne_nil _ _))
        obtain ⟨notDot, notDots⟩ := last _ _ _ _ rest
        rw [refusedName, if_neg notDot, if_neg notDots]

/-- A call that ends with 0 has found a node. -/
theorem Runs.found (runs : Runs faults (.call path) fs fs' (.ok ())) :
    ∃ q, fs.resolve false path = .ok q ∧ fs.get? q ≠ none := by
  have there : ∀ node, fs.lstat path = .ok node → ∃ q, fs.resolve false path = .ok q ∧ fs.get? q ≠ none := by
    intro node found
    obtain ⟨q, resolved, there⟩ := lstat_place found
    exact ⟨q, resolved, by rw [there]; exact Option.some_ne_none _⟩
  cases runs with
  | removed found => exact there _ (perform_ok found)
  | unlinked found => exact there _ (perform_ok found)

/-- One of the calls that `rm_r` makes with its own path fails. -/
inductive CallFails (faults : Faults) (fs : Fs) (path : CStr) (errno : Errno) : Prop
  | lstat : perform faults .rmLstat path (fs.lstat path) = .error errno → CallFails faults fs path errno
  | opendir : perform faults .rmOpendir path (fs.opendir path) = .error errno → CallFails faults fs path errno
  | unlink : perform faults .rmUnlink path (fs.unlink path) = .error errno → CallFails faults fs path errno
  | rmdir {names : List CStr} {fs' : Fs} : Runs faults (.loop path names) fs fs' (.ok ()) →
      perform faults .rmRmdir path (fs'.rmdir path) = .error errno → CallFails faults fs path errno

theorem Runs.fails {errno : Errno} (runs : Runs faults (.call path) fs fs' (.error errno)) : CallFails faults fs path errno := by
  cases runs with
  | unstatted failed => exact .lstat failed
  | unopened _ failed => exact .opendir failed
  | kept _ _ loop failed => exact .rmdir loop failed
  | linked _ _ failed => exact .unlink failed

/-- The path of a call that ends with 0 was steady. -/
theorem Runs.steady (runs : Runs faults (.call path) fs fs' (.ok ())) (tree : Tree fs) (genuine : Genuine fs)
    (resolved : fs.resolve false path = .ok place) (fits : Fits fs path place) : Steady fs path place := by
  have at' : (Task.call path).At fs place := by
    refine ⟨fun q node leads _ => ?_, fits⟩
    cases resolved.symm.trans leads
    rfl
  have short := (resolve_fits resolved).2
  cases runs with
  | removed found opened loop removed =>
      obtain ⟨-, -, here⟩ := at_loop genuine at' (perform_ok found) (perform_ok opened)
      obtain ⟨emptied, kept⟩ := loop.cut tree genuine here
      obtain ⟨leads, named, -, empty, -⟩ := (here.2.1.cut emptied).rmdir emptied.tree.short short (perform_ok removed)
      exact steady_of_bare emptied (kept rfl) (fun _ => emptied.tree.bare (leaf_of_empty empty)) named short leads
  | unlinked found plain removed =>
      obtain ⟨q, leads, there⟩ := lstat_place (perform_ok found)
      cases resolved.symm.trans leads
      obtain ⟨slashed, named⟩ := proper_of_plain tree resolved there plain
      refine steady_of_bare (.refl tree) rfl (fun _ => tree.bare (tree.leaf_of_plain there plain)) named short ?_
      rwa [trimSlashes_of_last slashed]

/-- The names of its place lead to a directory. -/
theorem Tree.leads (tree : Tree fs) (good : ∀ n ∈ place, Proper n ∧ n.length ≤ NAME_MAX) (directory : fs.get? place = some .dir) :
    Leads fs [] place 0 place := by
  induction place using List.reverseRecOn with
  | nil => exact .done
  | append_singleton parent name ih =>
      have top := tree.parents parent name (by rw [directory]; exact Option.some_ne_none _)
      obtain ⟨proper, limit⟩ := good name (List.mem_append_right _ List.mem_cons_self)
      exact (ih (fun n among => good n (List.mem_append_left _ among)) top).append
        (.down top proper.notDot proper.notDots limit directory Node.dir_ne_link .done)

/-- The path that spells out the place of a node is steady. -/
theorem Tree.steady (tree : Tree fs) (genuine : Genuine fs) (below : place ≠ []) (there : fs.get? place ≠ none)
    (fits : (joined slash place).length < PATH_MAX) :
    fs.resolve false (joined slash place) = .ok place ∧ Steady fs (joined slash place) place := by
  obtain ⟨node, found⟩ := Option.ne_none_iff_exists'.mp there
  have good : ∀ n ∈ place, Proper n ∧ n.length ≤ NAME_MAX := fun n among => by
    obtain ⟨proper, -, limit⟩ := genuine.names _ (mem_of_get? below found) n among
    exact ⟨proper, limit⟩
  have names : ∀ n ∈ place, IsName slash n := fun n among => (good n among).1.toIsName
  have start : (joined slash place).head? = some slash := by rw [joined_eq_cons below, List.head?_cons]
  cases place using List.reverseRecOn with
  | nil => exact absurd rfl below
  | append_singleton parent name =>
      obtain ⟨proper, limit⟩ := good name (List.mem_append_right _ List.mem_cons_self)
      have split : components (joined slash (parent ++ [name])) = parent ++ [name] := pieces_joined names
      have way : ∀ fs', Tree fs' → fs'.get? (parent ++ [name]) ≠ none → ∃ k ≤ 40, ∃ q,
          Leads fs' (origin fs' (joined slash (parent ++ [name]))) parent k q ∧ fs'.get? q = some .dir ∧
            name.length ≤ NAME_MAX ∧ parent ++ [name] = q ++ [name] := by
        intro fs' tree' there'
        have top := tree'.parents parent name there'
        refine ⟨0, Nat.zero_le _, parent, ?_, top, limit, rfl⟩
        rw [origin, if_pos start]
        exact tree'.leads (fun n among => good n (List.mem_append_left _ among)) top
      refine ⟨(resolve_name_iff tree.short proper split (getLast?_joined names) fits).mpr (way fs tree there), ?_, ?_⟩
      · rw [split, List.getLast?_concat, refusedName, if_neg proper.notDot, if_neg proper.notDots]
      · intro fs' cut same
        exact (resolve_trimmed_iff cut.tree.short proper split fits).mpr (way fs' cut.tree (by rw [same]; exact there))

end Steadiness

/-! ### The end of a run -/

section Total

variable {faults : Faults} {fs : Fs} {place q : Place} {path : CStr}

/-- A place is no deeper than there are nodes. -/
theorem Tree.length_le (tree : Tree fs) (there : fs.get? q ≠ none) : q.length ≤ fs.nodes.length := by
  have above : ∀ n ≤ q.length, fs.get? (q.take n) ≠ none := by
    intro n
    induction hn : q.length - n generalizing n with
    | zero =>
        intro _
        rwa [List.take_of_length_le (Nat.sub_eq_zero_iff_le.mp hn)]
    | succ left ih =>
        intro inside
        have short : n < q.length := by omega
        have next := ih (n + 1) (by omega) short
        rw [List.take_succ_eq_append_getElem short] at next
        rw [tree.parents _ _ next]
        exact Option.some_ne_none _
  have listed : (List.range q.length).map (fun n => q.take (n + 1)) ⊆ fs.nodes.map Prod.fst := by
    intro r among
    obtain ⟨n, inside, rfl⟩ := List.mem_map.mp among
    have inside := List.mem_range.mp inside
    obtain ⟨node, found⟩ := Option.ne_none_iff_exists'.mp (above (n + 1) inside)
    refine List.mem_map.mpr ⟨_, mem_of_get? ?_ found, rfl⟩
    intro empty
    have length := congrArg List.length empty
    rw [List.length_take_of_le inside] at length
    exact Nat.succ_ne_zero n length
  have distinct : ((List.range q.length).map fun n => q.take (n + 1)).Nodup := by
    refine List.Nodup.map_on (fun m hm n hn same => ?_) List.nodup_range
    have length := congrArg List.length same
    rw [List.length_take_of_le (List.mem_range.mp hm), List.length_take_of_le (List.mem_range.mp hn)] at length
    exact Nat.succ.inj length
  have few := (distinct.subperm listed).length_le
  rwa [List.length_map, List.length_range, List.length_map] at few

/-- With fuel for what is below its place, `rmR` is a run. -/
theorem rmR_runs {fuel : Nat} (tree : Tree fs) (genuine : Genuine fs) (at' : (Task.call path).At fs place)
    (enough : ∀ q, fs.get? q ≠ none → q.length < fuel + 1 + place.length) :
    Runs faults (.call path) fs (rmR faults (fuel + 1) fs path).1 (rmR faults (fuel + 1) fs path).2 := by
  induction fuel using Nat.strongRecOn generalizing fs path place with
  | ind fuel ih =>
  cases found : perform faults .rmLstat path (fs.lstat path) with
  | error errno =>
      rw [rmR, found]
      exact .unstatted found
  | ok node =>
      by_cases directory : node = .dir
      · subst directory
        cases opened : perform faults .rmOpendir path (fs.opendir path) with
        | error errno =>
            rw [rmR, found]
            dsimp only
            rw [opened]
            exact .unopened found opened
        | ok names =>
            obtain ⟨-, listed, loop⟩ := at_loop genuine at' (perform_ok found) (perform_ok opened)
            have there : ∀ name ∈ names, place.length + 1 < fuel + 1 + place.length := by
              intro name among
              rw [listed] at among
              have deep := enough _ (mem_names_iff_there.mp among)
              rwa [List.length_append, List.length_singleton] at deep
            have emptied : ∀ rest fs', Cut fs place fs' → (Task.loop path rest).At fs' place → (∀ name ∈ rest, name ∈ names) →
                Runs faults (.loop path rest) fs' ((Task.loop path rest).computed faults fuel fs').1 (.ok ()) := by
              intro rest
              induction rest with
              | nil => exact fun _ _ _ _ => .done
              | cons name rest later =>
                  intro fs' cut here among
                  obtain ⟨less, rfl⟩ : ∃ less, fuel = less + 1 := by
                    have deep := there name (among name List.mem_cons_self)
                    exact ⟨fuel - 1, by omega⟩
                  have call := ih less (Nat.lt_succ_self less) cut.tree (cut.genuine genuine) (here.entry cut.tree) fun q found => by
                    have deep := enough q (cut.present found)
                    rw [List.length_append, List.length_singleton]
                    omega
                  have entry := (call.cut cut.tree (cut.genuine genuine) (here.entry cut.tree)).1
                  exact .next call (later _ (cut.trans entry.above) (here.rest.cut entry ⟨_, _, rfl⟩)
                    fun n hn => among n (List.mem_cons_of_mem _ hn))
            have loops := emptied names fs (.refl tree) loop fun _ => id
            rw [rmR_dir found opened]
            cases removed : perform faults .rmRmdir path (((Task.loop path names).computed faults fuel fs).1.rmdir path) with
            | error errno => exact .kept found opened loops removed
            | ok fs' => exact .removed found opened loops removed
      · rw [rmR_plain found directory]
        cases removed : perform faults .rmUnlink path (fs.unlink path) with
        | error errno => exact .linked found directory removed
        | ok fs' => exact .unlinked found directory removed

end Total

/-- `rm_r` comes to an end, whatever fails. If it ends with 0, its path led to a node of which,
with its whole subtree, nothing is left; nothing outside that subtree changes in any case.
It ends with 0 unless a call fails, and if none is made to fail none does, if its path is steady. -/
theorem rmR_removes {faults : Faults} {fs : Fs} {path : CStr} (tree : Tree fs) (genuine : Genuine fs)
    (fits : ∀ place, fs.resolve false path = .ok place → Fits fs path place) :
    (∀ fs' result, Runs faults (.call path) fs fs' result ↔ rmR faults fs.depth fs path = (fs', result)) ∧
    ((rmR faults fs.depth fs path).2 = .ok () → ∃ place, fs.resolve false path = .ok place ∧ fs.get? place ≠ none ∧
      ∀ below, (rmR faults fs.depth fs path).1.get? (place ++ below) = none) ∧
    (∀ q, (rmR faults fs.depth fs path).1.get? q = fs.get? q ∨ (rmR faults fs.depth fs path).1.get? q = none ∧
      ∃ place, fs.resolve false path = .ok place ∧ place <+: q) ∧
    (∀ errno, (rmR faults fs.depth fs path).2 = .error errno → CallFails faults fs path errno) ∧
    (Unfailing faults → ∀ place, fs.resolve false path = .ok place → fs.get? place ≠ none →
      ((rmR faults fs.depth fs path).2 = .ok () ↔ Steady fs path place)) := by
  cases resolved : fs.resolve false path with
  | error errno =>
      have missing : fs.lstat path = .error errno := by
        rw [Fs.lstat, resolved]
        rfl
      obtain ⟨errno', failed⟩ : ∃ errno', perform faults .rmLstat path (fs.lstat path) = .error errno' := by
        cases fault : faults .rmLstat path with
        | some errno' => exact ⟨errno', by rw [perform, fault]⟩
        | none => exact ⟨errno, by rw [perform_none fault, missing]⟩
      have result : rmR faults fs.depth fs path = (fs, .error errno') := by rw [Fs.depth, rmR, failed]
      rw [result]
      refine ⟨fun fs' ends => ⟨fun runs => ((Runs.unstatted failed).unique runs).symm, ?_⟩, fun ok => (by cases ok), fun q => .inl rfl, ?_,
        fun _ place leads => (by cases leads)⟩
      · intro same
        obtain ⟨rfl, rfl⟩ := Prod.mk.inj same
        exact .unstatted failed
      · intro errno ends
        obtain rfl := Except.error.inj ends
        exact .lstat failed
  | ok place =>
      have fits := fits place resolved
      have at' : (Task.call path).At fs place := by
        refine ⟨fun q node leads _ => ?_, fits⟩
        cases resolved.symm.trans leads
        rfl
      have runs := @rmR_runs faults fs place path fs.nodes.length tree genuine at' fun q there => by
        have deep := tree.length_le there
        omega
      rw [← Fs.depth] at runs
      obtain ⟨cut, cleared⟩ := runs.cut tree genuine at'
      refine ⟨fun fs' result => ⟨fun other => (runs.unique other).symm, ?_⟩, fun ok => ?_, fun q => ?_,
        fun errno failed => ?_, fun unfailing q leads there => ⟨fun ok => ?_, fun steady => ?_⟩⟩
      · intro same
        rw [same] at runs
        exact runs
      · rw [ok] at runs
        obtain ⟨q, leads, there⟩ := runs.found
        cases resolved.symm.trans leads
        exact ⟨place, rfl, there, cleared ok⟩
      · rcases cut.each q with same | ⟨below, gone⟩
        · exact .inl same
        · exact .inr ⟨gone, place, rfl, below⟩
      · rw [failed] at runs
        exact runs.fails
      · cases leads
        rw [ok] at runs
        exact runs.steady tree genuine resolved fits
      · cases leads
        exact runs.ok unfailing tree genuine at' ⟨resolved, there, steady⟩

/-- A directory with a directory and a link to another. -/
def linkHeld : Fs where
  nodes := [([cstr "d"], .dir), ([cstr "d", cstr "e"], .dir), ([cstr "d", cstr "e", cstr "f"], .file (cstr "hi")),
    ([cstr "d", cstr "l"], .link (cstr "/t")), ([cstr "t"], .dir), ([cstr "t", cstr "g"], .file (cstr "ho"))]
  cwd := []

theorem linkHeld_tree : Tree linkHeld where
  parents := by
    intro place name there
    have parents : ∀ entry ∈ linkHeld.nodes, linkHeld.get? entry.1.dropLast = some .dir := by decide
    obtain ⟨node, found⟩ := Option.ne_none_iff_exists'.mp there
    have parent := parents _ (mem_of_get? (List.append_ne_nil_of_right_ne_nil _ (List.cons_ne_nil _ _)) found)
    rwa [List.dropLast_concat] at parent
  short := by
    intro place target link
    have links : ∀ entry ∈ linkHeld.nodes, entry.2 = .link (cstr "/t") ∨ ∀ target, entry.2 ≠ .link target := by
      simp [linkHeld]
    have named : place ≠ [] := by
      rintro rfl
      cases link
    rcases links _ (mem_of_get? named link) with same | other
    · rw [Node.link.inj same]
      decide
    · exact absurd rfl (other target)

theorem linkHeld_genuine : Genuine linkHeld := by
  have names : ∀ entry ∈ linkHeld.nodes, ∀ name ∈ entry.1, (name ≠ [] ∧ slash ∉ name) ∧
      (name ≠ [dot] ∧ name ≠ [dot, dot]) ∧ 0 ∉ name ∧ name.length ≤ NAME_MAX := by
    decide
  refine ⟨by decide, fun entry among name part => ?_, ?_⟩
  · obtain ⟨⟨nonempty, free⟩, ⟨notDot, notDots⟩, more⟩ := names entry among name part
    exact ⟨⟨⟨nonempty, free⟩, notDot, notDots⟩, more⟩
  · simp [linkHeld, Node.Genuine]
    decide

/-- The directory is removed, and where the link led everything is still there. -/
theorem rmR_removes_linked : (rmR (fun _ _ => none) linkHeld.depth linkHeld (cstr "/d")).2 = .ok () ∧
    (∀ below, (rmR (fun _ _ => none) linkHeld.depth linkHeld (cstr "/d")).1.get? ([cstr "d"] ++ below) = none) ∧
    (rmR (fun _ _ => none) linkHeld.depth linkHeld (cstr "/d")).1.get? [cstr "t", cstr "g"] = some (.file (cstr "ho")) := by
  have short : ∀ entry ∈ linkHeld.nodes, (joined slash entry.1).length < PATH_MAX := by decide
  have steady := @Tree.steady linkHeld [cstr "d"] linkHeld_tree linkHeld_genuine (List.cons_ne_nil _ _) (by decide) (by decide)
  have spelled : cstr "/d" = joined slash [cstr "d"] := by decide
  rw [spelled]
  have fits : ∀ place, linkHeld.resolve false (joined slash [cstr "d"]) = .ok place →
      Fits linkHeld (joined slash [cstr "d"]) place := by
    intro place resolved below there
    cases resolved.symm.trans steady.1
    obtain ⟨node, found⟩ := Option.ne_none_iff_exists'.mp there
    rw [← joined_append]
    exact short _ (mem_of_get? (List.cons_ne_nil _ _) found)
  obtain ⟨-, gone, kept, -, ends⟩ := @rmR_removes (fun _ _ => none) linkHeld _ linkHeld_tree linkHeld_genuine fits
  have ok := (ends ⟨fun _ => rfl, fun _ => rfl, fun _ => rfl, fun _ => rfl⟩ _ steady.1 (by decide)).mpr steady.2
  refine ⟨ok, ?_, ?_⟩
  · obtain ⟨place, resolved, -, nothing⟩ := gone ok
    cases resolved.symm.trans steady.1
    exact nothing
  · rcases kept [cstr "t", cstr "g"] with same | ⟨-, place, resolved, below⟩
    · rw [same]
      decide
    · cases resolved.symm.trans steady.1
      exact absurd below (by decide)

end MiniDropbox
