/-
The storage directory as a tree store.

What `mkdir`, `create_directories_from_path` and `rm_r` do below the storage directory is what
the operations of a `TreeStore` do, as long as no call is made to fail and the paths are short
enough for their buffers (`Mirrors`).
-/

import MiniDropbox.Lib.TreeStore
import MiniDropbox.Views

namespace MiniDropbox

open Lexical TreeStore

/-- What stands for an entry in the tree. -/
def nodeOf : Entry (List Byte) → Node
  | .dir => .dir
  | .leaf bytes => .file bytes

/-- The names the kernel takes. -/
def ShortName (name : CStr) : Prop := name.length ≤ NAME_MAX

/-- The storage directory holds what a store holds, under paths that leave room for a slash. -/
structure Mirrors (fs : Fs) (store : Store CStr (List Byte)) : Prop where
  housed : Housed fs
  tree : Tree fs
  genuine : Genuine fs
  short : ∀ path, fs.get? (storagePlace ++ path) ≠ none → (joined slash (storagePlace ++ path)).length + 1 < PATH_MAX
  entries : ∀ path, fs.get? (storagePlace ++ path) = (store.entry path).map nodeOf

section Directories

variable {fs : Fs} {store : Store CStr (List Byte)} {path : List CStr} {name dir : CStr} {q : Place}

theorem storage_ne_nil : storagePlace ++ path ≠ [] := List.append_ne_nil_of_left_ne_nil (by decide) _

/-- A directory that is made somewhere below the storage directory. -/
theorem Housed.madeDir (housed : Housed fs) (named : path ≠ []) (proper : ∀ n ∈ path, Proper n) :
    Housed (fs.set (storagePlace ++ path) .dir) where
  toOrdinary := housed.toOrdinary.made proper (.single (.put ⟨rfl, path, named, List.prefix_rfl, rfl⟩))
  above place above := by
    by_cases root : place = []
    · rw [root]
      rfl
    · rw [get?_set root, if_neg, housed.above place above]
      rintro rfl
      have length := above.length_le
      rw [List.length_append] at length
      exact named (List.eq_nil_of_length_eq_zero (by omega))

/-- A directory with a good name keeps the file system genuine. -/
theorem Genuine.made {place : Place} (genuine : Genuine fs)
    (good : ∀ n ∈ place, Proper n ∧ 0 ∉ n ∧ n.length ≤ NAME_MAX) : Genuine (fs.set place .dir) where
  once := by
    rw [Fs.set, List.map_cons, List.nodup_cons]
    constructor
    · intro among
      obtain ⟨entry, mem, same⟩ := List.mem_map.mp among
      exact of_decide_eq_true (List.mem_filter.mp mem).2 same
    · exact genuine.once.sublist (List.filter_sublist.map _)
  names entry among := by
    rcases List.mem_cons.mp among with rfl | old
    · exact good
    · exact genuine.names entry (List.mem_filter.mp old).1
  nodes entry among := by
    rcases List.mem_cons.mp among with rfl | old
    · trivial
    · exact genuine.nodes entry (List.mem_filter.mp old).1

namespace Mirrors

variable (mirrors : Mirrors fs store)

include mirrors

theorem dir_iff : fs.get? (storagePlace ++ path) = some .dir ↔ store.entry path = some .dir := by
  rw [mirrors.entries]
  cases store.entry path with
  | none => exact ⟨nofun, nofun⟩
  | some entry =>
      cases entry with
      | dir => exact ⟨fun _ => rfl, fun _ => rfl⟩
      | leaf bytes => exact ⟨nofun, nofun⟩

theorem there_of_dir (dir : store.entry path = some .dir) : fs.get? (storagePlace ++ path) ≠ none := by
  rw [mirrors.dir_iff.mpr dir]
  exact Option.some_ne_none _

theorem none_iff : fs.get? (storagePlace ++ path) = none ↔ store.entry path = none := by
  rw [mirrors.entries, Option.map_eq_none_iff]

theorem good (there : fs.get? (storagePlace ++ path) ≠ none) :
    ∀ n ∈ storagePlace ++ path, Proper n ∧ n.length ≤ NAME_MAX := by
  intro n among
  obtain ⟨node, found⟩ := Option.ne_none_iff_exists'.mp there
  obtain ⟨proper, -, limit⟩ := mirrors.genuine.names _ (mem_of_get? storage_ne_nil found) n among
  exact ⟨proper, limit⟩

/-- Names lead to the directory they spell, and nowhere else. -/
theorem leadsTo_iff (proper : ∀ n ∈ path, Proper n) :
    (LeadsTo fs (storagePlace ++ path) q ∧ fs.get? q = some .dir) ↔
      q = storagePlace ++ path ∧ store.entry path = some .dir := by
  have all : ∀ n ∈ storagePlace ++ path, Proper n := by
    intro n among
    rcases List.mem_append.mp among with storage | name
    · exact proper_of_mem_storagePlace storage
    · exact proper n name
  constructor
  · rintro ⟨⟨k, -, leads⟩, dir⟩
    have here : q = storagePlace ++ path := leads.plain all fun some along target => mirrors.housed.links.way along target
    exact ⟨here, mirrors.dir_iff.mp (here ▸ dir)⟩
  · rintro ⟨rfl, dir⟩
    have there := mirrors.dir_iff.mpr dir
    have good := mirrors.good (mirrors.there_of_dir dir)
    exact ⟨⟨0, Nat.zero_le _, mirrors.tree.leads good there⟩, there⟩

/-- A directory that is made in both. -/
theorem made (dir : store.entry path = some .dir) (proper : Proper name) (clean : 0 ∉ name) (limit : ShortName name)
    (fits : (joined slash (storagePlace ++ (path ++ [name]))).length + 1 < PATH_MAX) :
    Mirrors (fs.set (storagePlace ++ (path ++ [name])) .dir)
      ⟨entryWith store path name, entryWith_root, entryWith_parents dir⟩ where
  housed := by
    have old : ∀ n ∈ path, Proper n := fun n among =>
      (mirrors.good (mirrors.there_of_dir dir) n (List.mem_append_right _ among)).1
    refine mirrors.housed.madeDir (List.append_ne_nil_of_right_ne_nil _ (List.cons_ne_nil _ _)) fun n among => ?_
    exact (List.mem_append.mp among).elim (old n) fun last => List.mem_singleton.mp last ▸ proper
  tree := by
    rw [← List.append_assoc]
    exact mirrors.tree.made (mirrors.dir_iff.mpr dir)
  genuine := by
    refine mirrors.genuine.made fun n among => ?_
    rw [← List.append_assoc] at among
    rcases List.mem_append.mp among with old | last
    · exact mirrors.genuine.names _ (mem_of_get? storage_ne_nil (mirrors.dir_iff.mpr dir)) n old
    · rw [List.mem_singleton.mp last]
      exact ⟨proper, clean, limit⟩
  short := by
    intro q there
    rw [get?_set storage_ne_nil] at there
    split_ifs at there with here
    · rw [here]
      exact fits
    · exact mirrors.short q there
  entries := by
    intro q
    change _ = (entryWith store path name q).map nodeOf
    rw [get?_set storage_ne_nil, entryWith]
    by_cases here : q = path ++ [name]
    · rw [if_pos (congrArg _ here), if_pos here]
      rfl
    · rw [if_neg fun same => here (List.append_cancel_left same), if_neg here, mirrors.entries]

/-- One call of `mkdir` for a path that spells out a place. -/
theorem mkdir (proper : ∀ n ∈ path ++ [name], Proper n) (clean : 0 ∉ name)
    (fits : (joined slash (storagePlace ++ (path ++ [name]))).length + 1 < PATH_MAX)
    (trimmed : trimSlashes dir = joined slash (storagePlace ++ (path ++ [name]))) :
    match make store path name ShortName with
    | (store', .made) => ∃ fs', fs.mkdir dir = .ok fs' ∧ Mirrors fs' store'
    | (store', .found) => store' = store ∧ fs.mkdir dir = .error .EEXIST
    | (store', .refused) => store' = store ∧ ∃ errno, fs.mkdir dir = .error errno ∧ errno ≠ .EEXIST := by
  have last := proper name (List.mem_append_right _ List.mem_cons_self)
  have before : ∀ n ∈ path, Proper n := fun n among => proper n (List.mem_append_left _ among)
  have good : ∀ n ∈ storagePlace ++ path, IsName slash n := by
    intro n among
    rcases List.mem_append.mp among with storage | name
    · exact (proper_of_mem_storagePlace storage).toIsName
    · exact (before n name).toIsName
  have leads := fun q => @Mirrors.leadsTo_iff fs store path q mirrors before
  rw [← List.append_assoc] at trimmed fits
  have short := Nat.lt_of_succ_lt fits
  have ok := fun fs' => @mkdir_ok_iff fs (storagePlace ++ path) name dir fs' mirrors.tree.short good last short trimmed
  have eexist := @mkdir_eexist_iff fs (storagePlace ++ path) name dir mirrors.tree.short good last short trimmed
  rw [make]
  by_cases there : store.entry (path ++ [name]) ≠ none
  · rw [if_pos there]
    have found : fs.get? (storagePlace ++ (path ++ [name])) ≠ none := fun missing => there (mirrors.none_iff.mp missing)
    obtain ⟨led, parent⟩ := (leads _).mpr ⟨rfl, store.parents path name there⟩
    have limit := (mirrors.good found name (by simp)).2
    exact ⟨rfl, eexist.mpr ⟨_, led, parent, limit, by rwa [List.append_assoc]⟩⟩
  rw [if_neg there]
  have missing := Classical.not_not.mp there
  by_cases free : store.entry path = some .dir ∧ ShortName name
  · rw [dif_pos free]
    obtain ⟨led, parent⟩ := (leads _).mpr ⟨rfl, free.1⟩
    have gone := mirrors.none_iff.mpr missing
    rw [List.append_assoc] at fits
    refine ⟨_, (ok _).mpr ⟨_, led, parent, free.2, by rwa [List.append_assoc], rfl⟩, ?_⟩
    rw [List.append_assoc]
    exact mirrors.made free.1 last clean free.2 fits
  · rw [dif_neg free]
    refine ⟨rfl, ?_⟩
    cases called : fs.mkdir dir with
    | ok fs' =>
        obtain ⟨parent, led, dir, limit, -⟩ := (ok fs').mp called
        exact absurd ⟨((leads parent).mp ⟨led, dir⟩).2, limit⟩ free
    | error errno =>
        refine ⟨errno, rfl, fun same => ?_⟩
        rw [same] at called
        obtain ⟨parent, led, dir, limit, -⟩ := eexist.mp called
        exact absurd ⟨((leads parent).mp ⟨led, dir⟩).2, limit⟩ free

end Mirrors

/-! ### `create_directories_from_path` -/

/-- The directories behind the first name, and the last one once more if the path ends in a slash. -/
noncomputable def makeWay (store : Store CStr (List Byte)) (top : CStr) (more : List CStr) (slashed : Prop) [Decidable slashed] :
    Store CStr (List Byte) × Bool :=
  match makeAll ShortName store [top] more with
  | (store, false) => (store, false)
  | (store, true) =>
      if slashed then makeAll ShortName store ((top :: more).take more.length) ((top :: more).drop more.length)
      else (store, true)

theorem makeWay_congr {store : Store CStr (List Byte)} {top : CStr} {more : List CStr} {p q : Prop} [Decidable p] [Decidable q]
    (same : p ↔ q) : makeWay store top more p = makeWay store top more q := by
  simp only [makeWay, same]

theorem ways_tail {front rest : List CStr} {tail : CStr} : ways front rest tail = ways front rest [] ++ ways (front ++ rest) [] tail := by
  induction rest generalizing front with
  | nil => simp [ways]
  | cons n rest ih => simp only [ways, ih, List.cons_append, List.append_assoc, List.nil_append]

theorem mkdirAll_append {faults : Faults} {fs : Fs} {dirs later : List CStr} : mkdirAll faults fs (dirs ++ later) =
    match mkdirAll faults fs dirs with
    | (fs, .ok _) => mkdirAll faults fs later
    | (fs, .error errno) => (fs, .error errno) := by
  induction dirs generalizing fs with
  | nil => rfl
  | cons dir dirs ih =>
      rw [List.cons_append, mkdirAll, mkdirAll]
      cases perform faults .mkdir dir (fs.mkdir dir) with
      | ok fs => exact ih
      | error errno =>
          dsimp only
          split_ifs
          · exact ih
          · rfl

/-- One directory after another. -/
theorem Mirrors.makeAll {fs : Fs} {store : Store CStr (List Byte)} {faults : Faults} {front rest : List CStr}
    (mirrors : Mirrors fs store) (works : ∀ dir, faults .mkdir dir = none) (proper : ∀ n ∈ front ++ rest, Proper n ∧ 0 ∉ n)
    (fits : (joined slash (storagePlace ++ (front ++ rest))).length + 1 < PATH_MAX) :
    Mirrors (mkdirAll faults fs (ways (storagePlace ++ front) rest [])).1 (makeAll ShortName store front rest).1 ∧
      ((mkdirAll faults fs (ways (storagePlace ++ front) rest [])).2 = .ok () ↔ (TreeStore.makeAll ShortName store front rest).2 = true) := by
  induction rest generalizing fs store front with
  | nil =>
      rw [ways, if_pos rfl, mkdirAll, TreeStore.makeAll]
      exact ⟨mirrors, fun _ => rfl, fun _ => rfl⟩
  | cons name rest ih =>
      have shape : front ++ name :: rest = front ++ [name] ++ rest := by simp
      have all : ∀ n ∈ front ++ [name], Proper n ∧ 0 ∉ n := fun n among =>
        proper n (by rw [shape]; exact List.mem_append_left _ among)
      have here : (joined slash (storagePlace ++ (front ++ [name]))).length + 1 < PATH_MAX := by
        rw [shape, ← List.append_assoc, joined_append, List.length_append] at fits
        omega
      have trimmed : trimSlashes (joined slash (storagePlace ++ front ++ [name])) = joined slash (storagePlace ++ (front ++ [name])) := by
        have plain := @trimSlashes_joined (storagePlace ++ (front ++ [name])) [] storage_ne_nil ?_ (.inl rfl)
        · rwa [List.append_nil, ← List.append_assoc] at plain
        · intro n among
          rcases List.mem_append.mp among with storage | name
          · exact (proper_of_mem_storagePlace storage).toIsName
          · exact (all n name).1.toIsName
      have call := mirrors.mkdir (fun n among => (all n among).1) (all name (List.mem_append_right _ List.mem_cons_self)).2 here trimmed
      rw [ways, mkdirAll, perform_none (works _), TreeStore.makeAll]
      generalize make store front name ShortName = result at call ⊢
      obtain ⟨store', outcome⟩ := result
      cases outcome with
      | made =>
          obtain ⟨fs', made, mirrors'⟩ := call
          rw [made, List.append_assoc]
          exact ih mirrors' (shape ▸ proper) (shape ▸ fits)
      | found =>
          obtain ⟨rfl, found⟩ := call
          rw [found, List.append_assoc]
          exact ih mirrors (shape ▸ proper) (shape ▸ fits)
      | refused =>
          obtain ⟨rfl, errno, failed, other⟩ := call
          rw [failed]
          dsimp only
          rw [if_neg other]
          refine ⟨mirrors, fun done => ?_, fun done => ?_⟩ <;> cases done

/-- Paths that differ in trailing slashes are the same to `mkdir`. -/
theorem mkdir_trimmed {fs : Fs} {dir dir' : CStr} (same : trimSlashes dir = trimSlashes dir') : fs.mkdir dir = fs.mkdir dir' := by
  rw [Fs.mkdir, Fs.mkdir, same]

theorem Mirrors.makeWay {fs : Fs} {store : Store CStr (List Byte)} {faults : Faults} {top tail : CStr} {more : List CStr}
    (mirrors : Mirrors fs store) (works : ∀ dir, faults .mkdir dir = none) (proper : ∀ n ∈ top :: more, Proper n ∧ 0 ∉ n)
    (fits : (joined slash (storagePlace ++ top :: more)).length + 1 < PATH_MAX) (tails : tail = [] ∨ tail = [slash]) :
    Mirrors (mkdirAll faults fs (ways (storagePlace ++ [top]) more tail)).1 (makeWay store top more (tail = [slash])).1 ∧
      ((mkdirAll faults fs (ways (storagePlace ++ [top]) more tail)).2 = .ok () ↔
        (MiniDropbox.makeWay store top more (tail = [slash])).2 = true) := by
  have first := @Mirrors.makeAll fs store faults [top] more mirrors works proper fits
  rw [ways_tail, mkdirAll_append, MiniDropbox.makeWay]
  generalize mkdirAll faults fs (ways (storagePlace ++ [top]) more []) = made at first ⊢
  generalize TreeStore.makeAll ShortName store [top] more = abstract at first ⊢
  obtain ⟨fs', result⟩ := made
  obtain ⟨store', done⟩ := abstract
  obtain ⟨mirrors', agree⟩ := first
  cases result with
  | error errno =>
      have undone : done = false := by
        cases done with
        | false => rfl
        | true => cases agree.mpr rfl
      rw [undone]
      exact ⟨mirrors', nofun, nofun⟩
  | ok last =>
      obtain rfl : done = true := agree.mp rfl
      dsimp only
      rcases tails with rfl | rfl
      · rw [ways, if_pos rfl, if_neg (by decide), mkdirAll]
        exact ⟨mirrors', fun _ => rfl, fun _ => rfl⟩
      · obtain ⟨end_, single⟩ : ∃ end_, (top :: more).drop more.length = [end_] :=
          List.length_eq_one_iff.mp (by rw [List.length_drop, List.length_cons]; omega)
        have whole := List.take_append_drop more.length (top :: more)
        have again := @Mirrors.makeAll fs' store' faults ((top :: more).take more.length) ((top :: more).drop more.length)
          mirrors' works (by rw [whole]; exact proper) (by rw [whole]; exact fits)
        rw [if_pos rfl]
        rw [single] at whole again ⊢
        have named : ∀ n ∈ storagePlace ++ top :: more, IsName slash n := by
          intro n among
          rcases List.mem_append.mp among with storage | name
          · exact (proper_of_mem_storagePlace storage).toIsName
          · exact (proper n name).1.toIsName
        have spelled : ∀ tail, tail = [] ∨ tail = [slash] →
            trimSlashes (joined slash (storagePlace ++ top :: more) ++ tail) = joined slash (storagePlace ++ top :: more) :=
          fun tail tails => trimSlashes_joined storage_ne_nil named tails
        have trimmed := (spelled [slash] (.inr rfl)).trans (spelled [] (.inl rfl)).symm
        have once : ways (storagePlace ++ [top] ++ more) [] [slash] = [joined slash (storagePlace ++ top :: more) ++ [slash]] := by
          simp [ways]
        have before : ways (storagePlace ++ (top :: more).take more.length) [end_] [] = [joined slash (storagePlace ++ top :: more)] := by
          rw [ways, ways, if_pos rfl, List.append_assoc, whole]
        have same : mkdirAll faults fs' (ways (storagePlace ++ [top] ++ more) [] [slash]) =
            mkdirAll faults fs' (ways (storagePlace ++ (top :: more).take more.length) [end_] []) := by
          rw [List.append_nil] at trimmed
          simp only [once, before, mkdirAll, perform_none (works _), mkdir_trimmed trimmed]
        rw [same]
        exact again

end Directories

/-! ### `rm_r` -/

/-- What `rm_r` takes away: an entry with all below it, a file only under a path without a slash at
the end. -/
noncomputable def takeAway (store : Store CStr (List Byte)) (path : List CStr) (slashed : Prop) [Decidable slashed] :
    Store CStr (List Byte) × Bool :=
  match store.entry path with
  | none => (store, false)
  | some .dir => (remove store path, true)
  | some (.leaf _) => if slashed then (store, false) else (remove store path, true)

theorem takeAway_congr {store : Store CStr (List Byte)} {path : List CStr} {p q : Prop} [Decidable p] [Decidable q]
    (same : p ↔ q) : takeAway store path p = takeAway store path q := by
  simp only [takeAway, same]

section Removals

variable {fs : Fs} {store : Store CStr (List Byte)} {faults : Faults} {path : List CStr} {dir : CStr}

/-- A path to which `lstat` finds nothing. -/
theorem rmR_unstatted {errno : Errno} (failed : fs.lstat dir = .error errno) :
    (rmR faults fs.depth fs dir).1 = fs ∧ (rmR faults fs.depth fs dir).2 ≠ .ok () := by
  obtain ⟨errno', missing⟩ : ∃ errno', perform faults .rmLstat dir (fs.lstat dir) = .error errno' := by
    cases fault : faults .rmLstat dir with
    | some errno' => exact ⟨errno', by rw [perform, fault]⟩
    | none => exact ⟨errno, by rw [perform_none fault, failed]⟩
  rw [Fs.depth, rmR, missing]
  refine ⟨rfl, fun done => ?_⟩
  cases done

namespace Mirrors

variable (mirrors : Mirrors fs store)

include mirrors

/-- Where nothing stands, or a file under a path with a slash at the end, `lstat` fails. -/
theorem lstat_fails (below : Below dir path)
    (missing : store.entry path = none ∨ store.entry path ≠ some .dir ∧ dir.getLast? = some slash) :
    ∃ errno, fs.lstat dir = .error errno := by
  cases resolved : fs.resolve false dir with
  | error errno => exact ⟨errno, by rw [Fs.lstat, resolved]; rfl⟩
  | ok place =>
      have here := below.place mirrors.housed.links resolved
      rcases missing with nothing | ⟨file, slashed⟩
      · have gone := mirrors.none_iff.mpr nothing
        rw [← here] at gone
        exact ⟨.ENOENT, by simp only [Fs.lstat, resolved, bind, Except.bind, gone]⟩
      · cases there : fs.get? place with
        | none => exact ⟨.ENOENT, by simp only [Fs.lstat, resolved, bind, Except.bind, there]⟩
        | some node =>
            have plain : node ≠ .dir := by
              rintro rfl
              exact file (mirrors.dir_iff.mp (here ▸ there))
            exact absurd slashed (proper_of_plain mirrors.tree resolved there plain).1

/-- What stands somewhere is found and can be removed, under each of its paths. -/
theorem steady (below : Below dir path) (named : path ≠ []) (fits : dir.length < PATH_MAX)
    (there : store.entry path ≠ none) (found : store.entry path = some .dir ∨ dir.getLast? ≠ some slash) :
    fs.resolve false dir = .ok (storagePlace ++ path) ∧ Steady fs dir (storagePlace ++ path) := by
  obtain ⟨init, name, rfl⟩ := (List.eq_nil_or_concat path).resolve_left named
  rw [List.concat_eq_append] at below there found ⊢
  have proper : Proper name := below.proper name (List.mem_append_right _ List.mem_cons_self)
  have split : components dir = storagePlace ++ init ++ [name] := by rw [below.names, List.append_assoc]
  have present : fs.get? (storagePlace ++ (init ++ [name])) ≠ none := fun gone => there (mirrors.none_iff.mp gone)
  have good := mirrors.good present
  have way : ∀ fs', Tree fs' → fs'.get? (storagePlace ++ (init ++ [name])) ≠ none → ∃ k ≤ 40, ∃ q,
      Leads fs' (origin fs' dir) (storagePlace ++ init) k q ∧ fs'.get? q = some .dir ∧
        name.length ≤ NAME_MAX ∧ storagePlace ++ (init ++ [name]) = q ++ [name] := by
    intro fs' tree there'
    rw [← List.append_assoc] at there' ⊢
    have top := tree.parents _ name there'
    refine ⟨0, Nat.zero_le _, storagePlace ++ init, ?_, top, (good name (by simp)).2, rfl⟩
    rw [origin, if_pos below.absolute]
    exact tree.leads (fun n among => good n (by rw [← List.append_assoc]; exact List.mem_append_left _ among)) top
  refine ⟨?_, ?_, ?_⟩
  · by_cases slashed : dir.getLast? = some slash
    · have directory := mirrors.dir_iff.mpr (found.resolve_right fun plain => plain slashed)
      have leads := mirrors.tree.leads good directory
      have nonempty : dir ≠ [] := by
        rintro rfl
        cases slashed
      have count : (components dir).length ≤ PATH_MAX := Nat.le_trans (length_components_le dir) fits
      rw [below.names] at count
      obtain ⟨fuel, left, walked⟩ := @Leads.walks fs [] _ _ [[dot]] 0 40 (42 * PATH_MAX) PATH_MAX 2 false mirrors.tree.short leads
        (Nat.zero_le _) (.inl (List.cons_ne_nil _ _)) (by simp only [PATH_MAX] at count ⊢; omega)
      obtain ⟨fuel, rfl⟩ : ∃ left, fuel = left + 2 := ⟨fuel - 2, by omega⟩
      rw [resolve_eq nonempty fits, origin, if_pos below.absolute, trail, if_pos slashed, below.names, walked]
      exact (Walks.here directory .arrived).walk
    · exact (resolve_name_iff mirrors.tree.short proper split slashed fits).mpr (way fs mirrors.tree present)
  · rw [split, List.getLast?_concat, refusedName, if_neg proper.notDot, if_neg proper.notDots]
  · intro fs' cut same
    exact (resolve_trimmed_iff cut.tree.short proper split fits).mpr (way fs' cut.tree (by rw [same]; exact present))

/-- What is taken away in both. -/
theorem removed {fs' : Fs} (named : path ≠ []) (ordinary : Ordinary fs') (cut : Cut fs (storagePlace ++ path) fs')
    (gone : ∀ below, fs'.get? (storagePlace ++ path ++ below) = none) : Mirrors fs' (remove store path) where
  housed := by
    refine ⟨ordinary, fun place above => ?_⟩
    rcases cut.each place with same | ⟨below, -⟩
    · rw [same, mirrors.housed.above place above]
    · have length := (below.trans above).length_le
      rw [List.length_append] at length
      exact absurd (List.eq_nil_of_length_eq_zero (by omega)) named
  tree := cut.tree
  genuine := cut.genuine mirrors.genuine
  short := fun q there => mirrors.short q (cut.present there)
  entries := by
    intro q
    change _ = (entryWithout store path q).map nodeOf
    rw [entryWithout]
    by_cases below : path <+: q
    · obtain ⟨rest, rfl⟩ := below
      rw [if_pos ⟨named, List.prefix_append _ _⟩, ← List.append_assoc, gone]
      rfl
    · rw [if_neg fun both => below both.2, ← mirrors.entries]
      rcases cut.each (storagePlace ++ q) with same | ⟨along, -⟩
      · exact same
      · exact absurd ((List.prefix_append_right_inj _).mp along) below

theorem rmR (unfailing : Unfailing faults) (route : Route dir path) (named : path ≠ []) (fits : dir.length < PATH_MAX) :
    Mirrors (rmR faults fs.depth fs dir).1 (takeAway store path (dir.getLast? = some slash)).1 ∧
      ((MiniDropbox.rmR faults fs.depth fs dir).2 = .ok () ↔ (takeAway store path (dir.getLast? = some slash)).2 = true) := by
  have fails : (store.entry path = none ∨ store.entry path ≠ some .dir ∧ dir.getLast? = some slash) →
      Mirrors (MiniDropbox.rmR faults fs.depth fs dir).1 store ∧ ((MiniDropbox.rmR faults fs.depth fs dir).2 = .ok () ↔ false = true) := by
    intro missing
    obtain ⟨errno, failed⟩ := mirrors.lstat_fails route.toBelow missing
    obtain ⟨same, refused⟩ := @rmR_unstatted fs faults dir errno failed
    rw [same]
    exact ⟨mirrors, fun done => absurd done refused, fun done => by cases done⟩
  have succeeds : store.entry path ≠ none → (store.entry path = some .dir ∨ dir.getLast? ≠ some slash) →
      Mirrors (MiniDropbox.rmR faults fs.depth fs dir).1 (remove store path) ∧
        ((MiniDropbox.rmR faults fs.depth fs dir).2 = .ok () ↔ true = true) := by
    intro there found
    obtain ⟨resolved, steady⟩ := mirrors.steady route.toBelow named fits there found
    have at' : (Task.call dir).At fs (storagePlace ++ path) := by
      refine ⟨fun q node leads _ => ?_, fun below present => ?_⟩
      · cases resolved.symm.trans leads
        rfl
      · have room := mirrors.short (path ++ below) (by rwa [← List.append_assoc])
        have length := route.length
        rw [← List.append_assoc, joined_append, List.length_append] at room
        rw [List.length_append]
        omega
    have runs := @rmR_runs faults fs (storagePlace ++ path) dir fs.nodes.length mirrors.tree mirrors.genuine at' fun q present => by
      have deep := mirrors.tree.length_le present
      omega
    rw [← Fs.depth] at runs
    have done : (MiniDropbox.rmR faults fs.depth fs dir).2 = .ok () := runs.ok unfailing mirrors.tree mirrors.genuine at'
      ⟨resolved, fun gone => there (mirrors.none_iff.mp gone), steady⟩
    obtain ⟨cut, leaves⟩ := runs.cut mirrors.tree mirrors.genuine at'
    have comes : Comes path dir := ⟨[], .inl (by rw [List.append_nil]; exact route)⟩
    have ordinary := mirrors.housed.toOrdinary.removed (@rmR_changes faults fs dir path fs.depth mirrors.housed.toOrdinary comes)
    exact ⟨mirrors.removed named ordinary cut (leaves done), fun _ => rfl, fun _ => done⟩
  rw [takeAway]
  cases here : store.entry path with
  | none => exact fails (.inl here)
  | some entry =>
      have there : store.entry path ≠ none := by
        rw [here]
        exact Option.some_ne_none _
      cases entry with
      | dir => exact succeeds there (.inl here)
      | leaf bytes =>
          dsimp only
          by_cases slashed : dir.getLast? = some slash
          · rw [if_pos slashed]
            refine fails (.inr ⟨fun directory => ?_, slashed⟩)
            cases here.symm.trans directory
          · rw [if_neg slashed]
            exact succeeds there (.inr slashed)

end Mirrors

end Removals

end MiniDropbox
