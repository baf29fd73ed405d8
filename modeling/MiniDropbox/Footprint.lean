/-
Where the server changes the tree.

`Change` refines the edits of a message by the places they are made at. Every
function of the sources that changes the tree has a lemma that says where:
`rmR_changes` below the path it is given, `createDirectoriesFromPath_changes` at the
directories along its path, and so on. The trees are `Ordinary`: the storage
directory holds no symbolic links, and its entries have proper names.
-/

import Mathlib.Data.List.TakeWhile
import MiniDropbox.Iterator
import MiniDropbox.Places
import MiniDropbox.Spelling

namespace MiniDropbox

open Lexical

/-! ### Changes at allowed places -/

/-- One change of the tree, at a place where it may leave such a node or none. -/
inductive Change (allowed : Place → Option Node → Prop) (fs : Fs) : Fs → Prop
  | put {place : Place} {node : Node} : allowed place (some node) → Change allowed fs (fs.set place node)
  | drop {place : Place} : allowed place none → Change allowed fs (fs.erase place)

/-- A sequence of changes. -/
abbrev Changes (allowed : Place → Option Node → Prop) : Fs → Fs → Prop :=
  Relation.ReflTransGen (Change allowed)

section Changes

variable {allowed wider : Place → Option Node → Prop} {fs fs' : Fs}

theorem Changes.mono (changes : Changes allowed fs fs')
    (wide : ∀ place node, allowed place node → wider place node) : Changes wider fs fs' := by
  refine Relation.ReflTransGen.mono ?_ fs fs' changes
  rintro a b (may | may)
  · exact .put (wide _ _ may)
  · exact .drop (wide _ _ may)

/-- A place at which no change may be made holds what it held. -/
theorem Changes.frame (changes : Changes allowed fs fs') {place : Place}
    (never : ∀ node, ¬ allowed place node) : fs'.get? place = fs.get? place := by
  by_cases named : place = []
  · rw [named]
    rfl
  induction changes with
  | refl => rfl
  | tail _ change ih =>
      rw [← ih]
      cases change with
      | put may =>
          rw [get?_set named, if_neg]
          rintro rfl
          exact never _ may
      | drop may =>
          rw [get?_erase named, if_neg]
          rintro rfl
          exact never _ may

/-- What a place holds afterwards it held before, or may have been left there. -/
theorem Changes.after (changes : Changes allowed fs fs') {place : Place} (named : place ≠ []) :
    fs'.get? place = fs.get? place ∨ allowed place (fs'.get? place) := by
  induction changes with
  | refl => exact .inl rfl
  | tail _ change ih =>
      cases change with
      | @put q node may =>
          rw [get?_set named]
          by_cases here : place = q
          · rw [if_pos here, here]
            exact .inr may
          · rw [if_neg here]
            exact ih
      | @drop q may =>
          rw [get?_erase named]
          by_cases here : place = q
          · rw [if_pos here, here]
            exact .inr may
          · rw [if_neg here]
            exact ih

end Changes

/-- The storage directory holds no symbolic links, and its entries have proper names. -/
structure Ordinary (fs : Fs) : Prop where
  links : LinkFree fs
  names : ∀ place, storagePlace <+: place → ∀ name ∈ fs.names place, Proper name

theorem mem_names {fs : Fs} {place : Place} {name : CStr} :
    name ∈ fs.names place ↔ ∃ node, (place ++ [name], node) ∈ fs.nodes := by
  simp only [Fs.names, List.mem_filterMap]
  constructor
  · rintro ⟨⟨q, node⟩, mem, entry⟩
    split_ifs at entry with parent
    obtain ⟨init, split⟩ := List.getLast?_eq_some_iff.mp entry
    refine ⟨node, ?_⟩
    simp only at split parent
    rw [split, List.dropLast_concat] at parent
    rw [← parent, ← split]
    exact mem
  · rintro ⟨node, mem⟩
    exact ⟨_, mem, by simp⟩

/-- Changes that leave no links and no improper names keep a tree ordinary. -/
theorem Ordinary.changes {allowed : Place → Option Node → Prop} {fs fs' : Fs} (ordinary : Ordinary fs)
    (changes : Changes allowed fs fs')
    (mild : ∀ place node, allowed place (some node) → (∀ target, node ≠ .link target) ∧
      (storagePlace <+: place → ∀ name ∈ place.drop storagePlace.length, Proper name)) :
    Ordinary fs' := by
  induction changes with
  | refl => exact ordinary
  | @tail between after _ change ih =>
      constructor
      · intro place target link
        have named : place ≠ [] := by
          rintro rfl
          cases link
        apply ih.links place target
        cases change with
        | @put q node may =>
            rw [get?_set named] at link
            split_ifs at link
            · exact absurd (Option.some.inj link) ((mild q node may).1 target)
            · exact link
        | drop may =>
            rw [get?_erase named] at link
            split_ifs at link
            exact link
      · intro place within name mem
        obtain ⟨node, entry⟩ := mem_names.mp mem
        cases change with
        | @put q node' may =>
            rcases List.mem_cons.mp entry with new | old
            · cases new
              refine (mild _ _ may).2 (within.trans (List.prefix_append _ _)) name ?_
              rw [List.drop_append_of_le_length within.length_le]
              simp
            · exact ih.names place within name (mem_names.mpr ⟨node, (List.mem_filter.mp old).1⟩)
        | drop may =>
            exact ih.names place within name (mem_names.mpr ⟨node, (List.mem_filter.mp entry).1⟩)

/-! ### System calls -/

section Calls

variable {faults : Faults} {fs fs' : Fs} {path : CStr}

theorem mkdir_place (ok : fs.mkdir path = .ok fs') :
    ∃ place, fs.resolve false (trimSlashes path) = .ok place ∧ fs.get? place = none ∧
      fs' = fs.set place .dir := by
  obtain ⟨place, resolved, ok⟩ := ok_of_bind ok
  split at ok
  · rename_i missing
    cases ok
    exact ⟨place, resolved, missing, rfl⟩
  · cases ok

theorem unlink_place (ok : fs.unlink path = .ok fs') :
    ∃ place, fs.resolve false path = .ok place ∧ fs' = fs.erase place := by
  obtain ⟨place, resolved, ok⟩ := ok_of_bind ok
  split at ok
  · cases ok
  · cases ok
  · cases ok
    exact ⟨place, resolved, rfl⟩

/-- What `opendir` opens is a directory, with its names. -/
theorem opendir_directory {names : List CStr} (opens : fs.opendir path = .ok names) :
    ∃ place, fs.resolve true path = .ok place ∧ fs.get? place = some .dir ∧ names = fs.names place := by
  obtain ⟨place, resolved, opens⟩ := ok_of_bind opens
  split at opens
  · cases opens
  · rename_i directory
    cases opens
    exact ⟨place, resolved, directory, rfl⟩
  · cases opens

/-- A file opened for writing is a new one or was there before. -/
theorem openCreate_place {place : Place} {bytes : List Byte}
    (ok : fs.openCreate path = .ok (fs', place, bytes)) :
    fs.resolve true path = .ok place ∧
      (fs.get? place = none ∧ fs' = fs.set place (.file []) ∧ bytes = [] ∨
        fs.get? place = some (.file bytes) ∧ fs' = fs) := by
  obtain ⟨found, resolved, ok⟩ := ok_of_bind ok
  split at ok
  · rename_i missing
    cases ok
    exact ⟨resolved, .inl ⟨missing, rfl, rfl⟩⟩
  · rename_i content
    cases ok
    exact ⟨resolved, .inr ⟨content, rfl⟩⟩
  · cases ok
  · cases ok

end Calls

/-! ### What `rm_r` removes -/

/-- Something is removed below a place of the storage, or deep in the tree on the way
there. -/
def Removes (stack : List CStr) (place : Place) (node : Option Node) : Prop :=
  node = none ∧ ∃ more, place = storagePlace ++ (stack ++ more) ∨
    place <+: storagePlace ++ (stack ++ more) ∧ 4 ≤ place.length

/-- A path `rm_r` comes to below the place it starts at. -/
def Comes (stack : List CStr) (path : CStr) : Prop :=
  ∃ more, Route path (stack ++ more) ∨ CutRoute path (stack ++ more)

section Removal

variable {faults : Faults} {fs fs' : Fs} {path name : CStr} {stack : List CStr}

theorem Comes.removes {place : Place} {follow : Bool} (comes : Comes stack path) (free : LinkFree fs)
    (ok : fs.resolve follow path = .ok place) : Removes stack place none := by
  obtain ⟨more, route | cut⟩ := comes
  · exact ⟨rfl, more, .inl (route.place free ok)⟩
  · exact ⟨rfl, more, .inr (cut.place free ok)⟩

/-- It is left without its trailing slashes, unless it ends in a special name. -/
theorem Comes.trimmed {place : Place} (comes : Comes stack path) (free : LinkFree fs)
    (named : refusedName (components path).getLast? = none) (ok : fs.resolve false (trimSlashes path) = .ok place) :
    Removes stack place none := by
  obtain ⟨more, route | cut⟩ := comes
  · exact ⟨rfl, more, .inl (route.toBelow.trimmed.place free ok)⟩
  · have slashed : path.getLast? = some slash := by
      by_contra plain
      have same : components path = trail path := by rw [trail, if_neg plain, List.append_nil]
      rw [same] at named
      rcases cut.names with here | up
      · rw [here, List.getLast?_concat] at named
        cases named
      · rw [up, List.getLast?_concat] at named
        cases named
    have names : components path = storagePlace ++ (stack ++ more) := by
      have whole := cut.names
      rw [trail, if_pos slashed] at whole
      rcases whole with here | up
      · exact List.append_cancel_right here
      · cases (List.append_inj' up rfl).2
    exact ⟨rfl, more, .inl (Below.trimmed ⟨cut.absolute, names, cut.proper⟩ |>.place free ok)⟩

/-- An opened directory has proper entries, to whose paths `rm_r` comes as well. -/
theorem Comes.entry {names : List CStr} (comes : Comes stack path) (ordinary : Ordinary fs)
    (opens : fs.opendir path = .ok names) (mem : name ∈ names) :
    Comes stack (snprintf PATH_MAX (path ++ slash :: name)) := by
  obtain ⟨place, resolved, -, rfl⟩ := opendir_directory opens
  have short := (resolve_fits resolved).2
  obtain ⟨more, route | cut⟩ := comes
  · have here := route.place ordinary.links resolved
    have proper := ordinary.names place (by rw [here]; exact List.prefix_append _ _) name mem
    rcases route.entry short proper with ⟨below, on⟩ | off
    · exact ⟨more ++ below, .inl (by rw [← List.append_assoc]; exact on)⟩
    · exact ⟨more, .inr off⟩
  · rw [cut.entry short]
    exact ⟨more, .inr cut⟩

theorem Ordinary.removed (ordinary : Ordinary fs) (changes : Changes (Removes stack) fs fs') :
    Ordinary fs' :=
  ordinary.changes changes fun place node may => by cases may.1

/-- All `rm_r` does is remove what lies below its path. -/
theorem rmR_changes {fuel : Nat} (ordinary : Ordinary fs) (comes : Comes stack path) :
    Changes (Removes stack) fs (rmR faults fuel fs path).1 := by
  induction fuel generalizing fs path with
  | zero => exact .refl
  | succ fuel ih =>
      have emptied : ∀ (names : List CStr) (fs : Fs), Ordinary fs →
          (∀ name ∈ names, Comes stack (snprintf PATH_MAX (path ++ slash :: name))) →
          Changes (Removes stack) fs (names.foldl (fun fs name =>
            (rmR faults fuel fs (snprintf PATH_MAX (path ++ slash :: name))).1) fs) := by
        intro names
        induction names with
        | nil => exact fun fs _ _ => .refl
        | cons name names rest =>
            intro fs ordinary each
            have first := ih ordinary (each name List.mem_cons_self)
            exact first.trans (rest _ (ordinary.removed first) fun n hn => each n (List.mem_cons_of_mem _ hn))
      rw [rmR]
      split
      · exact .refl
      · split
        · exact .refl
        · rename_i names opens
          have entries := emptied names fs ordinary fun name mem =>
            comes.entry ordinary (perform_ok opens) mem
          dsimp only
          split
          · exact entries
          · rename_i removed
            obtain ⟨place, resolved, named, -, -, rfl⟩ := rmdir_place (perform_ok removed)
            exact entries.tail (.drop (comes.trimmed (ordinary.removed entries).links named resolved))
      · split
        · exact .refl
        · rename_i removed
          obtain ⟨place, resolved, rfl⟩ := unlink_place (perform_ok removed)
          exact .single (.drop (comes.removes ordinary.links resolved))

end Removal

/-! ### What `create_directories_from_path` makes -/

/-- Normalising brings no new letters into a path. -/
theorem mem_normalizePath {raw : CStr} {c : Byte} (absolute : raw.head? = some slash)
    (mem : c ∈ normalizePath raw) : c = slash ∨ c ∈ raw := by
  have listed : c ∈ joined slash (resolved (components raw)) ++ [slash] := by
    rcases normalizePath_writes absolute with shape | ⟨-, shape⟩
    · rw [← shape]
      exact mem
    · exact List.mem_append_left _ (shape ▸ mem)
  rcases List.mem_append.mp listed with inside | last
  · obtain ⟨name, named, within⟩ := List.mem_flatMap.mp inside
    rcases List.mem_cons.mp within with same | letter
    · exact .inl same
    · exact .inr (mem_of_mem_pieces (mem_resolve named).1 letter)
  · exact .inl (List.mem_singleton.mp last)

/-- Directories are made along a path of the storage. -/
def Makes (stack : List CStr) (place : Place) (node : Option Node) : Prop :=
  node = some .dir ∧ ∃ front, front ≠ [] ∧ front <+: stack ∧ place = storagePlace ++ front

section Making

variable {libs : Externals} {token : Token} {faults : Faults} {fs fs' : Fs} {path : CStr}
  {stack : List CStr}

theorem Ordinary.made (ordinary : Ordinary fs) (proper : ∀ n ∈ stack, Proper n)
    (changes : Changes (Makes stack) fs fs') : Ordinary fs' := by
  refine ordinary.changes changes ?_
  rintro place node ⟨dir, front, -, along, rfl⟩
  cases dir
  refine ⟨fun target => nofun, fun _ name mem => ?_⟩
  rw [List.drop_left] at mem
  exact proper name (along.subset mem)

theorem zero_not_mem_root (libs : Externals) (token : Token) : 0 ∉ getUserRoot libs token := by
  intro zero
  rw [getUserRoot_eq] at zero
  rcases List.mem_append.mp zero with storage | token'
  · exact absurd storage (by decide)
  · rcases List.mem_cons.mp token' with same | letter
    · exact absurd same (by decide)
    · have char := libs.mem_uuidUnparse token 0 letter
      revert char
      unfold IsUuidChar
      decide

/-- The calls of the loop for a path of a client: one for each name behind the user's directory
or behind one beside it. -/
theorem mkdirPaths_user {userPath text : CStr} (free : 0 ∉ userPath)
    (kept : text = snprintf PATH_MAX (getUserRoot libs token ++ slash :: userPath))
    (starts : (normalizePath text).take (getUserRoot libs token).length = getUserRoot libs token) :
    ∃ x more, resolved (components text) = storagePlace ++ (libs.uuidUnparse token ++ x) :: more ∧
      mkdirPaths (getUserRoot libs token) userPath = ways (storagePlace ++ [libs.uuidUnparse token ++ x]) more
        (if resolved (components text) = [] ∨ EndsUp text then [slash] else []) := by
  have absolute : text.head? = some slash := by
    rw [kept]
    exact absolute_of_root (by decide) userPath
  have clean : 0 ∉ normalizePath text := by
    intro zero
    rcases mem_normalizePath absolute zero with same | letter
    · exact absurd same (by decide)
    · rw [kept] at letter
      rcases List.mem_append.mp (List.mem_of_mem_take letter) with root | behind
      · exact zero_not_mem_root libs token root
      · rcases List.mem_cons.mp behind with same | letter
        · exact absurd same (by decide)
        · exact free letter
  obtain ⟨x, more, route⟩ := route_of_normalized absolute starts
  have names : resolved (components text) = storagePlace ++ (libs.uuidUnparse token ++ x) :: more := by
    rw [← components_normalizePath absolute, route.names]
  have split : resolved (components text) = (storagePlace ++ [libs.uuidUnparse token ++ x]) ++ more := by
    rw [names, List.append_assoc, List.singleton_append]
  have proper : ∀ n ∈ (libs.uuidUnparse token ++ x) :: more, Proper n := route.proper
  have plain : slash ∉ x := fun letter =>
    (proper _ List.mem_cons_self).free (List.mem_append_right _ letter)
  have written : joined slash (storagePlace ++ [libs.uuidUnparse token ++ x]) = getUserRoot libs token ++ x := by
    rw [joined_concat, getUserRoot_storage, List.append_assoc, List.cons_append]
  have root : getUserRoot libs token ≠ [] := by
    intro nothing
    have length := length_getUserRoot libs token
    rw [nothing] at length
    cases length
  have shape := normalizePath_shape absolute
  refine ⟨x, more, names, ?_⟩
  rw [mkdirPaths, ← kept, if_pos starts]
  rw [split] at shape ⊢
  rw [shape] at clean ⊢
  refine mkdirCalls_behind root plain written (fun n among => (proper n (List.mem_cons_of_mem _ among)).free) ?_ clean
  split_ifs
  · exact .inr rfl
  · exact .inl rfl

/-- A path that is spelled by proper names below the storage directory. -/
theorem below_joined {tail : CStr} (proper : ∀ n ∈ stack, Proper n) (tails : tail = [] ∨ tail = [slash]) :
    Below (joined slash (storagePlace ++ stack) ++ tail) stack := by
  have good : ∀ n ∈ storagePlace ++ stack, IsName slash n := by
    intro n among
    rcases List.mem_append.mp among with storage | name
    · exact (proper_of_mem_storagePlace storage).toIsName
    · exact (proper n name).toIsName
  refine ⟨rfl, ?_, proper⟩
  rcases tails with rfl | rfl
  · rw [List.append_nil]
    exact pieces_joined good
  · exact Writes.components (.inl rfl) good

/-- The directories on the way lie in the storage. -/
theorem below_of_mem_ways {top tail dir : CStr} {more : List CStr} (proper : ∀ n ∈ top :: more, Proper n)
    (tails : tail = [] ∨ tail = [slash]) (among : dir ∈ ways (storagePlace ++ [top]) more tail) :
    ∃ front, front ≠ [] ∧ front <+: top :: more ∧ Below dir front := by
  obtain ⟨before, after, split⟩ := List.append_of_mem among
  rcases ways_split split with ⟨way, later, -, rfl, rfl, -⟩ | ⟨-, rfl, -⟩
  · have along : top :: way <+: top :: (way ++ later) := ⟨later, rfl⟩
    have below := @below_joined (top :: way) [] (fun n hn => proper n (along.subset hn)) (.inl rfl)
    rw [List.append_nil] at below
    refine ⟨top :: way, List.cons_ne_nil _ _, along, ?_⟩
    rw [List.append_assoc, List.singleton_append]
    exact below
  · refine ⟨top :: more, List.cons_ne_nil _ _, ⟨[], List.append_nil _⟩, ?_⟩
    rw [List.append_assoc, List.singleton_append]
    exact below_joined proper tails

/-- Calls of `mkdir` for paths in the storage make directories there. -/
theorem mkdirAll_changes {dirs : List CStr} (ordinary : Ordinary fs) (proper : ∀ n ∈ stack, Proper n)
    (each : ∀ dir ∈ dirs, ∃ front, front ≠ [] ∧ front <+: stack ∧ Below dir front) :
    Changes (Makes stack) fs (mkdirAll faults fs dirs).1 := by
  induction dirs generalizing fs with
  | nil => exact .refl
  | cons dir dirs ih =>
      have later := fun d among => each d (List.mem_cons_of_mem _ among)
      rw [mkdirAll]
      cases made : perform faults .mkdir dir (fs.mkdir dir) with
      | ok fs' =>
          obtain ⟨front, named, along, below⟩ := each dir List.mem_cons_self
          obtain ⟨place, resolved, -, rfl⟩ := mkdir_place (perform_ok made)
          have here := below.trimmed.place ordinary.links resolved
          have change : Change (Makes stack) fs (fs.set place .dir) := .put ⟨rfl, front, named, along, here⟩
          exact Relation.ReflTransGen.head change (ih (ordinary.made proper (.single change)) later)
      | error errno =>
          dsimp only
          split_ifs
          · exact ih ordinary later
          · exact .refl

/-- Directories are made along the normalised path, which goes to the user's directory or to
one beside it. -/
theorem createDirectoriesFromPath_changes {userPath : CStr} (ordinary : Ordinary fs)
    (free : 0 ∉ userPath) : ∃ x more, (∀ n ∈ (libs.uuidUnparse token ++ x) :: more, Proper n) ∧
      Changes (Makes ((libs.uuidUnparse token ++ x) :: more)) fs
        (createDirectoriesFromPath faults fs (getUserRoot libs token) userPath).1 := by
  rw [createDirectoriesFromPath_eq]
  by_cases starts : (normalizePath (snprintf PATH_MAX (getUserRoot libs token ++ slash :: userPath))).take
      (getUserRoot libs token).length = getUserRoot libs token
  · obtain ⟨x, more, names, calls⟩ := @mkdirPaths_user libs token userPath _ free rfl starts
    have proper : ∀ n ∈ (libs.uuidUnparse token ++ x) :: more, Proper n := fun n hn =>
      proper_of_mem_resolved (names ▸ List.mem_append_right _ hn)
    rw [if_pos starts, returnOf_fs, calls]
    refine ⟨x, more, proper, mkdirAll_changes ordinary proper fun dir among => below_of_mem_ways proper ?_ among⟩
    split_ifs
    · exact .inr rfl
    · exact .inl rfl
  · refine ⟨[], [], ?_, by rw [if_neg starts]⟩
    rw [List.append_nil]
    exact (getUserRoot_route libs token).proper

end Making

/-! ### Where an upload is stored -/

theorem zero_not_mem_cString (memory : List Byte) : 0 ∉ cString memory := fun zero => by
  simpa using List.mem_takeWhile_imp zero

/-- The text behind the last slash. -/
theorem strrchr_cases (s : CStr) :
    (slash ∉ s ∧ strrchr s = none) ∨
      slash ∈ s ∧ ∃ last, strrchr s = some (slash :: last) ∧ slash ∉ last ∧ ∀ c ∈ last, c ∈ s := by
  by_cases has : slash ∈ s
  · refine .inr ⟨has, (s.reverse.takeWhile (· ≠ slash)).reverse, by rw [strrchr, if_pos has], ?_, ?_⟩
    · intro hit
      simpa using List.mem_takeWhile_imp (List.mem_reverse.mp hit)
    · intro c hc
      exact List.mem_reverse.mp ((List.takeWhile_sublist _).subset (List.mem_reverse.mp hc))
  · exact .inl ⟨has, by rw [strrchr, if_neg has]⟩

section Uploads

variable {libs : Externals} {token : Token} {fs fs' : Fs} {info : FileInfo} {behind : List Byte}

/-- The path of an upload has no terminator in it. -/
theorem zero_not_mem_printed {name : CStr} (clean : 0 ∉ name) : 0 ∉ getUserRoot libs token ++ printed (strrchr name) := by
  intro zero
  rcases List.mem_append.mp zero with root | letter
  · exact zero_not_mem_root libs token root
  · rcases strrchr_cases name with ⟨-, nowhere⟩ | ⟨-, last, here, -, letters⟩
    · rw [nowhere] at letter
      exact absurd letter (by decide)
    · rw [here] at letter
      rcases List.mem_cons.mp letter with same | letter
      · exact absurd same (by decide)
      · exact clean (letters 0 letter)

/-- A path that can be resolved is not cut off: it is the root and the end of the name. -/
theorem uploadName_of_short (clean : 0 ∉ info.filename)
    (short : (uploadName libs token info behind).length < PATH_MAX) :
    uploadName libs token info behind = getUserRoot libs token ++ printed (strrchr info.filename) := by
  have text := @zero_not_mem_printed libs token _ clean
  unfold uploadName at short ⊢
  rw [← getUserRoot] at short ⊢
  dsimp only at short ⊢
  generalize getUserRoot libs token ++ printed (strrchr info.filename) = whole at text short ⊢
  by_cases fits : (snprintf (PATH_MAX * 2) whole).length < PATH_MAX
  · rw [if_pos fits, snprintf]
    rw [snprintf, List.length_take] at fits
    exact List.take_of_length_le (by simp only [PATH_MAX] at fits ⊢; omega)
  · rw [if_neg fits] at short
    have kept : cString ((snprintf (PATH_MAX * 2) whole).take PATH_MAX ++ behind) =
        (snprintf (PATH_MAX * 2) whole).take PATH_MAX ++ cString behind := by
      apply List.takeWhile_append_of_pos
      intro c hc
      simp only [ne_eq, decide_eq_true_eq]
      rintro rfl
      exact text (List.mem_of_mem_take (List.mem_of_mem_take hc))
    rw [kept, List.length_append, List.length_take_of_le (Nat.le_of_not_lt fits)] at short
    exact absurd short (by omega)

/-- What `printf` writes for a missing name goes on the name of the directory. -/
theorem sibling_below (libs : Externals) (token : Token) :
    Below (getUserRoot libs token ++ cstr "(null)") [libs.uuidUnparse token ++ cstr "(null)"] := by
  have length := libs.length_uuidUnparse token
  have free : slash ∉ libs.uuidUnparse token ++ cstr "(null)" := by
    intro hit
    rcases List.mem_append.mp hit with uuid | null
    · exact (isName_uuidUnparse libs token).free uuid
    · exact absurd null (by decide)
  have named : IsName slash (libs.uuidUnparse token ++ cstr "(null)") :=
    ⟨List.append_ne_nil_of_right_ne_nil _ (by decide), free⟩
  have text : getUserRoot libs token ++ cstr "(null)" =
      joined slash storagePlace ++ slash :: (libs.uuidUnparse token ++ cstr "(null)") := by
    rw [getUserRoot_joined]
    simp [userPlace, joined, storagePlace]
  refine ⟨getUserRoot_absolute libs token _, ?_, ?_⟩
  · rw [text, components, pieces_append, pieces_of_isName named]
    rfl
  · intro n hn
    rw [List.mem_singleton.mp hn]
    refine ⟨named, fun same => ?_, fun same => ?_⟩
    · have lengths := congrArg List.length same
      rw [List.length_append, length] at lengths
      cases lengths
    · have lengths := congrArg List.length same
      rw [List.length_append, length] at lengths
      cases lengths

/-- That directory is not the user's. -/
theorem sibling_beside (libs : Externals) (token : Token) :
    ¬ userPlace libs token <+: storagePlace ++ [libs.uuidUnparse token ++ cstr "(null)"] := by
  intro inside
  have same : userPlace libs token = storagePlace ++ [libs.uuidUnparse token ++ cstr "(null)"] :=
    inside.eq_of_length rfl
  have letters : libs.uuidUnparse token = libs.uuidUnparse token ++ cstr "(null)" := by
    simpa [userPlace, storagePlace] using same
  have lengths := congrArg List.length letters
  rw [List.length_append] at lengths
  exact absurd (Nat.left_eq_add.mp lengths) (by decide)

/-- The name an upload is stored under, if the file can be opened: the last one the client
gives in the user's directory, or, where that has no slash, one beside the directory. -/
theorem uploadName_below {place : Place} {old : List Byte} (free : LinkFree fs) (clean : 0 ∉ info.filename)
    (ok : fs.openCreate (uploadName libs token info behind) = .ok (fs', place, old)) :
    (slash ∈ info.filename → ∃ last, Proper last ∧
      Below (uploadName libs token info behind) [libs.uuidUnparse token, last]) ∧
    (slash ∉ info.filename → Below (uploadName libs token info behind) [libs.uuidUnparse token ++ cstr "(null)"]) := by
  obtain ⟨resolved, opened⟩ := openCreate_place ok
  have notDir : fs.get? place ≠ some .dir := by
    rcases opened with ⟨missing, -⟩ | ⟨content, -⟩
    · rw [missing]
      nofun
    · rw [content]
      nofun
  have path := uploadName_of_short clean (resolve_fits resolved).2
  rw [path] at resolved ⊢
  have root := getUserRoot_route libs token
  rcases strrchr_cases info.filename with ⟨nowhere, none⟩ | ⟨has, last, here, single, -⟩
  · refine ⟨fun has => absurd has nowhere, fun _ => ?_⟩
    rw [none]
    exact sibling_below libs token
  · refine ⟨fun _ => ?_, fun nowhere => absurd has nowhere⟩
    rw [here] at resolved ⊢
    have absolute := getUserRoot_absolute libs token (slash :: last)
    have special : ∀ name, (name = [dot] ∨ name = [dot, dot]) →
        trail (getUserRoot libs token ++ slash :: last) ≠ storagePlace ++ [libs.uuidUnparse token] ++ [name] := by
      intro name each names
      obtain ⟨rfl, -, dirs⟩ := free.resolve absolute names root.proper
        (fun n hn => List.mem_singleton.mp hn ▸ each) resolved
      obtain ⟨all, storage⟩ := dirs (List.cons_ne_nil _ _)
      rcases each with rfl | rfl
      · exact notDir all
      · exact notDir storage
    have names : IsName slash last → trail (getUserRoot libs token ++ slash :: last) =
        storagePlace ++ [libs.uuidUnparse token] ++ [last] := fun named => by
      rw [trail_of_name named, root.names]
    by_cases empty : last = []
    · refine absurd ?_ (special [dot] (.inl rfl))
      rw [empty, trail, if_pos (by simp), components, pieces_append, pieces_nil, List.append_nil, ← root.names]
      rfl
    have named : IsName slash last := ⟨empty, single⟩
    have proper : Proper last := by
      refine ⟨named, ?_, ?_⟩
      · intro stays
        exact special last (.inl stays) (names named)
      · intro up
        exact special last (.inr up) (names named)
    refine ⟨last, proper, absolute, ?_, ?_⟩
    · rw [printed, Option.getD_some, components, pieces_append, pieces_of_isName named, ← components, root.names, List.append_assoc]
      rfl
    · intro n hn
      rcases List.mem_cons.mp hn with rfl | hn
      · exact root.proper _ List.mem_cons_self
      · rw [List.mem_singleton.mp hn]
        exact proper

/-- An upload that opens its target stores it in the user's directory, or beside it. -/
theorem uploadName_place {place : Place} {old : List Byte} (free : LinkFree fs) (clean : 0 ∉ info.filename)
    (ok : fs.openCreate (uploadName libs token info behind) = .ok (fs', place, old)) :
    (slash ∈ info.filename → ∃ last, Proper last ∧ place = userPlace libs token ++ [last]) ∧
      (slash ∉ info.filename → place = storagePlace ++ [libs.uuidUnparse token ++ cstr "(null)"]) := by
  have resolved := (openCreate_place ok).1
  obtain ⟨inside, beside⟩ := uploadName_below free clean ok
  refine ⟨fun has => ?_, fun nowhere => (beside nowhere).place free resolved⟩
  obtain ⟨last, proper, below⟩ := inside has
  exact ⟨last, proper, below.place free resolved⟩

/-- Its place has the names of its path. -/
theorem openCreate_components {place : Place} {old : List Byte} (free : LinkFree fs) (clean : 0 ∉ info.filename)
    (ok : fs.openCreate (uploadName libs token info behind) = .ok (fs', place, old)) :
    place = components (uploadName libs token info behind) := by
  have resolved := (openCreate_place ok).1
  obtain ⟨inside, beside⟩ := uploadName_below free clean ok
  by_cases has : slash ∈ info.filename
  · obtain ⟨last, -, below⟩ := inside has
    rw [below.place free resolved, below.names]
  · have below := beside has
    rw [below.place free resolved, below.names]

/-- Its place is not the root. -/
theorem openCreate_ne_nil {place : Place} {old : List Byte} (free : LinkFree fs) (clean : 0 ∉ info.filename)
    (ok : fs.openCreate (uploadName libs token info behind) = .ok (fs', place, old)) : place ≠ [] := by
  obtain ⟨inside, beside⟩ := uploadName_place free clean ok
  by_cases has : slash ∈ info.filename
  · obtain ⟨last, -, rfl⟩ := inside has
    exact List.append_ne_nil_of_right_ne_nil _ (List.cons_ne_nil _ _)
  · rw [beside has]
    exact List.append_ne_nil_of_right_ne_nil _ (List.cons_ne_nil _ _)


end Uploads

/-! ### Messages -/

section Messages

variable {libs : Externals} {env : Env} {server : Server} {user : Option Nat} {hdr : MessageHdr}

/-- A user's directory that is made was not there. -/
theorem mkdir_root {token : Token} {fs fs' : Fs} (free : LinkFree fs)
    (ok : fs.mkdir (getUserRoot libs token) = .ok fs') :
    fs.get? (userPlace libs token) = none ∧ fs' = fs.set (userPlace libs token) .dir := by
  obtain ⟨place, resolved, missing, rfl⟩ := mkdir_place ok
  rw [(getUserRoot_route libs token).toBelow.trimmed.place free resolved] at missing ⊢
  exact ⟨missing, rfl⟩

/-- The user's directory is made. -/
def Roots (libs : Externals) (token : Token) (place : Place) (node : Option Node) : Prop :=
  place = userPlace libs token ∧ node = some .dir

/-- What an upload leaves: the user's directory, and a file in it or beside it. -/
def Stores (libs : Externals) (token : Token) (place : Place) (node : Option Node) : Prop :=
  Roots libs token place node ∨
    ∃ bytes, node = some (.file bytes) ∧ ((∃ last, Proper last ∧ place = userPlace libs token ++ [last]) ∨
      place = storagePlace ++ [libs.uuidUnparse token ++ cstr "(null)"])

/-- What a `REMOVE_REQ` removes lies below the place its path names. -/
theorem handleRemove_changes {payload : Option (List Byte)} (ordinary : Ordinary server.fs) :
    (handleRemove libs env server user hdr payload).1.fs = server.fs ∨
      ∃ bytes path x more, payload = some bytes ∧
        getUserPath libs (cString (bytes ++ env.tail)) hdr.token = some path ∧
        Route path ((libs.uuidUnparse hdr.token ++ x) :: more) ∧
        Changes (Removes ((libs.uuidUnparse hdr.token ++ x) :: more)) server.fs
          (handleRemove libs env server user hdr payload).1.fs := by
  unfold handleRemove
  split
  · exact .inl rfl
  · exact .inl rfl
  · rename_i bytes
    split
    · exact .inl rfl
    · rename_i path found
      obtain ⟨x, more, route⟩ := getUserPath_route found
      have comes : Comes ((libs.uuidUnparse hdr.token ++ x) :: more) path :=
        ⟨[], .inl (by rw [List.append_nil]; exact route)⟩
      have changes := @rmR_changes env.faults server.fs path _ server.fs.depth ordinary comes
      dsimp only
      split_ifs
      · exact .inl rfl
      all_goals
        refine .inr ⟨bytes, path, x, more, rfl, found, route, ?_⟩
        split
        all_goals
          rename_i removed
          rw [removed] at changes
          exact changes

theorem handleMkdir_changes {payload : Option (List Byte)} (ordinary : Ordinary server.fs) :
    ∃ x more, (∀ n ∈ (libs.uuidUnparse hdr.token ++ x) :: more, Proper n) ∧
      Changes (Makes ((libs.uuidUnparse hdr.token ++ x) :: more)) server.fs
        (handleMkdir libs env server user hdr payload).1.fs := by
  have root : ∀ n ∈ [libs.uuidUnparse hdr.token ++ []], Proper n := by
    rw [List.append_nil]
    exact (getUserRoot_route libs hdr.token).proper
  unfold handleMkdir
  split
  · exact ⟨[], [], root, .refl⟩
  · exact ⟨[], [], root, .refl⟩
  · exact createDirectoriesFromPath_changes ordinary (zero_not_mem_cString _)

/-- The user's directory is made at most. -/
theorem rootMade_changes {faults : Faults} {token : Token} {fs fs' : Fs} (free : LinkFree fs)
    (made : rootMade libs faults fs token = some fs') : Changes (Roots libs token) fs fs' := by
  unfold rootMade at made
  split at made
  · rename_i created
    cases made
    rw [(mkdir_root free (perform_ok created)).2]
    exact .single (.put ⟨rfl, rfl⟩)
  · split_ifs at made
    cases made
    exact .refl

theorem Stores.mild {token : Token} (place : Place) (node : Node)
    (stores : Stores libs token place (some node)) : (∀ target, node ≠ .link target) ∧
      (storagePlace <+: place → ∀ name ∈ place.drop storagePlace.length, Proper name) := by
  have root := (getUserRoot_route libs token).proper
  rcases stores with ⟨rfl, dir⟩ | ⟨bytes, file, here⟩
  · cases dir
    exact ⟨fun target => nofun, fun _ => root⟩
  · cases file
    refine ⟨fun target => nofun, fun _ => ?_⟩
    rcases here with ⟨last, proper, rfl⟩ | rfl
    · intro name mem
      rcases List.mem_cons.mp mem with rfl | mem
      · exact root _ List.mem_cons_self
      · rw [List.mem_singleton.mp mem]
        exact proper
    · exact (sibling_below libs token).proper

/-- An upload gets to `file_recv` in a tree with the user's directory, under a name made
from one the client has sent. -/
theorem uploadPrepare_changes {sock : Sock} (ordinary : Ordinary server.fs) :
    match uploadPrepare libs env server user hdr sock with
    | .ready next _ info _ _ => Changes (Roots libs hdr.token) server.fs next.fs ∧
        ∃ received behind, 0 ∉ received.filename ∧
          info.filename = uploadName libs hdr.token received behind
    | .returned next _ _ => next.fs = server.fs
    | .blocked => True := by
  unfold uploadPrepare
  cases user.bind fun addr => server.uman.users[addr]?.map fun user => (addr, user) with
  | none => rfl
  | some found =>
      dsimp only
      cases msgRecvPayload sock hdr.length sizeofFileInfo with
      | blocked => trivial
      | fail ret got rest => rfl
      | ok payload rest =>
          dsimp only
          have ends := @uploadAccept_ends libs env server found.1 found.2 hdr.token
            (FileInfo.decode (payload ++ env.tail)) ((payload ++ env.tail).drop sizeofFileInfo) rest
          split
          · rename_i accepted
            rw [accepted] at ends
            exact ⟨rootMade_changes ordinary.links ends.2.1, _, _, zero_not_mem_cString _,
              congrArg FileInfo.filename ends.2.2.1⟩
          · rename_i accepted
            rw [accepted] at ends
            exact ends.1
          · trivial

/-- `file_recv` writes at the place of its target. -/
theorem fileRecv_changes {fs : Fs} {info received : FileInfo} {behind : List Byte} {token : Token}
    {sock : Sock} (free : LinkFree fs) (clean : 0 ∉ received.filename)
    (named : info.filename = uploadName libs token received behind) :
    match fileRecv libs env fs info sock with
    | .ret next _ _ => Changes (Stores libs token) fs next
    | .blocked next => Changes (Stores libs token) fs next
    | .faulted next => Changes (Stores libs token) fs next := by
  unfold fileRecv
  cases opened : perform env.faults .recvOpen info.filename (fs.openCreate info.filename) with
  | error errno => exact .refl
  | ok target =>
      obtain ⟨next, place, bytes⟩ := target
      have opens := perform_ok opened
      rw [named] at opens
      obtain ⟨inside, beside⟩ := uploadName_place free clean opens
      have stores : ∀ content, Stores libs token place (some (.file content)) := by
        intro content
        refine .inr ⟨content, rfl, ?_⟩
        by_cases has : slash ∈ received.filename
        · exact .inl (inside has)
        · exact .inr (beside has)
      have first : Changes (Stores libs token) fs next := by
        rcases (openCreate_place opens).2 with ⟨-, rfl, -⟩ | ⟨-, rfl⟩
        · exact .single (.put (stores []))
        · exact .refl
      have written : ∀ content, Changes (Stores libs token) fs (next.set place (.file content)) :=
        fun content => first.tail (.put (stores content))
      dsimp only
      split <;> rename_i shape <;> split at shape <;> cases shape <;> exact written _

theorem handleUpload_changes {sock : Sock} (ordinary : Ordinary server.fs) :
    Changes (Stores libs hdr.token) server.fs
      (handleUpload libs env server user hdr sock).server.fs := by
  have prepared := @uploadPrepare_changes libs env server user hdr sock ordinary
  unfold handleUpload
  cases early : uploadPrepare libs env server user hdr sock with
  | returned next sock events =>
      rw [early] at prepared
      dsimp only at prepared ⊢
      rw [prepared]
  | blocked => exact .refl
  | ready next place info seq sock =>
      rw [early] at prepared
      obtain ⟨rooted, received, behind, clean, named⟩ := prepared
      have made : Changes (Stores libs hdr.token) server.fs next.fs := rooted.mono fun _ _ root => .inl root
      have free := (ordinary.changes made Stores.mild).links
      have stored := @fileRecv_changes libs env next.fs info received behind hdr.token sock free clean named
      simp only [modifySession_fs]
      cases transfer : fileRecv libs env next.fs info sock with
      | blocked fs =>
          rw [transfer] at stored
          exact made.trans stored
      | faulted fs =>
          rw [transfer] at stored
          exact made.trans stored
      | ret fs rest stats =>
          rw [transfer] at stored
          simp only [uploadFinish_fs]
          exact made.trans stored

theorem handleAuth_changes {next : Server} {events : List Event} (free : LinkFree server.fs)
    (ok : handleAuth libs env server hdr = some (next, events)) :
    Changes (Roots libs hdr.token) server.fs next.fs := by
  obtain ⟨uman, -, ok⟩ := Option.bind_eq_some_iff.mp ok
  cases made : perform env.faults .mkdir (snprintf PATH_MAX (STORAGE_DIR ++ slash :: libs.uuidUnparse hdr.token))
      (server.fs.mkdir (snprintf PATH_MAX (STORAGE_DIR ++ slash :: libs.uuidUnparse hdr.token))) with
  | error errno =>
      rw [made] at ok
      cases ok
      exact .refl
  | ok fs =>
      rw [made] at ok
      cases ok
      rw [(mkdir_root free (perform_ok made)).2]
      exact .single (.put ⟨rfl, rfl⟩)

/-- A message touches the directory of its user and what is in it, or one beside it whose
name starts with the token; it leaves no links and no improper names there. -/
def Touches (libs : Externals) (token : Token) (place : Place) (node : Option Node) : Prop :=
  (∃ x, storagePlace ++ [libs.uuidUnparse token ++ x] <+: place) ∧
    ∀ left, node = some left → (∀ target, left ≠ .link target) ∧
      (storagePlace <+: place → ∀ name ∈ place.drop storagePlace.length, Proper name)

theorem Stores.touches {token : Token} (place : Place) (node : Option Node)
    (stores : Stores libs token place node) : Touches libs token place node := by
  constructor
  · rcases stores with ⟨rfl, -⟩ | ⟨bytes, -, ⟨last, -, rfl⟩ | rfl⟩
    · refine ⟨[], ?_⟩
      rw [List.append_nil]
      exact List.prefix_rfl
    · refine ⟨[], ?_⟩
      rw [List.append_nil]
      exact List.prefix_append _ _
    · exact ⟨cstr "(null)", List.prefix_rfl⟩
  · rintro left rfl
    exact stores.mild

theorem Removes.touches {token : Token} {x : CStr} {more : List CStr} (place : Place) (node : Option Node)
    (removes : Removes ((libs.uuidUnparse token ++ x) :: more) place node) : Touches libs token place node := by
  obtain ⟨rfl, below, rfl | ⟨along, deep⟩⟩ := removes
  · exact ⟨⟨x, more ++ below, by simp⟩, nofun⟩
  · refine ⟨⟨x, ?_⟩, nofun⟩
    have way : storagePlace ++ [libs.uuidUnparse token ++ x] <+:
        storagePlace ++ ((libs.uuidUnparse token ++ x) :: more ++ below) := ⟨more ++ below, by simp⟩
    exact List.prefix_of_prefix_length_le way along (Nat.le_of_succ_le deep)

theorem Makes.touches {token : Token} {x : CStr} {more : List CStr}
    (proper : ∀ n ∈ (libs.uuidUnparse token ++ x) :: more, Proper n) (place : Place) (node : Option Node)
    (makes : Makes ((libs.uuidUnparse token ++ x) :: more) place node) : Touches libs token place node := by
  obtain ⟨rfl, front, named, along, rfl⟩ := makes
  constructor
  · obtain ⟨first, rest, rfl⟩ := List.exists_cons_of_ne_nil named
    obtain ⟨below, shape⟩ := along
    rw [(List.cons.inj shape).1]
    exact ⟨x, rest, by simp⟩
  · rintro left same
    cases same
    refine ⟨fun target => nofun, fun _ name mem => ?_⟩
    rw [List.drop_left] at mem
    exact proper name (along.subset mem)

theorem onOneshotReq_touches {type : MessageType} {payload : Option (List Byte)} {next : Server}
    {events : List Event} (ordinary : Ordinary server.fs)
    (ok : onOneshotReq libs env server user hdr type payload = some (next, events)) :
    Changes (Touches libs hdr.token) server.fs next.fs := by
  unfold onOneshotReq at ok
  split at ok
  · exact (handleAuth_changes ordinary.links ok).mono fun _ _ root => Stores.touches _ _ (.inl root)
  · have removed := @handleRemove_changes libs env server user hdr payload ordinary
    rw [Option.some.inj ok] at removed
    rcases removed with same | ⟨bytes, path, x, more, -, -, -, changes⟩
    · rw [same]
    · exact changes.mono Removes.touches
  · obtain ⟨x, more, proper, changes⟩ := @handleMkdir_changes libs env server user hdr payload ordinary
    rw [Option.some.inj ok] at changes
    exact changes.mono (Makes.touches proper)
  · cases ok
    exact .refl

/-- All a message changes is near the directory of its user. -/
theorem serve_touches {r : Request} (ordinary : Ordinary server.fs) :
    Changes (Touches libs r.hdr.token) server.fs (r.serve libs server).server.fs := by
  unfold Request.serve onClientMessageReceived
  cases dispatch r.hdr with
  | abort => exact .refl
  | refuse => exact .refl
  | accept type =>
      dsimp only
      cases umanGetUser server.uman r.hdr.token with
      | none => exact .refl
      | some user =>
          dsimp only
          cases type.kind with
          | ignored => exact .refl
          | stream =>
              cases type
              case uploadReq => exact (handleUpload_changes ordinary).mono Stores.touches
              case downloadReq => exact handleDownload_fs ▸ .refl
              case listReq => exact handleList_fs ▸ .refl
              all_goals exact .refl
          | oneshot =>
              dsimp only
              split
              · exact .refl
              · rename_i handled
                exact onOneshotReq_touches ordinary handled

theorem ordinary_serve {r : Request} (ordinary : Ordinary server.fs) :
    Ordinary (r.serve libs server).server.fs :=
  ordinary.changes (serve_touches ordinary) fun _ node touches => touches.2 node rfl

end Messages

/-! ### Runs -/

theorem ordinary_runState {libs : Externals} {server : Server} {rs : List Request}
    (ordinary : Ordinary server.fs) : Ordinary (runState libs server rs).fs := by
  induction rs generalizing server with
  | nil => exact ordinary
  | cons r rs ih =>
      rw [runState]
      split_ifs
      · exact ih (ordinary_serve ordinary)
      · exact ordinary_serve ordinary

/-- An empty storage directory is ordinary, whatever else the machine holds. -/
theorem ordinary_boot (outside : List (Place × Node)) (cwd : Place) : Ordinary (boot outside cwd).fs := by
  refine ⟨linkFree_boot outside cwd, ?_⟩
  intro place within name mem
  obtain ⟨node, entry⟩ := mem_names.mp mem
  have long : 3 ≤ (place ++ [name]).length := by
    have := within.length_le
    rw [List.length_append]
    exact Nat.add_le_add_right this 1
  rcases List.mem_cons.mp entry with storage | entry
  · rw [(Prod.mk.inj storage).1] at long
    exact absurd long (by decide)
  rcases List.mem_cons.mp entry with var | other
  · rw [(Prod.mk.inj var).1] at long
    exact absurd long (by decide)
  · have beside := (List.mem_filter.mp other).2
    simp only [decide_eq_true_eq] at beside
    exact absurd (within.trans (List.prefix_append _ _)) beside

end MiniDropbox
