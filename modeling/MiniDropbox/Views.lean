/-
What the server reads and writes for one user.

All paths that are made from a user's token lead below one name of the storage directory, his
directory or one beside it whose name begins with his token (`Homeward`). So every function of the
sources that is given such a path finds the same in two trees that are the same there
(`SameTo`), and leaves two that are the same again. `rm_r` has a lemma for trees of different
sizes, in which the model gives it different bounds.
-/

import MiniDropbox.Footprint
import MiniDropbox.Removal

namespace MiniDropbox

open Lexical

/-! ### The places of a user -/

/-- The places in the directory of a user and in those beside it whose names begin with his token. -/
def Ours (libs : Externals) (t : Token) (place : Place) : Prop :=
  storagePlace <+: place ∧ ∃ name ∈ place[2]?, libs.uuidUnparse t <+: name

instance (libs : Externals) (t : Token) : DecidablePred (Ours libs t) :=
  fun _ => inferInstanceAs (Decidable (_ ∧ _))

/-- The part of the tree a user's requests are about. -/
def files (libs : Externals) (t : Token) (fs : Fs) : List (Place × Node) :=
  fs.nodes.filter fun entry => Ours libs t entry.1

/-- The storage directory is there, with the tree in it as the server makes it. -/
structure Housed (fs : Fs) : Prop extends Ordinary fs where
  above : ∀ place, place <+: storagePlace → fs.get? place = some .dir

/-- Two trees with the same files of a user. -/
structure SameTo (libs : Externals) (t : Token) (fs fs' : Fs) : Prop where
  housed : Housed fs
  housed' : Housed fs'
  files : files libs t fs = files libs t fs'

section Places

variable {libs : Externals} {t : Token} {fs fs' : Fs} {place : Place} {name x : CStr} {more stack : List CStr}
  {node : Node}

theorem ours_iff : Ours libs t place ↔ ∃ x, storagePlace ++ [libs.uuidUnparse t ++ x] <+: place := by
  constructor
  · rintro ⟨⟨rest, rfl⟩, name, third, x, rfl⟩
    cases rest with
    | nil => cases third
    | cons first rest =>
        cases third
        exact ⟨x, rest, by simp⟩
  · rintro ⟨x, rest, rfl⟩
    exact ⟨⟨(libs.uuidUnparse t ++ x) :: rest, by simp⟩, libs.uuidUnparse t ++ x, rfl, x, rfl⟩

theorem ours_stack : Ours libs t (storagePlace ++ (libs.uuidUnparse t ++ x) :: more) :=
  ours_iff.mpr ⟨x, more, by simp⟩

theorem Ours.ne_nil (ours : Ours libs t place) : place ≠ [] := by
  rintro rfl
  cases ours.1.length_le

theorem Ours.append (ours : Ours libs t place) (below : Place) : Ours libs t (place ++ below) := by
  obtain ⟨x, along⟩ := ours_iff.mp ours
  exact ours_iff.mpr ⟨x, along.trans (List.prefix_append _ _)⟩

theorem not_ours_of_above (above : place <+: storagePlace) : ¬ Ours libs t place := by
  intro ours
  obtain ⟨x, along⟩ := ours_iff.mp ours
  have length := (along.trans above).length_le
  rw [List.length_append, List.length_singleton] at length
  omega

/-- What one user may touch is not in the places of another. -/
theorem Touches.not_ours {u : Token} {left : Option Node} (touches : Touches libs u place left) (different : u ≠ t) :
    ¬ Ours libs t place := by
  intro ours
  obtain ⟨x, along⟩ := ours_iff.mp ours
  obtain ⟨y, along'⟩ := touches.1
  have same : storagePlace ++ [libs.uuidUnparse t ++ x] = storagePlace ++ [libs.uuidUnparse u ++ y] :=
    (List.prefix_of_prefix_length_le along along' (Nat.le_of_eq rfl)).eq_of_length rfl
  have names := (List.cons.inj (List.append_cancel_left same)).1
  have tokens := (List.append_inj names (by rw [libs.length_uuidUnparse, libs.length_uuidUnparse])).1
  exact different (libs.uuidUnparse_injective tokens.symm)

theorem Touches.ours {left : Option Node} (touches : Touches libs t place left) : Ours libs t place :=
  ours_iff.mpr touches.1

/-- Messages leave the storage directory where it is. -/
theorem Housed.changes {u : Token} (housed : Housed fs) (changes : Changes (Touches libs u) fs fs') : Housed fs' where
  toOrdinary := housed.toOrdinary.changes changes fun _ node touches => touches.2 node rfl
  above place above := by
    rw [changes.frame fun node touches => not_ours_of_above above touches.ours]
    exact housed.above place above

theorem housed_boot (outside : List (Place × Node)) (cwd : Place) : Housed (boot outside cwd).fs where
  toOrdinary := ordinary_boot outside cwd
  above place above := by
    rw [List.prefix_iff_eq_take.mp above]
    rcases place.length with _ | _ | n
    · rfl
    · rfl
    · rw [List.take_of_length_le (Nat.le_add_left 2 n)]
      rfl

/-! ### Trees that are the same to a user -/

theorem lookup_files (ours : Ours libs t place) : (files libs t fs).lookup place = fs.nodes.lookup place := by
  rw [files]
  induction fs.nodes with
  | nil => rfl
  | cons entry nodes ih =>
      rw [List.filter_cons, lookup_cons_if]
      by_cases here : place = entry.1
      · rw [if_pos here, if_pos (decide_eq_true (here ▸ ours)), lookup_cons_if, if_pos here]
      · rw [if_neg here, ← ih]
        split_ifs
        · rw [lookup_cons_if, if_neg here]
        · rfl

theorem names_files (ours : Ours libs t place) : fs.names place =
    (files libs t fs).filterMap fun entry => if entry.1.dropLast = place then entry.1.getLast? else none := by
  rw [files, List.filterMap_filter, Fs.names]
  apply List.filterMap_congr
  rintro ⟨q, there⟩ -
  simp only [decide_eq_true_eq]
  by_cases inside : Ours libs t q
  · rw [if_pos inside]
  · rw [if_neg inside]
    split_ifs with parent
    · rcases List.eq_nil_or_concat q with rfl | ⟨init, last, rfl⟩
      · rfl
      · rw [List.concat_eq_append] at inside parent
        rw [List.dropLast_concat] at parent
        exact absurd (parent ▸ ours.append [last]) inside
    · rfl

theorem files_set (ours : Ours libs t place) :
    files libs t (fs.set place node) = (place, node) :: (files libs t fs).filter fun entry => entry.1 ≠ place := by
  have here : decide (Ours libs t (place, node).1) = true := decide_eq_true ours
  rw [files, Fs.set]
  simp only [List.filter_cons, here, if_true]
  rw [Fs.erase, files, List.filter_comm]

theorem files_erase : files libs t (fs.erase place) = (files libs t fs).filter fun entry => entry.1 ≠ place := by
  rw [files, Fs.erase, files, List.filter_comm]

/-- A change elsewhere does not show. -/
theorem files_changes {u : Token} (changes : Changes (Touches libs u) fs fs') (different : u ≠ t) :
    files libs t fs' = files libs t fs := by
  induction changes with
  | refl => rfl
  | @tail between after _ change ih =>
      rw [← ih]
      have kept : ∀ q, ¬ Ours libs t q → (files libs t between).filter (fun entry => entry.1 ≠ q) = files libs t between := by
        intro q beside
        apply List.filter_eq_self.mpr
        intro entry among
        have ours := of_decide_eq_true (List.mem_filter.mp among).2
        exact decide_eq_true fun same => beside (same ▸ ours)
      cases change with
      | @put q node may =>
          have beside := may.not_ours different
          rw [files, Fs.set, List.filter_cons_of_neg (by simpa using beside), ← files, files_erase, kept q beside]
      | @drop q may => rw [files_erase, kept q (may.not_ours different)]

namespace SameTo

theorem refl (housed : Housed fs) : SameTo libs t fs fs := ⟨housed, housed, rfl⟩

theorem symm (same : SameTo libs t fs fs') : SameTo libs t fs' fs := ⟨same.housed', same.housed, same.files.symm⟩

theorem get? (same : SameTo libs t fs fs') (ours : Ours libs t place) : fs.get? place = fs'.get? place := by
  rw [Fs.get?, Fs.get?, if_neg ours.ne_nil, if_neg ours.ne_nil, ← lookup_files ours, ← lookup_files ours, same.files]

theorem names (same : SameTo libs t fs fs') (ours : Ours libs t place) : fs.names place = fs'.names place := by
  rw [names_files ours, names_files ours, same.files]

theorem set (same : SameTo libs t fs fs') (touches : Touches libs t place (some node)) :
    SameTo libs t (fs.set place node) (fs'.set place node) where
  housed := same.housed.changes (.single (.put touches))
  housed' := same.housed'.changes (.single (.put touches))
  files := by rw [files_set touches.ours, files_set touches.ours, same.files]

theorem erase (same : SameTo libs t fs fs') (touches : Touches libs t place none) :
    SameTo libs t (fs.erase place) (fs'.erase place) where
  housed := same.housed.changes (.single (.drop touches))
  housed' := same.housed'.changes (.single (.drop touches))
  files := by rw [files_erase, files_erase, same.files]

end SameTo

end Places

/-! ### Paths and calls -/

/-- A path below the storage directory that goes on with a name that begins with the token of a user,
and at the end possibly with special names. -/
def Homeward (libs : Externals) (t : Token) (path : CStr) : Prop :=
  ∃ x more special, path.head? = some slash ∧
    trail path = storagePlace ++ ((libs.uuidUnparse t ++ x) :: more) ++ special ∧
      (∀ n ∈ (libs.uuidUnparse t ++ x) :: more, Proper n) ∧ ∀ n ∈ special, n = [dot] ∨ n = [dot, dot]

/-- Two calls that fail alike, or leave related results. -/
inductive Alike {α : Type} (R : α → α → Prop) : Except Errno α → Except Errno α → Prop
  | failed (errno : Errno) : Alike R (.error errno) (.error errno)
  | done {a b : α} (related : R a b) : Alike R (.ok a) (.ok b)

theorem Alike.perform {α : Type} {R : α → α → Prop} {call call' : Except Errno α} (alike : Alike R call call')
    (faults : Faults) (site : Site) (path : CStr) :
    Alike R (perform faults site path call) (perform faults site path call') := by
  unfold MiniDropbox.perform
  split
  · exact .failed _
  · exact alike

/-- What is left by a last call that may fail. -/
def leaving (tree : Fs) : Except Errno Fs → Fs × Except Errno Unit
  | .error errno => (tree, .error errno)
  | .ok fs => (fs, .ok ())

theorem Alike.leaving {R : Fs → Fs → Prop} {call call' : Except Errno Fs} {tree tree' : Fs} (alike : Alike R call call')
    (related : R tree tree') : R (leaving tree call).1 (leaving tree' call').1 ∧
      (MiniDropbox.leaving tree call).2 = (MiniDropbox.leaving tree' call').2 := by
  cases alike with
  | failed errno => exact ⟨related, rfl⟩
  | done made => exact ⟨made, rfl⟩

section Calls

variable {libs : Externals} {t : Token} {fs fs' : Fs} {path x : CStr} {more stack names : List CStr} {follow : Bool}

theorem Below.homeward (below : Below path ((libs.uuidUnparse t ++ x) :: more)) : Homeward libs t path := by
  refine ⟨x, more, if path.getLast? = some slash then [[dot]] else [], below.absolute, ?_, below.proper, ?_⟩
  · rw [trail, below.names]
  · split_ifs
    · exact List.forall_mem_singleton.mpr (.inl rfl)
    · exact List.forall_mem_nil _

theorem CutRoute.homeward (cut : CutRoute path ((libs.uuidUnparse t ++ x) :: more)) : Homeward libs t path := by
  rcases cut.names with here | up
  · exact ⟨x, more, [[dot]], cut.absolute, here, cut.proper, List.forall_mem_singleton.mpr (.inl rfl)⟩
  · exact ⟨x, more, [[dot, dot]], cut.absolute, up, cut.proper, List.forall_mem_singleton.mpr (.inr rfl)⟩

/-- What may be met on the way along such a path. -/
theorem seen_cases {front : Place} (along : front <+: storagePlace ++ ((libs.uuidUnparse t ++ x) :: more)) :
    front <+: storagePlace ∨ Ours libs t front := by
  rcases List.prefix_or_prefix_of_prefix along (List.prefix_append _ _) with above | below
  · exact .inl above
  · obtain ⟨rest, rfl⟩ := below
    cases rest with
    | nil =>
        rw [List.append_nil]
        exact .inl List.prefix_rfl
    | cons first rest =>
        obtain ⟨rfl, -⟩ := List.cons_prefix_cons.mp ((List.prefix_append_right_inj _).mp along)
        exact .inr ours_stack

/-- A walk finds the same in two trees that are the same on its way. -/
theorem walk_congr {fuel links : Nat} {place : Place}
    (agree : ∀ front, front <+: names → fs.get? (front.foldl (push [dot] [dot, dot]) place) =
      fs'.get? (front.foldl (push [dot] [dot, dot]) place))
    (linkless : ∀ front, front <+: names → ∀ target,
      fs.get? (front.foldl (push [dot] [dot, dot]) place) ≠ some (.link target)) :
    fs.walk follow fuel links place names = fs'.walk follow fuel links place names := by
  induction fuel generalizing place names with
  | zero => rfl
  | succ fuel ih =>
      cases names with
      | nil => rfl
      | cons name rest =>
          have here := agree [] List.nil_prefix
          have next := agree [name] (List.cons_prefix_cons.mpr ⟨rfl, List.nil_prefix⟩)
          have plain := linkless [name] (List.cons_prefix_cons.mpr ⟨rfl, List.nil_prefix⟩)
          have later := @ih rest (push [dot] [dot, dot] place name)
            (fun front along => agree (name :: front) (List.cons_prefix_cons.mpr ⟨rfl, along⟩))
            (fun front along => linkless (name :: front) (List.cons_prefix_cons.mpr ⟨rfl, along⟩))
          rw [List.foldl_nil] at here
          rw [List.foldl_cons, List.foldl_nil] at next plain
          rw [Fs.walk, Fs.walk, ← here]
          cases fs.get? place with
          | none => rfl
          | some node =>
              cases node with
              | file bytes => rfl
              | link target => rfl
              | dir =>
                  dsimp only
                  by_cases stays : name = [dot]
                  · rw [stays, push_dot] at later
                    rw [if_pos stays, if_pos stays, later]
                  rw [if_neg stays, if_neg stays]
                  by_cases up : name = [dot, dot]
                  · rw [up, push_dots] at later
                    rw [if_pos up, if_pos up, later]
                  rw [if_neg up, if_neg up]
                  rw [push_name stays up] at later next plain
                  by_cases long : name.length > NAME_MAX
                  · rw [if_pos long, if_pos long]
                  rw [if_neg long, if_neg long, ← next]
                  cases there : fs.get? (place ++ [name]) with
                  | none => rfl
                  | some node =>
                      cases node with
                      | file bytes => exact later
                      | dir => exact later
                      | link target => exact absurd there (plain target)

/-- The path of an entry. -/
theorem Route.down {name : CStr} (route : Route path stack) (proper : Proper name) :
    Route (path ++ slash :: name) (stack ++ [name]) where
  absolute := by
    have absolute := route.absolute
    cases path with
    | nil => cases absolute
    | cons c path => exact absolute
  names := by rw [components_entry proper, route.names, List.append_assoc]
  proper := fun n among => (List.mem_append.mp among).elim (route.proper n) fun last => List.mem_singleton.mp last ▸ proper
  length := by
    have length := route.length
    rw [← List.append_assoc, joined_append, joined_singleton, List.length_append, List.length_append]
    omega

/-- What is there after things have been removed was there before. -/
theorem there_of_removes {q : Place} (changes : Changes (Removes stack) fs fs') (there : fs'.get? q ≠ none) :
    fs.get? q ≠ none := by
  by_cases named : q = []
  · rw [named]
    nofun
  · rcases changes.after named with same | ⟨gone, -⟩
    · rwa [← same]
    · exact absurd gone there

/-- What is there with all above it is no deeper than there are nodes. -/
theorem length_le_nodes {place below : Place} (there : ∀ n < below.length, fs.get? (place ++ below.take (n + 1)) ≠ none) :
    below.length ≤ fs.nodes.length := by
  have listed : (List.range below.length).map (fun n => place ++ below.take (n + 1)) ⊆ fs.nodes.map Prod.fst := by
    intro q among
    obtain ⟨n, inside, rfl⟩ := List.mem_map.mp among
    obtain ⟨node, found⟩ := Option.ne_none_iff_exists'.mp (there n (List.mem_range.mp inside))
    refine List.mem_map.mpr ⟨_, mem_of_get? ?_ found, rfl⟩
    refine List.append_ne_nil_of_right_ne_nil _ fun empty => ?_
    have length := congrArg List.length empty
    rw [List.length_take_of_le (List.mem_range.mp inside)] at length
    exact Nat.succ_ne_zero n length
  have distinct : ((List.range below.length).map fun n => place ++ below.take (n + 1)).Nodup := by
    refine List.Nodup.map_on (fun m hm n hn same => ?_) List.nodup_range
    have length := congrArg List.length (List.append_cancel_left same)
    rw [List.length_take_of_le (List.mem_range.mp hm), List.length_take_of_le (List.mem_range.mp hn)] at length
    exact Nat.succ.inj length
  have few := (distinct.subperm listed).length_le
  rwa [List.length_map, List.length_range, List.length_map] at few

namespace SameTo

variable (same : SameTo libs t fs fs')

include same

/-- On the way to a user's files two trees that are the same to him are the same. -/
theorem seen {front : Place} (seen : front <+: storagePlace ∨ Ours libs t front) : fs.get? front = fs'.get? front := by
  rcases seen with above | ours
  · rw [same.housed.above front above, same.housed'.above front above]
  · exact same.get? ours

theorem resolve (homeward : Homeward libs t path) : fs.resolve follow path = fs'.resolve follow path := by
  obtain ⟨x, more, special, absolute, names, proper, each⟩ := homeward
  by_cases some : path = []
  · rw [Fs.resolve, Fs.resolve, if_pos some, if_pos some]
  by_cases fits : path.length < PATH_MAX
  · rw [resolve_eq some fits, resolve_eq some fits, origin, origin, if_pos absolute, if_pos absolute, names]
    have way : ∀ front, front <+: storagePlace ++ ((libs.uuidUnparse t ++ x) :: more) ++ special →
        front.foldl (push [dot] [dot, dot]) [] <+: storagePlace ++ ((libs.uuidUnparse t ++ x) :: more) := by
      intro front along
      have plain : ∀ n ∈ storagePlace ++ ((libs.uuidUnparse t ++ x) :: more), n ≠ [dot] ∧ n ≠ [dot, dot] := by
        intro n among
        rcases List.mem_append.mp among with storage | name
        · exact ⟨(proper_of_mem_storagePlace storage).notDot, (proper_of_mem_storagePlace storage).notDots⟩
        · exact ⟨(proper n name).notDot, (proper n name).notDots⟩
      have pushed : ∀ front, front <+: storagePlace ++ ((libs.uuidUnparse t ++ x) :: more) →
          front.foldl (push [dot] [dot, dot]) [] = front := fun front within => by
        rw [foldl_push_of_plain fun n among => plain n (within.subset among), List.nil_append]
      rcases List.prefix_or_prefix_of_prefix along (List.prefix_append _ special) with inside | ⟨behind, rfl⟩
      · rw [pushed front inside]
        exact inside
      · have beside := (List.prefix_append_right_inj _).mp along
        rw [List.foldl_append, pushed _ List.prefix_rfl]
        exact foldl_push_special fun n among => each n (beside.subset among)
    refine walk_congr (fun front along => same.seen (seen_cases (way front along))) fun front along target => ?_
    exact same.housed.links.way (way front along) target
  · rw [Fs.resolve, Fs.resolve, if_neg some, if_neg some, if_pos (Nat.le_of_not_lt fits), if_pos (Nat.le_of_not_lt fits)]

/-- Where such a path leads the two trees hold the same. -/
theorem found (homeward : Homeward libs t path) {place : Place} (resolved : fs.resolve follow path = .ok place) :
    fs.get? place = fs'.get? place := by
  obtain ⟨x, more, special, absolute, names, proper, each⟩ := homeward
  obtain ⟨rfl, -⟩ := same.housed.links.resolve absolute names proper each resolved
  exact same.seen (seen_cases (foldl_push_special each))

theorem lstat (homeward : Homeward libs t path) : fs.lstat path = fs'.lstat path := by
  rw [Fs.lstat, Fs.lstat, ← same.resolve homeward]
  cases resolved : fs.resolve false path with
  | error errno => rfl
  | ok place =>
      have found := same.found homeward resolved
      simp only [bind, Except.bind, found]

theorem openRead (homeward : Homeward libs t path) : fs.openRead path = fs'.openRead path := by
  rw [Fs.openRead, Fs.openRead, ← same.resolve homeward]
  cases resolved : fs.resolve true path with
  | error errno => rfl
  | ok place =>
      have found := same.found homeward resolved
      simp only [bind, Except.bind, found]

theorem opendir (below : Below path ((libs.uuidUnparse t ++ x) :: more)) : fs.opendir path = fs'.opendir path := by
  rw [Fs.opendir, Fs.opendir, ← same.resolve below.homeward]
  cases resolved : fs.resolve true path with
  | error errno => rfl
  | ok place =>
      have here := below.place same.housed.links resolved
      have ours : Ours libs t place := here ▸ ours_stack
      have found := same.get? ours
      have names := same.names ours
      simp only [bind, Except.bind, found, names]

theorem mkdir (below : Below path ((libs.uuidUnparse t ++ x) :: more)) :
    Alike (SameTo libs t) (fs.mkdir path) (fs'.mkdir path) := by
  rw [Fs.mkdir, Fs.mkdir, ← same.resolve below.trimmed.homeward]
  cases resolved : fs.resolve false (trimSlashes path) with
  | error errno => exact .failed errno
  | ok place =>
      have here := below.trimmed.place same.housed.links resolved
      have touches : Touches libs t place (some .dir) := by
        rw [here]
        exact Makes.touches below.proper _ _ ⟨rfl, _, List.cons_ne_nil _ _, List.prefix_rfl, rfl⟩
      have found := same.get? touches.ours
      simp only [bind, Except.bind, ← found]
      cases fs.get? place with
      | none => exact .done (same.set touches)
      | some node => exact .failed .EEXIST

theorem removed (below : Below path ((libs.uuidUnparse t ++ x) :: more)) {place : Place}
    (resolved : fs.resolve follow path = .ok place) : Touches libs t place none := by
  rw [below.place same.housed.links resolved]
  exact Removes.touches _ _ ⟨rfl, [], .inl (by rw [List.append_nil])⟩

theorem unlink (below : Below path ((libs.uuidUnparse t ++ x) :: more)) :
    Alike (SameTo libs t) (fs.unlink path) (fs'.unlink path) := by
  rw [Fs.unlink, Fs.unlink, ← same.resolve below.homeward]
  cases resolved : fs.resolve false path with
  | error errno => exact .failed errno
  | ok place =>
      have touches := same.removed below resolved
      have found := same.get? touches.ours
      simp only [bind, Except.bind, ← found]
      cases fs.get? place with
      | none => exact .failed .ENOENT
      | some node =>
          cases node with
          | dir => exact .failed .EISDIR
          | file bytes => exact .done (same.erase touches)
          | link target => exact .done (same.erase touches)

theorem rmdir (below : Below path ((libs.uuidUnparse t ++ x) :: more)) :
    Alike (SameTo libs t) (fs.rmdir path) (fs'.rmdir path) := by
  rw [Fs.rmdir, Fs.rmdir, ← same.resolve below.trimmed.homeward]
  cases resolved : fs.resolve false (trimSlashes path) with
  | error errno => exact .failed errno
  | ok place =>
      have touches := same.removed below.trimmed resolved
      have found := same.get? touches.ours
      have names := same.names touches.ours
      simp only [bind, Except.bind, ← found, ← names]
      cases refusedName (components path).getLast? with
      | some errno => exact .failed errno
      | none =>
          cases fs.get? place with
          | none => exact .failed .ENOENT
          | some node =>
              cases node with
              | dir =>
                  dsimp only
                  split_ifs
                  · exact .done (same.erase touches)
                  · exact .failed .ENOTEMPTY
              | file bytes => exact .failed .ENOTDIR
              | link target => exact .failed .ENOTDIR

/-- The calls of `create_directories_from_path`. -/
theorem mkdirAll {faults : Faults} {dirs : List CStr}
    (each : ∀ dir ∈ dirs, ∃ x more, Below dir ((libs.uuidUnparse t ++ x) :: more)) :
    SameTo libs t (mkdirAll faults fs dirs).1 (mkdirAll faults fs' dirs).1 ∧
      (MiniDropbox.mkdirAll faults fs dirs).2 = (MiniDropbox.mkdirAll faults fs' dirs).2 := by
  induction dirs generalizing fs fs' with
  | nil => exact ⟨same, rfl⟩
  | cons dir dirs ih =>
      obtain ⟨x, more, below⟩ := each dir List.mem_cons_self
      have later := fun d among => each d (List.mem_cons_of_mem _ among)
      have call := (same.mkdir below).perform faults .mkdir dir
      rw [MiniDropbox.mkdirAll, MiniDropbox.mkdirAll]
      generalize perform faults .mkdir dir (fs.mkdir dir) = made at call ⊢
      generalize perform faults .mkdir dir (fs'.mkdir dir) = made' at call ⊢
      cases call with
      | done related => exact ih related later
      | failed errno =>
          dsimp only
          split_ifs
          · exact ih same later
          · exact ⟨same, rfl⟩

theorem createDirectoriesFromPath {faults : Faults} {userPath : CStr} (free : 0 ∉ userPath) :
    SameTo libs t (createDirectoriesFromPath faults fs (getUserRoot libs t) userPath).1
        (createDirectoriesFromPath faults fs' (getUserRoot libs t) userPath).1 ∧
      (MiniDropbox.createDirectoriesFromPath faults fs (getUserRoot libs t) userPath).2 =
        (MiniDropbox.createDirectoriesFromPath faults fs' (getUserRoot libs t) userPath).2 := by
  rw [createDirectoriesFromPath_eq, createDirectoriesFromPath_eq]
  by_cases starts : (normalizePath (snprintf PATH_MAX (getUserRoot libs t ++ slash :: userPath))).take
      (getUserRoot libs t).length = getUserRoot libs t
  · rw [if_pos starts, if_pos starts]
    obtain ⟨x, more, names, calls⟩ := @mkdirPaths_user libs t userPath _ free rfl starts
    have proper : ∀ n ∈ (libs.uuidUnparse t ++ x) :: more, Proper n := fun n among =>
      proper_of_mem_resolved (names ▸ List.mem_append_right _ among)
    have each : ∀ dir ∈ mkdirPaths (getUserRoot libs t) userPath, ∃ x more, Below dir ((libs.uuidUnparse t ++ x) :: more) := by
      intro dir among
      rw [calls] at among
      obtain ⟨front, named, along, below⟩ := below_of_mem_ways proper (by split_ifs <;> simp) among
      obtain ⟨first, rest, rfl⟩ := List.exists_cons_of_ne_nil named
      rw [(List.cons_prefix_cons.mp along).1] at below
      exact ⟨x, rest, below⟩
    obtain ⟨trees, results⟩ := @SameTo.mkdirAll libs t fs fs' same faults _ each
    rw [returnOf_fs, returnOf_fs]
    refine ⟨trees, ?_⟩
    generalize MiniDropbox.mkdirAll faults fs _ = made at results ⊢
    generalize MiniDropbox.mkdirAll faults fs' _ = made' at results ⊢
    obtain ⟨tree, result⟩ := made
    obtain ⟨tree', result'⟩ := made'
    cases results
    cases result with
    | ok done => rfl
    | error errno => rfl
  · rw [if_neg starts, if_neg starts]
    exact ⟨same, rfl⟩

theorem fileinfoFromFilename {faults : Faults} {lstatSite openSite : Site} {out : FileInfo} (homeward : Homeward libs t path) :
    fileinfoFromFilename faults libs lstatSite openSite fs path out =
      MiniDropbox.fileinfoFromFilename faults libs lstatSite openSite fs' path out := by
  rw [MiniDropbox.fileinfoFromFilename, MiniDropbox.fileinfoFromFilename, fileChecksum, fileChecksum,
    same.lstat homeward, same.openRead homeward]

theorem fileExists {faults : Faults} (homeward : Homeward libs t path) :
    fileExists faults fs path = MiniDropbox.fileExists faults fs' path := by
  rw [MiniDropbox.fileExists, MiniDropbox.fileExists, same.openRead homeward]

/-- `rm_r` does the same where it has dealt with the entries of the directory alike. -/
theorem rmR_of_entries {faults : Faults} {n m : Nat} (below : Below path ((libs.uuidUnparse t ++ x) :: more))
    (entries : ∀ names, fs.opendir path = .ok names →
      SameTo libs t (names.foldl (fun fs name => (rmR faults n fs (snprintf PATH_MAX (path ++ slash :: name))).1) fs)
        (names.foldl (fun fs name => (rmR faults m fs (snprintf PATH_MAX (path ++ slash :: name))).1) fs')) :
    SameTo libs t (rmR faults (n + 1) fs path).1 (rmR faults (m + 1) fs' path).1 ∧
      (rmR faults (n + 1) fs path).2 = (rmR faults (m + 1) fs' path).2 := by
  rw [rmR, rmR, ← same.lstat below.homeward, ← same.opendir below]
  cases perform faults .rmLstat path (fs.lstat path) with
  | error errno => exact ⟨same, rfl⟩
  | ok node =>
      cases node with
      | dir =>
          cases opens : perform faults .rmOpendir path (fs.opendir path) with
          | error errno => exact ⟨same, rfl⟩
          | ok names =>
              have left := entries names (perform_ok opens)
              exact ((left.rmdir below).perform faults .rmRmdir path).leaving left
      | file bytes => exact ((same.unlink below).perform faults .rmUnlink path).leaving same
      | link target => exact ((same.unlink below).perform faults .rmUnlink path).leaving same

/-- `rm_r` does the same with any two bounds that are large enough. -/
theorem rmR {faults : Faults} {n m : Nat} (route : Route path ((libs.uuidUnparse t ++ x) :: more))
    (fits : Fits fs path (storagePlace ++ (libs.uuidUnparse t ++ x) :: more))
    (enough : ∀ below : Place, (∀ k < below.length,
        fs.get? (storagePlace ++ (libs.uuidUnparse t ++ x) :: more ++ below.take (k + 1)) ≠ none) →
      below.length ≤ n ∧ below.length ≤ m) :
    SameTo libs t (rmR faults (n + 1) fs path).1 (MiniDropbox.rmR faults (m + 1) fs' path).1 ∧
      (MiniDropbox.rmR faults (n + 1) fs path).2 = (MiniDropbox.rmR faults (m + 1) fs' path).2 := by
  induction n generalizing m fs fs' path more with
  | zero =>
      refine same.rmR_of_entries route.toBelow fun names opens => ?_
      obtain ⟨place, resolved, -, rfl⟩ := opendir_directory opens
      rw [route.place same.housed.links resolved]
      have empty : fs.names (storagePlace ++ (libs.uuidUnparse t ++ x) :: more) = [] := by
        refine List.eq_nil_iff_forall_not_mem.mpr fun name among => ?_
        have there := mem_names_iff_there.mp among
        exact absurd (enough [name] (by simpa using there)).1 (by simp)
      rw [empty]
      exact same
  | succ n ih =>
      refine same.rmR_of_entries route.toBelow fun names opens => ?_
      obtain ⟨place, resolved, -, rfl⟩ := opendir_directory opens
      rw [route.place same.housed.links resolved]
      refine (List.foldl_rel (r := fun tree tree' => SameTo libs t tree tree' ∧ ∀ q, tree.get? q ≠ none → fs.get? q ≠ none)
        ⟨same, fun q => id⟩ ?_).1
      rintro name among tree tree' ⟨related, shrunk⟩
      have there := mem_names_iff_there.mp among
      have proper := same.housed.names _ (List.prefix_append _ _) name among
      have short : (path ++ slash :: name).length < PATH_MAX := by simpa using fits [name] there
      have onward := route.down proper
      obtain ⟨k, rfl⟩ : ∃ k, m = k + 1 := Nat.exists_eq_add_one.mpr (enough [name] (by simpa using there)).2
      rw [snprintf_short short]
      have place : storagePlace ++ (libs.uuidUnparse t ++ x) :: (more ++ [name]) =
          storagePlace ++ (libs.uuidUnparse t ++ x) :: more ++ [name] := by simp
      have fits' : Fits tree (path ++ slash :: name) (storagePlace ++ (libs.uuidUnparse t ++ x) :: (more ++ [name])) := by
        rw [place]
        exact Fits.entry fun below left => fits below (shrunk _ left)
      obtain ⟨trees, -⟩ := @ih tree tree' (path ++ slash :: name) (more ++ [name]) related k onward fits' <| by
        intro below left
        rw [place] at left
        have deep := enough (name :: below) <| by
          rintro (_ | k) within
          · simpa using there
          · have next := shrunk _ (left k (Nat.lt_of_succ_lt_succ within))
            rwa [List.append_assoc, List.singleton_append, ← List.take_succ_cons] at next
        rw [List.length_cons] at deep
        omega
      refine ⟨trees, fun q left => shrunk q ?_⟩
      have comes : Comes ((libs.uuidUnparse t ++ x) :: (more ++ [name])) (path ++ slash :: name) :=
        ⟨[], .inl (by rw [List.append_nil]; exact onward)⟩
      exact there_of_removes (rmR_changes related.housed.toOrdinary comes) left

/-- So it does with the bounds of the two trees. -/
theorem rmR_depth {faults : Faults} (route : Route path ((libs.uuidUnparse t ++ x) :: more))
    (fits : Fits fs path (storagePlace ++ (libs.uuidUnparse t ++ x) :: more)) :
    SameTo libs t (MiniDropbox.rmR faults fs.depth fs path).1 (MiniDropbox.rmR faults fs'.depth fs' path).1 ∧
      (MiniDropbox.rmR faults fs.depth fs path).2 = (MiniDropbox.rmR faults fs'.depth fs' path).2 := by
  refine same.rmR route fits fun below there => ⟨length_le_nodes there, ?_⟩
  have there' : ∀ k < below.length,
      fs'.get? (storagePlace ++ (libs.uuidUnparse t ++ x) :: more ++ below.take (k + 1)) ≠ none := by
    intro k within
    rw [← same.get? (ours_stack.append _)]
    exact there k within
  exact length_le_nodes there'

end SameTo

end Calls

end MiniDropbox
