/-
Where a path leads when it meets no symbolic link.

The kernel then works the names of a path off one by one, as `Lexical.push` does
(`walk_lexical`). `Route` describes the paths the server hands to the kernel below
the storage directory: proper names, and at the end possibly a slash or, in a path cut
off by a buffer, one special name. `Route.place` bounds where such a path leads.
-/

import Mathlib.Data.List.TakeWhile
import MiniDropbox.Confinement

namespace MiniDropbox

open Lexical

/-! ### Walks -/

theorem push_dot {place : Place} : push [dot] [dot, dot] place [dot] = place := if_pos rfl

theorem push_dots {place : Place} : push [dot] [dot, dot] place [dot, dot] = place.dropLast := by
  rw [push, if_neg (by decide), if_pos rfl]

theorem push_name {place : Place} {name : CStr} (notDot : name ≠ [dot]) (notDots : name ≠ [dot, dot]) :
    push [dot] [dot, dot] place name = place ++ [name] := by
  rw [push, if_neg notDot, if_neg notDots]

/-- A walk has worked off the names of a path: none is longer than the kernel takes, and every
place on the way is a directory. -/
structure Lexically (fs : Fs) (place : Place) (names : List CStr) (q : Place) : Prop where
  ends : q = names.foldl (push [dot] [dot, dot]) place
  short : ∀ n ∈ names, n.length ≤ NAME_MAX
  way : ∀ front name rest, names = front ++ name :: rest → fs.get? (front.foldl (push [dot] [dot, dot]) place) = some .dir

theorem Lexically.nil {fs : Fs} {place : Place} : Lexically fs place [] place :=
  ⟨rfl, List.forall_mem_nil _, fun front name rest split => by cases front <;> cases split⟩

theorem Lexically.cons {fs : Fs} {place q : Place} {name : CStr} {rest : List CStr} (dir : fs.get? place = some .dir)
    (limit : name.length ≤ NAME_MAX) (later : Lexically fs (push [dot] [dot, dot] place name) rest q) :
    Lexically fs place (name :: rest) q := by
  refine ⟨later.ends, List.forall_mem_cons.mpr ⟨limit, later.short⟩, ?_⟩
  rintro (_ | ⟨first, front⟩) n more split
  · exact dir
  · obtain ⟨rfl, split'⟩ := List.cons.inj split
    exact later.way front n more split'

/-- Where no link is met, a walk works off the names of the path. -/
theorem walk_lexical {fs : Fs} {follow : Bool} {fuel links : Nat} {place q : Place} {names : List CStr}
    (linkless : ∀ front, front <+: names → ∀ target,
      fs.get? (front.foldl (push [dot] [dot, dot]) place) ≠ some (.link target))
    (found : fs.walk follow fuel links place names = .ok q) : Lexically fs place names q := by
  have tail : ∀ {p name rest}, (∀ front, front <+: name :: rest → ∀ target,
        fs.get? (front.foldl (push [dot] [dot, dot]) p) ≠ some (.link target)) →
      ∀ front, front <+: rest → ∀ target,
        fs.get? (front.foldl (push [dot] [dot, dot]) (push [dot] [dot, dot] p name)) ≠ some (.link target) :=
    fun linkless front within => linkless (_ :: front) (List.cons_prefix_cons.mpr ⟨rfl, within⟩)
  have walks := walks_of_walk found
  clear found
  induction walks with
  | arrived => exact .nil
  | here dir later ih =>
      have onward := tail linkless
      rw [push_dot] at onward
      exact .cons dir (by decide) (push_dot ▸ ih onward)
  | up dir later ih =>
      have onward := tail linkless
      rw [push_dots] at onward
      exact .cons dir (by decide) (push_dots ▸ ih onward)
  | missing dir notDot notDots limit there => exact .cons dir limit (push_name notDot notDots ▸ .nil)
  | down dir notDot notDots limit there plain later ih =>
      have onward := tail linkless
      rw [push_name notDot notDots] at onward
      exact .cons dir limit (push_name notDot notDots ▸ ih onward)
  | last dir notDot notDots limit there =>
      have next := tail linkless [] List.nil_prefix
      rw [push_name notDot notDots] at next
      exact absurd there (next _)
  | link dir notDot notDots limit there =>
      have next := tail linkless [] List.nil_prefix
      rw [push_name notDot notDots] at next
      exact absurd there (next _)

/-- Special names only shorten a stack. -/
theorem foldl_push_special {special stack : List CStr}
    (each : ∀ n ∈ special, n = [dot] ∨ n = [dot, dot]) :
    special.foldl (push [dot] [dot, dot]) stack <+: stack := by
  induction special generalizing stack with
  | nil => exact List.prefix_rfl
  | cons n special ih =>
      have rest : ∀ stack, special.foldl (push [dot] [dot, dot]) stack <+: stack :=
        fun stack => ih fun m hm => each m (List.mem_cons_of_mem _ hm)
      rcases each n List.mem_cons_self with rfl | rfl
      · exact rest stack
      · exact (rest stack.dropLast).trans (List.dropLast_prefix stack)

/-- A path below the storage directory, whose names end in special ones, leads where these
lead from the place of the others. -/
theorem LinkFree.resolve {fs : Fs} (free : LinkFree fs) {path : CStr} {stack special : List CStr}
    {follow : Bool} {q : Place} (absolute : path.head? = some slash)
    (names : trail path = storagePlace ++ stack ++ special) (proper : ∀ n ∈ stack, Proper n)
    (each : ∀ n ∈ special, n = [dot] ∨ n = [dot, dot]) (ok : fs.resolve follow path = .ok q) :
    q = special.foldl (push [dot] [dot, dot]) (storagePlace ++ stack) ∧
      (∀ n ∈ stack, n.length ≤ NAME_MAX) ∧
        (special ≠ [] → fs.get? (storagePlace ++ stack) = some .dir ∧ fs.get? storagePlace = some .dir) := by
  have storage : ∀ n ∈ storagePlace, n ≠ [dot] ∧ n ≠ [dot, dot] := by decide
  have plain : ∀ n ∈ storagePlace ++ stack, n ≠ [dot] ∧ n ≠ [dot, dot] := by
    intro n hn
    rcases List.mem_append.mp hn with inside | name
    · exact storage n inside
    · exact ⟨(proper n name).notDot, (proper n name).notDots⟩
  have pushed : ∀ front, front <+: storagePlace ++ stack →
      front.foldl (push [dot] [dot, dot]) [] = front := fun front within => by
    rw [foldl_push_of_plain fun n hn => plain n (within.subset hn), List.nil_append]
  have linkless : ∀ front, front <+: trail path → ∀ target,
      fs.get? (front.foldl (push [dot] [dot, dot]) []) ≠ some (.link target) := by
    intro front within target
    rw [names] at within
    rcases List.prefix_or_prefix_of_prefix within (List.prefix_append _ special) with inside | ⟨behind, rfl⟩
    · rw [pushed front inside]
      exact free.way inside target
    · have beside := (List.prefix_append_right_inj _).mp within
      rw [List.foldl_append, pushed _ List.prefix_rfl]
      exact free.way (foldl_push_special fun n hn => each n (beside.subset hn)) target
  have walked := walk_of_resolve ok
  rw [origin, if_pos absolute] at walked
  obtain ⟨rfl, short, way⟩ := walk_lexical linkless walked
  refine ⟨by rw [names, List.foldl_append, pushed _ List.prefix_rfl], fun n hn => short n ?_, ?_⟩
  · rw [names]
    simp [hn]
  · intro some
    obtain ⟨last, behind, cons⟩ := List.exists_cons_of_ne_nil some
    have all := way (storagePlace ++ stack) last behind (by rw [names, cons])
    rw [pushed _ List.prefix_rfl] at all
    obtain ⟨next, more, cons'⟩ := List.exists_cons_of_ne_nil
      (List.append_ne_nil_of_right_ne_nil stack (cons ▸ List.cons_ne_nil last behind : special ≠ []))
    have storage := way storagePlace next more (by rw [names, List.append_assoc, cons'])
    rw [pushed _ (List.prefix_append _ _)] at storage
    exact ⟨all, storage⟩

/-! ### The paths the server makes -/

theorem proper_of_mem_storagePlace {n : CStr} (mem : n ∈ storagePlace) : Proper n := by
  rcases List.mem_cons.mp mem with rfl | mem
  · exact ⟨⟨by decide, by decide⟩, by decide, by decide⟩
  · rw [List.mem_singleton.mp mem]
    exact ⟨⟨by decide, by decide⟩, by decide, by decide⟩

/-- A path of proper names below the storage directory. -/
structure Below (path : CStr) (stack : List CStr) : Prop where
  absolute : path.head? = some slash
  names : components path = storagePlace ++ stack
  proper : ∀ n ∈ stack, Proper n

/-- Such a path with at most one slash more than the names need. -/
structure Route (path : CStr) (stack : List CStr) : Prop extends Below path stack where
  length : path.length ≤ (joined slash (storagePlace ++ stack)).length + 1

/-- A path that fills its buffer and ends in a special name. -/
structure CutRoute (path : CStr) (stack : List CStr) : Prop where
  absolute : path.head? = some slash
  names : trail path = storagePlace ++ stack ++ [[dot]] ∨ trail path = storagePlace ++ stack ++ [[dot, dot]]
  proper : ∀ n ∈ stack, Proper n
  full : PATH_MAX - 1 ≤ path.length
  length : path.length ≤ (joined slash (storagePlace ++ stack)).length + 4

/-- A path of proper names leads to the place they say. -/
theorem Below.place {fs : Fs} (free : LinkFree fs) {path : CStr} {stack : List CStr} {follow : Bool}
    {q : Place} (route : Below path stack) (ok : fs.resolve follow path = .ok q) :
    q = storagePlace ++ stack := by
  obtain ⟨special, names, each, stays⟩ : ∃ special, trail path = storagePlace ++ stack ++ special ∧
      (∀ n ∈ special, n = [dot] ∨ n = [dot, dot]) ∧
        special.foldl (push [dot] [dot, dot]) (storagePlace ++ stack) = storagePlace ++ stack := by
    refine ⟨_, by rw [trail, route.names], ?_, ?_⟩
    · split_ifs <;> simp
    · split_ifs <;> rfl
  rw [(free.resolve route.absolute names route.proper each ok).1, stays]

/-- Names of the lengths the kernel takes make up only so long a path. -/
theorem length_joined_le {names : List CStr} (short : ∀ n ∈ names, n.length ≤ NAME_MAX) :
    (joined slash names).length ≤ (NAME_MAX + 1) * names.length := by
  induction names using List.reverseRecOn with
  | nil => exact Nat.zero_le _
  | append_singleton names name ih =>
      have rest := ih fun n hn => short n (List.mem_append_left _ hn)
      have last := short name (by simp)
      rw [joined_append, joined_singleton, List.length_append, List.length_append, List.length_cons,
        List.length_singleton, Nat.mul_add]
      omega

/-- A path that is cut off leads deep into the tree. -/
theorem CutRoute.place {fs : Fs} (free : LinkFree fs) {path : CStr} {stack : List CStr} {follow : Bool}
    {q : Place} (route : CutRoute path stack) (ok : fs.resolve follow path = .ok q) :
    q <+: storagePlace ++ stack ∧ 4 ≤ q.length := by
  obtain ⟨special, names, each, one⟩ : ∃ special, trail path = storagePlace ++ stack ++ [special] ∧
      (special = [dot] ∨ special = [dot, dot]) ∧
        (storagePlace ++ stack).length - 1 ≤ (push [dot] [dot, dot] (storagePlace ++ stack) special).length := by
    rcases route.names with here | up
    · exact ⟨_, here, .inl rfl, Nat.sub_le _ _⟩
    · exact ⟨_, up, .inr rfl, by rw [push, if_neg (by decide), if_pos rfl, List.length_dropLast]⟩
  have special : ∀ n ∈ [special], n = [dot] ∨ n = [dot, dot] := fun n hn => List.mem_singleton.mp hn ▸ each
  obtain ⟨rfl, short, -⟩ := free.resolve route.absolute names route.proper special ok
  refine ⟨foldl_push_special special, ?_⟩
  have bound := @length_joined_le (storagePlace ++ stack) fun n hn => by
    rcases List.mem_append.mp hn with storage | name
    · simp only [storagePlace, List.mem_cons, List.not_mem_nil, or_false] at storage
      rcases storage with rfl | rfl <;> decide
    · exact short n name
  have full := route.full
  have length := route.length
  rw [List.foldl_cons, List.foldl_nil]
  simp only [NAME_MAX, PATH_MAX] at bound full
  omega

/-- What is left of a proper name that is cut off is a proper name, a special one or
nothing. -/
theorem cut_name {name : CStr} (proper : Proper name) (k : Nat) :
    name.take k = [] ∨ name.take k = [dot] ∨ name.take k = [dot, dot] ∨ Proper (name.take k) := by
  by_cases empty : name.take k = []
  · exact .inl empty
  by_cases here : name.take k = [dot]
  · exact .inr (.inl here)
  by_cases up : name.take k = [dot, dot]
  · exact .inr (.inr (.inl up))
  exact .inr (.inr (.inr ⟨⟨empty, fun hit => proper.free (List.mem_of_mem_take hit)⟩, here, up⟩))

theorem trail_of_name {path name : CStr} (named : IsName slash name) :
    trail (path ++ slash :: name) = components path ++ [name] := by
  have last : (path ++ slash :: name).getLast? ≠ some slash := by
    obtain ⟨init, c, snoc⟩ := (List.eq_nil_or_concat name).resolve_left named.nonempty
    rw [List.concat_eq_append] at snoc
    rw [snoc, ← List.cons_append, ← List.append_assoc, List.getLast?_concat]
    intro ends
    exact named.free (by rw [snoc, ← Option.some.inj ends]; simp)
  rw [trail, if_neg last, List.append_nil, components, pieces_append, pieces_of_isName named]
  rfl

/-- Slashes at the end add no names. -/
theorem components_slashes (path : CStr) (k : Nat) :
    components (path ++ List.replicate k slash) = components path := by
  induction k with
  | zero => rw [List.replicate_zero, List.append_nil]
  | succ k ih =>
      rw [List.replicate_succ', ← List.append_assoc, components, pieces_append, pieces_nil, List.append_nil]
      exact ih

/-- Only slashes are left out at the end. -/
theorem trimSlashes_split (path : CStr) : ∃ k, path = trimSlashes path ++ List.replicate k slash := by
  unfold trimSlashes
  dsimp only
  split_ifs with empty
  · exact ⟨0, (List.append_nil path).symm⟩
  · have behind : path.reverse.takeWhile (· = slash) =
        List.replicate (path.reverse.takeWhile (· = slash)).length slash := by
      refine List.eq_replicate_of_mem fun c hc => ?_
      have each := List.all_eq_true.mp (List.all_takeWhile (l := path.reverse) (p := (· = slash))) c hc
      simpa using each
    refine ⟨(path.reverse.takeWhile (· = slash)).length, ?_⟩
    rw [← List.reverse_replicate, ← behind, ← List.reverse_append, List.takeWhile_append_dropWhile,
      List.reverse_reverse]

theorem components_trimSlashes (path : CStr) : components (trimSlashes path) = components path := by
  obtain ⟨k, split⟩ := trimSlashes_split path
  conv_rhs => rw [split, components_slashes]

theorem trimSlashes_ne_nil {path : CStr} (some : path ≠ []) : trimSlashes path ≠ [] := by
  unfold trimSlashes
  dsimp only
  split_ifs with empty
  · exact some
  · exact empty

theorem head?_trimSlashes {path : CStr} (some : path ≠ []) : (trimSlashes path).head? = path.head? := by
  obtain ⟨k, split⟩ := trimSlashes_split path
  conv_rhs => rw [split, List.head?_append_of_ne_nil _ (trimSlashes_ne_nil some)]

theorem length_trimSlashes_le (path : CStr) : (trimSlashes path).length ≤ path.length := by
  obtain ⟨k, split⟩ := trimSlashes_split path
  conv_rhs => rw [split, List.length_append]
  exact Nat.le_add_right _ _

/-- A path with names is left without a slash at the end. -/
theorem getLast?_trimSlashes {path : CStr} (named : components path ≠ []) : (trimSlashes path).getLast? ≠ some slash := by
  unfold trimSlashes
  dsimp only
  split_ifs with empty
  · rw [List.reverse_eq_nil_iff] at empty
    have only := components_slashes [] path.length
    have whole : path = List.replicate path.length slash := by
      refine List.eq_replicate_of_mem fun c hc => ?_
      simpa using List.dropWhile_eq_nil_iff.mp empty c (List.mem_reverse.mpr hc)
    rw [List.nil_append, ← whole] at only
    exact absurd only named
  · rw [List.getLast?_reverse]
    intro ends
    have other := List.head?_dropWhile_not (fun c : Byte => decide (c = slash)) path.reverse
    rw [ends] at other
    simp at other

theorem trimSlashes_of_last {path : CStr} (ends : path.getLast? ≠ some slash) : trimSlashes path = path := by
  obtain ⟨k, split⟩ := trimSlashes_split path
  cases k with
  | zero =>
      rw [List.replicate_zero, List.append_nil] at split
      exact split.symm
  | succ k =>
      rw [List.replicate_succ', ← List.append_assoc] at split
      refine absurd ?_ ends
      rw [split, List.getLast?_concat]

/-- A path without its trailing slashes has the same names. -/
theorem Below.trimmed {path : CStr} {stack : List CStr} (below : Below path stack) :
    Below (trimSlashes path) stack := by
  have some : path ≠ [] := by
    rintro rfl
    cases below.absolute
  exact ⟨(head?_trimSlashes some).trans below.absolute, (components_trimSlashes path).trans below.names, below.proper⟩

/-- The path of an entry, as `rm_r` makes it, goes on below the path of the directory,
unless it is cut off. -/
theorem Route.entry {path name : CStr} {stack : List CStr} (route : Route path stack)
    (short : path.length < PATH_MAX) (proper : Proper name) :
    (∃ more, Route (snprintf PATH_MAX (path ++ slash :: name)) (stack ++ more)) ∨
      CutRoute (snprintf PATH_MAX (path ++ slash :: name)) stack := by
  have absolute : ∀ behind, (path ++ behind).head? = some slash := fun behind => by
    rw [List.head?_append, route.absolute]
    rfl
  have length := route.length
  by_cases full : path.length = PATH_MAX - 1
  · have same : snprintf PATH_MAX (path ++ slash :: name) = path := by
      rw [snprintf, ← full, List.take_left]
    rw [same]
    exact .inl ⟨[], by rw [List.append_nil]; exact route⟩
  obtain ⟨k, room⟩ : ∃ k, PATH_MAX - 1 = path.length + (k + 1) := ⟨PATH_MAX - 2 - path.length, by omega⟩
  have shape : snprintf PATH_MAX (path ++ slash :: name) = path ++ slash :: name.take k := by
    rw [snprintf, room, List.take_length_add_append, List.take_succ_cons]
  have cut : name.take k ≠ name → PATH_MAX - 1 = (path ++ slash :: name.take k).length := by
    intro shorter
    have inside : k < name.length := Nat.lt_of_not_le fun long => shorter (List.take_of_length_le long)
    rw [List.length_append, List.length_cons, List.length_take_of_le (Nat.le_of_lt inside), room]
  rw [shape]
  rcases cut_name proper k with nothing | here | up | good
  · have full' := cut (nothing ▸ Ne.symm proper.nonempty)
    rw [nothing] at full' ⊢
    refine .inr ⟨absolute _, .inl ?_, route.proper, Nat.le_of_eq full', ?_⟩
    · rw [trail, if_pos (by simp), components, pieces_append, pieces_nil, List.append_nil,
        ← route.names]
      rfl
    · simp only [List.length_append, List.length_cons, List.length_nil]
      omega
  · have full' := cut (here ▸ Ne.symm proper.notDot)
    rw [here] at full' ⊢
    refine .inr ⟨absolute _, .inl ?_, route.proper, Nat.le_of_eq full', ?_⟩
    · rw [trail_of_name ⟨by decide, by decide⟩, route.names]
    · simp only [List.length_append, List.length_cons, List.length_nil]
      omega
  · have full' := cut (up ▸ Ne.symm proper.notDots)
    rw [up] at full' ⊢
    refine .inr ⟨absolute _, .inr ?_, route.proper, Nat.le_of_eq full', ?_⟩
    · rw [trail_of_name ⟨by decide, by decide⟩, route.names]
    · simp only [List.length_append, List.length_cons, List.length_nil]
      omega
  · refine .inl ⟨[name.take k], ⟨absolute _, ?_, ?_⟩, ?_⟩
    · rw [components, pieces_append, pieces_of_isName good.toIsName, ← List.append_assoc, ← route.names]
      rfl
    · intro n hn
      rcases List.mem_append.mp hn with old | new
      · exact route.proper n old
      · rw [List.mem_singleton.mp new]
        exact good
    · rw [← List.append_assoc, joined_append, joined_singleton]
      simp only [List.length_append, List.length_cons]
      omega

/-- A path that fills its buffer is the path of each of its entries. -/
theorem CutRoute.entry {path name : CStr} {stack : List CStr} (route : CutRoute path stack)
    (short : path.length < PATH_MAX) : snprintf PATH_MAX (path ++ slash :: name) = path := by
  have full : path.length = PATH_MAX - 1 := Nat.le_antisymm (Nat.le_pred_of_lt short) route.full
  rw [snprintf, ← full, List.take_left]

/-! ### The paths of a user -/

variable {libs : Externals} {token : Token} {raw path : CStr}

/-- A path that starts with the text of a user's root goes to the user's directory, or to
one beside it whose name starts with the token. -/
theorem components_root_append (libs : Externals) (token : Token) (rest : CStr) :
    ∃ x more, components (getUserRoot libs token ++ rest) =
      storagePlace ++ (libs.uuidUnparse token ++ x) :: more := by
  obtain ⟨x, more, named⟩ := pieces_name_append (isName_uuidUnparse libs token) rest
  have split : getUserRoot libs token ++ rest =
      joined slash storagePlace ++ slash :: (libs.uuidUnparse token ++ rest) := by
    rw [getUserRoot_joined]
    simp [userPlace, joined, storagePlace]
  have storage : ∀ n ∈ storagePlace, IsName slash n := fun n hn =>
    @isName_of_mem_userPlace libs token n (by simp [storagePlace, userPlace] at hn ⊢; tauto)
  exact ⟨x, more, by rw [split, components, pieces_append, pieces_joined storage, named]⟩

theorem append_of_starts (starts : path.take (getUserRoot libs token).length = getUserRoot libs token) :
    ∃ rest, path = getUserRoot libs token ++ rest :=
  ⟨_, by conv_lhs => rw [← List.take_append_drop (getUserRoot libs token).length path, starts]⟩

theorem getUserRoot_storage (libs : Externals) (token : Token) :
    getUserRoot libs token = joined slash storagePlace ++ slash :: libs.uuidUnparse token := by
  rw [getUserRoot_joined]
  simp [userPlace, joined, storagePlace]

theorem getUserRoot_absolute (libs : Externals) (token : Token) (rest : CStr) :
    (getUserRoot libs token ++ rest).head? = some slash := by
  rw [getUserRoot_joined]
  rfl

/-- A normalised path of this kind is a route. -/
theorem route_of_normalized (absolute : raw.head? = some slash)
    (starts : (normalizePath raw).take (getUserRoot libs token).length = getUserRoot libs token) :
    ∃ x more, Route (normalizePath raw) ((libs.uuidUnparse token ++ x) :: more) := by
  have writes := normalizePath_writes absolute
  have proper : ∀ n ∈ resolved (components raw), Proper n := fun n => proper_of_mem_resolved
  rw [← components_normalizePath absolute] at writes proper
  obtain ⟨rest, shape⟩ := append_of_starts starts
  obtain ⟨x, more, names⟩ := components_root_append libs token rest
  rw [← shape] at names
  rw [names] at writes proper
  refine ⟨x, more, ⟨?_, names, fun n hn => proper n (List.mem_append_right _ hn)⟩, ?_⟩
  · rw [shape]
    exact getUserRoot_absolute libs token rest
  · rcases writes with shape | ⟨-, shape⟩
    · rw [shape, List.length_append, List.length_singleton]
    · rw [shape]
      exact Nat.le_succ _

theorem absolute_of_root {size : Nat} (large : 2 ≤ size) (behind : CStr) :
    (snprintf size (getUserRoot libs token ++ slash :: behind)).head? = some slash := by
  obtain ⟨k, room⟩ : ∃ k, size - 1 = k + 1 := ⟨size - 2, by omega⟩
  rw [snprintf, room, getUserRoot_joined]
  rfl

theorem getUserPath_route (found : getUserPath libs raw token = some path) :
    ∃ x more, Route path ((libs.uuidUnparse token ++ x) :: more) := by
  simp only [getUserPath] at found
  split_ifs at found with starts
  cases found
  exact route_of_normalized (absolute_of_root (by decide) raw) starts

/-- The root itself. -/
theorem getUserRoot_route (libs : Externals) (token : Token) :
    Route (getUserRoot libs token) [libs.uuidUnparse token] := by
  have names : components (getUserRoot libs token) = userPlace libs token := by
    rw [getUserRoot_joined]
    exact pieces_joined fun _ => isName_of_mem_userPlace
  refine ⟨⟨by rw [getUserRoot_joined]; rfl, names, ?_⟩, ?_⟩
  · intro n hn
    rw [List.mem_singleton.mp hn]
    obtain ⟨notDot, notDots⟩ := @plain_of_mem_userPlace libs token (libs.uuidUnparse token) (by simp [userPlace])
    exact ⟨isName_uuidUnparse libs token, notDot, notDots⟩
  · rw [getUserRoot_joined]
    exact Nat.le_succ _

end MiniDropbox
