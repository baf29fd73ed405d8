/-
The server as a box of users and a tree store.

A box knows tokens and keeps one store for them all. `register`, `mkdir` and `remove` are the
questions it answers, with the paths resolved by their names alone. The server answers its one-shot
requests as the box does, message by message (`Refines.serve`) and in whole runs (`serves_box`),
as long as no call is made to fail and the paths are short enough for the buffers.
-/

import MiniDropbox.Store
import MiniDropbox.Independence
import MiniDropbox.Truncation

namespace MiniDropbox

open Lexical TreeStore

/-! ### Boxes -/

structure Box where
  store : Store CStr (List Byte)
  known : Token → Prop

/-- What a user asks; `none` is a path that does not arrive. -/
inductive Ask where
  | register
  | mkdir (path : Option CStr)
  | remove (path : Option CStr)
  deriving DecidableEq

def Ask.path : Ask → Option CStr
  | .register => none
  | .mkdir path | .remove path => path

inductive Answer where
  | done | already | unknown | invalid | refused | silent
  deriving DecidableEq

namespace Box

def empty : Box := ⟨TreeStore.empty, fun _ => False⟩

/-- The place in the store that a path of a user stands for: the name of a directory, which begins with the
token, and what comes behind it. -/
def target (libs : Externals) (token : Token) (raw : CStr) : Option (CStr × List CStr) :=
  match wholeNames libs token raw with
  | v :: m :: top :: more => if [v, m] = storagePlace ∧ libs.uuidUnparse token <+: top then some (top, more) else none
  | _ => none

/-- The path ends in a name that leads upwards. -/
abbrev Slashed (libs : Externals) (token : Token) (raw : CStr) : Prop := EndsUp (getUserRoot libs token ++ slash :: raw)

open Classical in
/-- One question. -/
noncomputable def serve (libs : Externals) (box : Box) (token : Token) : Ask → Box × Answer
  | .register =>
      let (store, outcome) := make box.store [] (libs.uuidUnparse token) ShortName
      (⟨store, fun t => box.known t ∨ t = token⟩,
        match outcome with
        | .made => .done
        | .found => .already
        | .refused => .refused)
  | .mkdir path =>
      if ¬ box.known token then (box, .unknown)
      else match path with
        | none => (box, .silent)
        | some raw =>
            match target libs token raw with
            | none => (box, .invalid)
            | some (top, more) =>
                let (store, whole) := makeWay box.store top more (Slashed libs token raw)
                ({ box with store := store }, if whole then .done else .refused)
  | .remove path =>
      if ¬ box.known token then (box, .unknown)
      else match path with
        | none => (box, .silent)
        | some raw =>
            match target libs token raw with
            | none => (box, .invalid)
            | some (top, more) =>
                let (store, gone) := takeAway box.store (top :: more) (Slashed libs token raw)
                ({ box with store := store }, if gone then .done else .refused)

/-- Who is not known can only register. -/
theorem mkdir_unknown {libs : Externals} {box : Box} {token : Token} {path : Option CStr} (unknown : ¬ box.known token) :
    box.serve libs token (.mkdir path) = (box, .unknown) := if_pos unknown

theorem remove_unknown {libs : Externals} {box : Box} {token : Token} {path : Option CStr} (unknown : ¬ box.known token) :
    box.serve libs token (.remove path) = (box, .unknown) := if_pos unknown

/-- What a question does to a box. -/
theorem serve_cases (libs : Externals) (box : Box) (token : Token) (ask : Ask) :
    (ask = .register ∧ (box.serve libs token ask).1 =
      ⟨(make box.store [] (libs.uuidUnparse token) ShortName).1, fun t => box.known t ∨ t = token⟩) ∨
    (box.serve libs token ask).1 = box ∨
    (∃ raw top more, ask = .mkdir (some raw) ∧ box.known token ∧ target libs token raw = some (top, more) ∧
      (box.serve libs token ask).1 = { box with store := (makeWay box.store top more (Slashed libs token raw)).1 }) ∨
    (∃ raw top more, ask = .remove (some raw) ∧ box.known token ∧ target libs token raw = some (top, more) ∧
      (box.serve libs token ask).1 = { box with store := (takeAway box.store (top :: more) (Slashed libs token raw)).1 }) := by
  cases ask with
  | register => exact .inl ⟨rfl, rfl⟩
  | mkdir path =>
      by_cases known : box.known token
      · cases path with
        | none => exact .inr (.inl (by simp only [serve, known, not_true_eq_false, if_false]))
        | some raw =>
            cases aimed : target libs token raw with
            | none => exact .inr (.inl (by simp only [serve, known, aimed, not_true_eq_false, if_false]))
            | some place =>
                refine .inr (.inr (.inl ⟨raw, place.1, place.2, rfl, known, aimed, ?_⟩))
                simp only [serve, known, aimed, not_true_eq_false, if_false]
      · exact .inr (.inl (by rw [mkdir_unknown known]))
  | remove path =>
      by_cases known : box.known token
      · cases path with
        | none => exact .inr (.inl (by simp only [serve, known, not_true_eq_false, if_false]))
        | some raw =>
            cases aimed : target libs token raw with
            | none => exact .inr (.inl (by simp only [serve, known, aimed, not_true_eq_false, if_false]))
            | some place =>
                refine .inr (.inr (.inr ⟨raw, place.1, place.2, rfl, known, aimed, ?_⟩))
                simp only [serve, known, aimed, not_true_eq_false, if_false]
      · exact .inr (.inl (by rw [remove_unknown known]))

/-- Questions one after the other: the box afterwards, and the answers. -/
noncomputable def serveAll (libs : Externals) (box : Box) : List (Token × Ask) → Box × List Answer
  | [] => (box, [])
  | (token, ask) :: later =>
      let (box, answer) := box.serve libs token ask
      let (box, answers) := serveAll libs box later
      (box, answer :: answers)

end Box

/-! ### Messages as questions -/

/-- The path in a one-shot request, as the handler reads it. -/
def Request.raw (r : Request) : Option CStr :=
  (recvOneshot r.sock r.hdr.length (some 8192)).1.map fun bytes => cString (bytes ++ r.env.tail)

def Request.ask (r : Request) : Option Ask :=
  match dispatch r.hdr with
  | .accept .authReq => some .register
  | .accept .mkdirReq => some (.mkdir r.raw)
  | .accept .removeReq => some (.remove r.raw)
  | _ => none

/-- What a client is told. -/
def answerOf : List Event → Answer
  | [.sent .authFail _] => .already
  | [.sent .error text] =>
      if text = cstr "user not found" ++ [0] then .unknown
      else if text = cstr "invalid path" ++ [0] then .invalid
      else .refused
  | [.sent _ _] => .done
  | _ => .silent

/-- A one-shot request whose path fits the buffers, in a world where no call is made to fail. -/
structure Plain (libs : Externals) (r : Request) : Prop where
  asks : r.ask ≠ none
  works : ∀ site path, r.env.faults site path = none
  fresh : r.env.fresh = none
  fits : ∀ raw, r.ask.bind Ask.path = some raw → (getUserRoot libs r.hdr.token ++ slash :: raw).length + 1 < PATH_MAX

/-- The server knows the users of a box, and its storage directory mirrors the store. -/
structure Refines (server : Server) (box : Box) : Prop where
  mirrors : Mirrors server.fs box.store
  users : ∃ tokens, Registry server.uman tokens ∧ ∀ t, box.known t ↔ t ∈ tokens

/-! ### Paths -/

section Paths

variable {libs : Externals} {token : Token} {raw path : CStr} {top : CStr} {more : List CStr}

theorem Box.target_iff : Box.target libs token raw = some (top, more) ↔
    ∃ x, top = libs.uuidUnparse token ++ x ∧ wholeNames libs token raw = storagePlace ++ top :: more := by
  constructor
  · intro aimed
    unfold Box.target at aimed
    split at aimed
    · next v m top' more' names =>
        split_ifs at aimed with inside
        cases aimed
        obtain ⟨storage, x, same⟩ := inside
        refine ⟨x, same.symm, ?_⟩
        rw [names, ← storage]
        rfl
    · cases aimed
  · rintro ⟨x, rfl, names⟩
    unfold Box.target
    rw [names]
    exact if_pos ⟨rfl, List.prefix_append _ _⟩

variable (fits : (getUserRoot libs token ++ slash :: raw).length + 1 < PATH_MAX)

include fits

theorem snprintf_whole : snprintf (PATH_MAX * 2) (getUserRoot libs token ++ slash :: raw) = getUserRoot libs token ++ slash :: raw :=
  List.take_of_length_le (by unfold PATH_MAX at *; omega)

theorem bufferNames_whole : bufferNames libs token raw = wholeNames libs token raw := by
  rw [bufferNames, snprintf_whole fits, wholeNames]

/-- The normalised path ends in a slash only behind a name that leads upwards. -/
theorem normalized_whole (named : wholeNames libs token raw ≠ []) :
    normalizePath (getUserRoot libs token ++ slash :: raw) =
        joined slash (wholeNames libs token raw) ++ (if Box.Slashed libs token raw then [slash] else []) ∧
      (normalizePath (getUserRoot libs token ++ slash :: raw)).length < PATH_MAX := by
  have shape : normalizePath (getUserRoot libs token ++ slash :: raw) =
      joined slash (wholeNames libs token raw) ++ (if Box.Slashed libs token raw then [slash] else []) := by
    rw [normalizePath_shape (isRoot_getUserRoot libs token).below]
    exact congrArg _ (if_congr (or_iff_right named) rfl rfl)
  have names : (joined slash (wholeNames libs token raw)).length ≤ (getUserRoot libs token ++ slash :: raw).length :=
    length_joined_target (isRoot_getUserRoot libs token)
  refine ⟨shape, ?_⟩
  rw [shape, List.length_append]
  split_ifs
  · exact Nat.lt_of_le_of_lt (Nat.add_le_add_right names 1) fits
  · exact Nat.lt_of_le_of_lt names (Nat.lt_of_succ_lt fits)

/-- A path of a user is let through exactly if it has a place in the store. -/
theorem getUserPath_isSome_iff : (getUserPath libs raw token).isSome ↔ (Box.target libs token raw).isSome := by
  rw [getUserPath_iff, bufferNames_whole fits]
  constructor
  · rintro ⟨x, more, names⟩
    rw [Box.target_iff.mpr ⟨x, rfl, names⟩]
    rfl
  · intro aimed
    obtain ⟨⟨top, more⟩, aimed⟩ := Option.isSome_iff_exists.mp aimed
    obtain ⟨x, rfl, names⟩ := Box.target_iff.mp aimed
    exact ⟨x, more, names⟩

/-- Where it leads then. -/
theorem getUserPath_target (found : getUserPath libs raw token = some path) (aimed : Box.target libs token raw = some (top, more)) :
    Route path (top :: more) ∧ path.length < PATH_MAX ∧ (path.getLast? = some slash ↔ Box.Slashed libs token raw) := by
  obtain ⟨x, rfl, names⟩ := Box.target_iff.mp aimed
  obtain ⟨x', more', route⟩ := getUserPath_route found
  have place : storagePlace ++ (libs.uuidUnparse token ++ x') :: more' = storagePlace ++ (libs.uuidUnparse token ++ x) :: more := by
    rw [← route.names, components_getUserPath found, bufferNames_whole fits, names]
  rw [List.append_cancel_left place] at route
  have named : wholeNames libs token raw ≠ [] := by
    rw [names]
    exact storage_ne_nil
  obtain ⟨shape, short⟩ := normalized_whole fits named
  have here : path = normalizePath (getUserRoot libs token ++ slash :: raw) := by
    simp only [getUserPath, snprintf_whole fits] at found
    split_ifs at found
    exact (Option.some.inj found).symm
  rw [here]
  refine ⟨here ▸ route, short, ?_⟩
  rw [shape, names]
  split_ifs with upwards
  · simp [upwards]
  · rw [List.append_nil]
    refine ⟨fun last => absurd last (getLast?_joined ?_), fun up => absurd up upwards⟩
    rw [← route.names]
    exact fun n among => isName_of_mem_pieces among

end Paths

/-! ### One message -/

section Messages

variable {libs : Externals} {server : Server} {box : Box} {r : Request} {env : Env} {hdr : MessageHdr} {ask : Ask} {raw : CStr}
  {addr : Nat}

theorem strerror_refused (errno : Errno) : answerOf [sendError (strerror errno)] = .refused := by
  cases errno <;> decide

/-- What comes of a registration when no call is made to fail. -/
theorem handleAuth_works {after : UserManager} (works : ∀ site path, env.faults site path = none) (fresh : env.fresh = none)
    (registered : umanRegisterUser none server.uman hdr.token = some after) :
    handleAuth libs env server hdr = some (match server.fs.mkdir (getUserRoot libs hdr.token) with
      | .error errno => (⟨server.fs, after⟩,
          [.sent .authFail ((if errno = .EEXIST then cstr "Already registered" else strerror errno) ++ [0])])
      | .ok fs => (⟨fs, after⟩, [.sent .authOk (cstr "Registered" ++ [0, 0])])) := by
  simp only [handleAuth, fresh, registered, perform_none (works _ _), Option.bind_eq_bind, Option.bind_some, getUserRoot]
  cases server.fs.mkdir (snprintf PATH_MAX (STORAGE_DIR ++ slash :: libs.uuidUnparse hdr.token)) with
  | ok fs => rfl
  | error errno => rfl

/-- The directory of a user is made, or found. -/
theorem Refines.userDirectory {token : Token} (refines : Refines server box) :
    match make box.store [] (libs.uuidUnparse token) ShortName with
    | (store, .made) => ∃ fs, server.fs.mkdir (getUserRoot libs token) = .ok fs ∧ Mirrors fs store
    | (store, .found) => store = box.store ∧ server.fs.mkdir (getUserRoot libs token) = .error .EEXIST
    | (_, .refused) => False := by
  have names : joined slash (storagePlace ++ ([] ++ [libs.uuidUnparse token])) = getUserRoot libs token :=
    (getUserRoot_joined libs token).symm
  have clean : 0 ∉ libs.uuidUnparse token := by
    intro zero
    apply zero_not_mem_root libs token
    rw [getUserRoot_storage]
    exact List.mem_append_right _ (List.mem_cons_of_mem _ zero)
  have fits : (joined slash (storagePlace ++ ([] ++ [libs.uuidUnparse token]))).length + 1 < PATH_MAX := by
    rw [names, length_getUserRoot]
    decide
  have trimmed : trimSlashes (getUserRoot libs token) = joined slash (storagePlace ++ ([] ++ [libs.uuidUnparse token])) := by
    rw [names]
    apply trimSlashes_of_last
    rw [getUserRoot_joined]
    exact getLast?_joined fun n among => isName_of_mem_userPlace among
  have called := refines.mirrors.mkdir (getUserRoot_route libs token).proper clean fits trimmed
  cases outcome : make box.store [] (libs.uuidUnparse token) ShortName with
  | mk store result =>
      rw [outcome] at called
      cases result with
      | made => exact called
      | found => exact called
      | refused =>
          have short : ShortName (libs.uuidUnparse token) := by
            rw [ShortName, libs.length_uuidUnparse]
            decide
          exact make_ne_refused box.store.root short outcome

variable (refines : Refines server box) (works : ∀ site path, env.faults site path = none)

include refines works

/-- A registration makes the directory of the user, unless it is there. -/
theorem Refines.register (fresh : env.fresh = none) :
    ∃ next reply, handleAuth libs env server hdr = some (next, [reply]) ∧
      Refines next (box.serve libs hdr.token .register).1 ∧
      ((box.serve libs hdr.token .register).2 = .done ∧ reply = .sent .authOk (cstr "Registered" ++ [0, 0]) ∨
        (box.serve libs hdr.token .register).2 = .already ∧ reply = .sent .authFail (cstr "Already registered" ++ [0])) := by
  obtain ⟨tokens, registry, users⟩ := refines.users
  obtain ⟨after, registered, kept⟩ := registry.register hdr.token
  have known : ∀ t, box.known t ∨ t = hdr.token ↔ t ∈ tokens ++ [hdr.token] := by
    intro t
    rw [List.mem_append, List.mem_singleton, users]
  have called := @Refines.userDirectory libs server box hdr.token refines
  rw [handleAuth_works works fresh registered]
  unfold Box.serve
  cases outcome : make box.store [] (libs.uuidUnparse hdr.token) ShortName with
  | mk store result =>
      rw [outcome] at called
      cases result with
      | made =>
          obtain ⟨fs, ok, mirrors⟩ := called
          rw [ok]
          exact ⟨_, _, rfl, ⟨mirrors, _, kept, known⟩, .inl ⟨rfl, rfl⟩⟩
      | found =>
          obtain ⟨rfl, there⟩ := called
          rw [there]
          exact ⟨_, _, rfl, ⟨refines.mirrors, _, kept, known⟩, .inr ⟨rfl, rfl⟩⟩
      | refused => exact called.elim

/-- Directories are made along the names of the path. -/
theorem Refines.makeDirectories {bytes : List Byte} (behind : raw = cString (bytes ++ env.tail))
    (fits : (getUserRoot libs hdr.token ++ slash :: raw).length + 1 < PATH_MAX) (known : box.known hdr.token) :
    answerOf (handleMkdir libs env server (some addr) hdr (some bytes)).2 = (box.serve libs hdr.token (.mkdir (some raw))).2 ∧
      Refines (handleMkdir libs env server (some addr) hdr (some bytes)).1 (box.serve libs hdr.token (.mkdir (some raw))).1 := by
  have free : 0 ∉ raw := by
    rw [behind]
    exact zero_not_mem_cString _
  have isRoot := isRoot_getUserRoot libs hdr.token
  have whole := snprintf_fits (Nat.lt_of_succ_lt fits)
  simp only [handleMkdir, ← behind, Box.serve, known, not_true_eq_false, if_false]
  rw [createDirectoriesFromPath_eq, whole]
  cases aimed : Box.target libs hdr.token raw with
  | none =>
      have outside : (normalizePath (getUserRoot libs hdr.token ++ slash :: raw)).take (getUserRoot libs hdr.token).length ≠
          getUserRoot libs hdr.token := by
        intro starts
        have found : (getUserPath libs raw hdr.token).isSome := by
          simp only [getUserPath, snprintf_whole fits, if_pos starts]
          rfl
        rw [getUserPath_isSome_iff fits, aimed] at found
        cases found
      rw [if_neg outside]
      exact ⟨rfl, refines⟩
  | some place =>
      obtain ⟨top, more⟩ := place
      have starts : (normalizePath (getUserRoot libs hdr.token ++ slash :: raw)).take (getUserRoot libs hdr.token).length =
          getUserRoot libs hdr.token := by
        have found := (getUserPath_isSome_iff fits).mpr (Option.isSome_iff_exists.mpr ⟨_, aimed⟩)
        simp only [getUserPath, snprintf_whole fits] at found
        by_contra outside
        rw [if_neg outside] at found
        cases found
      obtain ⟨-, -, names⟩ := Box.target_iff.mp aimed
      obtain ⟨x, more', names', calls⟩ := mkdirPaths_user free whole.symm starts
      rw [wholeNames, names'] at names
      obtain ⟨rfl, rfl⟩ := List.cons.inj (List.append_cancel_left names)
      have proper : ∀ n ∈ (libs.uuidUnparse hdr.token ++ x) :: more', Proper n ∧ 0 ∉ n := by
        intro n among
        have inside : n ∈ resolved (components (getUserRoot libs hdr.token ++ slash :: raw)) := by
          rw [names']
          exact List.mem_append_right _ among
        refine ⟨proper_of_mem_resolved inside, fun zero => ?_⟩
        rcases List.mem_append.mp (mem_of_mem_pieces ((resolve_sublist _).subset inside) zero) with root | behind
        · exact zero_not_mem_root libs hdr.token root
        · rcases List.mem_cons.mp behind with same | letter
          · exact absurd same (by decide)
          · exact free letter
      have short : (joined slash (storagePlace ++ (libs.uuidUnparse hdr.token ++ x) :: more')).length + 1 < PATH_MAX := by
        rw [← names']
        exact Nat.lt_of_le_of_lt (Nat.add_le_add_right (length_joined_target isRoot) 1) fits
      have tail : (if resolved (components (getUserRoot libs hdr.token ++ slash :: raw)) = [] ∨
            EndsUp (getUserRoot libs hdr.token ++ slash :: raw) then [slash] else ([] : CStr)) =
          if Box.Slashed libs hdr.token raw then [slash] else [] := by
        apply if_congr (or_iff_right _) rfl rfl
        rw [names']
        exact storage_ne_nil
      have tails : (if Box.Slashed libs hdr.token raw then [slash] else ([] : CStr)) = [] ∨
          (if Box.Slashed libs hdr.token raw then [slash] else ([] : CStr)) = [slash] := by
        split_ifs
        · exact .inr rfl
        · exact .inl rfl
      have along := refines.mirrors.makeWay (fun dir => works .mkdir dir) proper short tails
      have slashed : ((if Box.Slashed libs hdr.token raw then [slash] else ([] : CStr)) = [slash]) ↔ Box.Slashed libs hdr.token raw := by
        split_ifs with upwards <;> simp [upwards]
      rw [if_pos starts, calls, tail]
      rw [makeWay_congr slashed] at along
      dsimp only
      generalize mkdirAll env.faults server.fs _ = ended at along ⊢
      generalize makeWay box.store (libs.uuidUnparse hdr.token ++ x) more' (Box.Slashed libs hdr.token raw) = reached at along ⊢
      obtain ⟨fs, result⟩ := ended
      obtain ⟨store, whole⟩ := reached
      cases result with
      | ok done =>
          have all : whole = true := along.2.mp rfl
          subst all
          exact ⟨rfl, along.1, refines.users⟩
      | error errno =>
          have cut : whole = false := by
            cases whole with
            | false => rfl
            | true => cases along.2.mpr rfl
          subst cut
          exact ⟨strerror_refused errno, along.1, refines.users⟩

omit refines in
/-- A removal is given up before `rm_r` exactly if there is nothing to remove. -/
theorem fileinfo_fails_iff {fs : Fs} {path : CStr} :
    ((fileinfoFromFilename env.faults libs .infoLstat .infoOpen fs path FileInfo.zero).1 < 0 ∧
        (fileinfoFromFilename env.faults libs .infoLstat .infoOpen fs path FileInfo.zero).1 ≠ -2) ↔
      ∃ errno, fs.lstat path = .error errno := by
  simp only [fileinfoFromFilename, fileChecksum, perform_none (works _ _)]
  cases found : fs.lstat path with
  | error errno => exact ⟨fun _ => ⟨errno, rfl⟩, fun _ => ⟨by norm_num, by norm_num⟩⟩
  | ok node =>
      constructor
      · intro given
        cases node with
        | file bytes =>
            simp only [openRead_of_lstat found] at given
            exact absurd given.1 (lt_irrefl 0)
        | dir => exact absurd rfl given.2
        | link target => exact absurd rfl given.2
      · rintro ⟨errno, error⟩
        cases error

/-- What the path leads to is taken away. -/
theorem Refines.takeEntry {bytes : List Byte} (behind : raw = cString (bytes ++ env.tail))
    (fits : (getUserRoot libs hdr.token ++ slash :: raw).length + 1 < PATH_MAX) (known : box.known hdr.token) :
    answerOf (handleRemove libs env server (some addr) hdr (some bytes)).2 = (box.serve libs hdr.token (.remove (some raw))).2 ∧
      Refines (handleRemove libs env server (some addr) hdr (some bytes)).1 (box.serve libs hdr.token (.remove (some raw))).1 := by
  have unfailing : Unfailing env.faults := ⟨works _, works _, works _, works _⟩
  simp only [handleRemove, ← behind, Box.serve, known, not_true_eq_false, if_false]
  cases found : getUserPath libs raw hdr.token with
  | none =>
      cases aimed : Box.target libs hdr.token raw with
      | none => exact ⟨rfl, refines⟩
      | some place =>
          have let_through := (getUserPath_isSome_iff fits).mpr (Option.isSome_iff_exists.mpr ⟨_, aimed⟩)
          rw [found] at let_through
          cases let_through
  | some path =>
      obtain ⟨⟨top, more⟩, aimed⟩ := Option.isSome_iff_exists.mp ((getUserPath_isSome_iff fits).mp (Option.isSome_iff_exists.mpr ⟨_, found⟩))
      obtain ⟨route, short, slashed⟩ := getUserPath_target fits found aimed
      have taken := refines.mirrors.rmR unfailing route (List.cons_ne_nil _ _) short
      rw [takeAway_congr slashed] at taken
      rw [aimed]
      dsimp only
      generalize takeAway box.store (top :: more) (Box.Slashed libs hdr.token raw) = reached at taken ⊢
      obtain ⟨store, gone⟩ := reached
      by_cases given : ∃ errno, server.fs.lstat path = .error errno
      · rw [if_pos ((fileinfo_fails_iff works).mpr given)]
        obtain ⟨errno, missing⟩ := given
        obtain ⟨same, failed⟩ := rmR_unstatted missing
        rw [same] at taken
        have left : gone = false := by
          cases gone with
          | false => rfl
          | true => exact absurd (taken.2.mpr rfl) failed
        subst left
        exact ⟨rfl, taken.1, refines.users⟩
      · rw [if_neg fun both => given ((fileinfo_fails_iff works).mp both)]
        generalize rmR env.faults server.fs.depth server.fs path = ended at taken ⊢
        obtain ⟨fs, result⟩ := ended
        cases result with
        | ok done =>
            have all : gone = true := taken.2.mp rfl
            subst all
            exact ⟨rfl, taken.1, refines.users⟩
        | error errno =>
            have left : gone = false := by
              cases gone with
              | false => rfl
              | true => cases taken.2.mpr rfl
            subst left
            exact ⟨strerror_refused errno, taken.1, refines.users⟩

end Messages

section Runs

variable {libs : Externals} {server : Server} {box : Box} {r : Request} {ask : Ask} {type : MessageType} {user : Option Nat}

/-- A one-shot request that its handler returns from. -/
theorem serve_oneshot (dispatched : dispatch r.hdr = .accept type) (oneshot : type.kind = .oneshot)
    (looked : umanGetUser server.uman r.hdr.token = some user) {handled : Server × List Event}
    (returned : onOneshotReq libs r.env server user r.hdr type (recvOneshot r.sock r.hdr.length (payloadLimit type user)).1 =
      some handled) :
    (r.serve libs server).status = .kept ∧ (r.serve libs server).events = handled.2 ∧ (r.serve libs server).server = handled.1 := by
  simp only [Request.serve, onClientMessageReceived, dispatched, looked, oneshot, returned, and_self]

/-- One message: the server goes on, gives the answer of the box, and still is as the box. -/
theorem Refines.serve (refines : Refines server box) (plain : Plain libs r) (asked : r.ask = some ask) :
    (r.serve libs server).status = .kept ∧
      answerOf (r.serve libs server).events = (box.serve libs r.hdr.token ask).2 ∧
      Refines (r.serve libs server).server (box.serve libs r.hdr.token ask).1 := by
  obtain ⟨tokens, registry, users⟩ := refines.users
  obtain ⟨user, looked, known⟩ : ∃ user, umanGetUser server.uman r.hdr.token = some user ∧ (box.known r.hdr.token ↔ user.isSome) := by
    by_cases listed : r.hdr.token ∈ tokens
    · obtain ⟨addr, -, found, -⟩ := registry.lookup_of_mem listed
      exact ⟨_, found, iff_of_true ((users _).mpr listed) rfl⟩
    · exact ⟨_, registry.lookup_of_not_mem listed, iff_of_false (fun known => listed ((users _).mp known)) Bool.false_ne_true⟩
  have fits : ∀ bytes, (recvOneshot r.sock r.hdr.length (some 8192)).1 = some bytes → ask.path = r.raw →
      (getUserRoot libs r.hdr.token ++ slash :: cString (bytes ++ r.env.tail)).length + 1 < PATH_MAX :=
    fun bytes received path => plain.fits _ (by rw [asked, Option.bind_some, path, Request.raw, received, Option.map_some])
  cases dispatched : dispatch r.hdr with
  | abort => simp [Request.ask, dispatched] at asked
  | refuse => simp [Request.ask, dispatched] at asked
  | accept type =>
      cases type with
      | authReq =>
          simp only [Request.ask, dispatched, Option.some.injEq] at asked
          subst asked
          obtain ⟨next, reply, handled, kept, answered⟩ := @Refines.register libs server box r.env r.hdr refines plain.works plain.fresh
          rw [serve_auth_eq dispatched looked handled]
          refine ⟨rfl, ?_, kept⟩
          rcases answered with ⟨answer, rfl⟩ | ⟨answer, rfl⟩
          · rw [answer]
            rfl
          · rw [answer]
            rfl
      | mkdirReq =>
          simp only [Request.ask, dispatched, Option.some.injEq] at asked
          subst asked
          obtain ⟨status, events, state⟩ := @serve_oneshot libs server r .mkdirReq user dispatched rfl looked _ rfl
          rw [status, events, state]
          refine ⟨rfl, ?_⟩
          cases user with
          | none =>
              rw [Box.mkdir_unknown fun is => Bool.false_ne_true (known.mp is)]
              exact ⟨rfl, refines⟩
          | some addr =>
              have knows := known.mpr rfl
              simp only [payloadLimit, Request.raw]
              cases received : (recvOneshot r.sock r.hdr.length (some 8192)).1 with
              | none =>
                  simp only [Option.map_none, Box.serve, knows, not_true_eq_false, if_false]
                  exact ⟨rfl, refines⟩
              | some bytes => exact refines.makeDirectories plain.works rfl (fits bytes received rfl) knows
      | removeReq =>
          simp only [Request.ask, dispatched, Option.some.injEq] at asked
          subst asked
          obtain ⟨status, events, state⟩ := @serve_oneshot libs server r .removeReq user dispatched rfl looked _ rfl
          rw [status, events, state]
          refine ⟨rfl, ?_⟩
          cases user with
          | none =>
              rw [Box.remove_unknown fun is => Bool.false_ne_true (known.mp is)]
              exact ⟨rfl, refines⟩
          | some addr =>
              have knows := known.mpr rfl
              simp only [payloadLimit, Request.raw]
              cases received : (recvOneshot r.sock r.hdr.length (some 8192)).1 with
              | none =>
                  simp only [Option.map_none, Box.serve, knows, not_true_eq_false, if_false]
                  exact ⟨rfl, refines⟩
              | some bytes => exact refines.takeEntry plain.works rfl (fits bytes received rfl) knows
      | _ => simp [Request.ask, dispatched] at asked

/-- A short path, in a world that is as it should be. -/
theorem plain_of_short (calm : r.env = default) (asks : r.ask.isSome) (short : r.raw.all (·.length ≤ 3) = true) : Plain libs r where
  asks := Option.isSome_iff_ne_none.mp asks
  works site path := by
    rw [calm]
    rfl
  fresh := by
    rw [calm]
    rfl
  fits raw read := by
    have same : r.raw = some raw := by
      unfold Request.ask at read
      split at read
      all_goals first | exact read | cases read
    rw [same, Option.all_some, decide_eq_true_iff] at short
    rw [List.length_append, length_getUserRoot, List.length_cons]
    unfold PATH_MAX
    omega

/-- What the messages of a run ask. -/
def questions (rs : List Request) : List (Token × Ask) := rs.filterMap fun r => r.ask.map (r.hdr.token, ·)

/-- What the clients are told in a run. -/
def answers (libs : Externals) (server : Server) (rs : List Request) : List Answer :=
  (run libs server rs).map fun met => answerOf (met.2.serve libs met.1).events

/-- A run of one-shot requests is answered as the box answers the questions, and ends in a server
that still is as the box. -/
theorem Refines.serveAll {rs : List Request} (refines : Refines server box) (plain : ∀ r ∈ rs, Plain libs r) :
    answers libs server rs = (box.serveAll libs (questions rs)).2 ∧
      Refines (runState libs server rs) (box.serveAll libs (questions rs)).1 := by
  induction rs generalizing server box with
  | nil => exact ⟨rfl, refines⟩
  | cons r rs ih =>
      have first := plain r List.mem_cons_self
      obtain ⟨ask, asked⟩ := Option.ne_none_iff_exists'.mp first.asks
      obtain ⟨status, answer, next⟩ := refines.serve first asked
      obtain ⟨later, after⟩ := ih next fun r among => plain r (List.mem_cons_of_mem _ among)
      have asks : questions (r :: rs) = (r.hdr.token, ask) :: questions rs := by
        simp only [questions, List.filterMap_cons, asked, Option.map_some]
      have goesOn : (r.serve libs server).status.goesOn = true := by rw [status]; rfl
      rw [asks, Box.serveAll, runState, if_pos goesOn, answers, run, if_pos goesOn, List.map_cons, answer]
      exact ⟨congrArg _ later, after⟩

/-- There is nothing below a new storage directory. -/
theorem boot_below (outside : List (Place × Node)) (cwd : Place) (n : CStr) (more : List CStr) :
    (boot outside cwd).fs.get? (storagePlace ++ n :: more) = none := by
  have notStorage : storagePlace ++ n :: more ≠ storagePlace := fun same => List.cons_ne_nil n more (List.append_right_eq_self.mp same)
  have notVar : storagePlace ++ n :: more ≠ [cstr "var"] := fun same => by
    have lengths := congrArg List.length same
    cases lengths
  rw [Fs.get?, if_neg storage_ne_nil, boot]
  dsimp only
  rw [lookup_cons_if, if_neg notStorage, lookup_cons_if, if_neg notVar, List.lookup_eq_none_iff]
  intro entry mem
  have beside := (List.mem_filter.mp mem).2
  rw [decide_eq_true_eq] at beside
  refine bne_iff_ne.mpr fun same => beside ?_
  rw [← same]
  exact List.prefix_append _ _

/-- A server that has just been started with an empty storage directory is an empty box. -/
theorem refines_boot {outside : List (Place × Node)} {cwd : Place} (tree : Tree (boot outside cwd).fs)
    (genuine : Genuine (boot outside cwd).fs) : Refines (boot outside cwd) Box.empty where
  users := ⟨[], registry_of_registerAll rfl, fun t => iff_of_false id List.not_mem_nil⟩
  mirrors :=
    { housed := housed_boot outside cwd
      tree := tree
      genuine := genuine
      short := by
        intro path there
        cases path with
        | nil => decide
        | cons n more => exact absurd (boot_below outside cwd n more) there
      entries := by
        intro path
        cases path with
        | nil => rfl
        | cons n more => exact boot_below outside cwd n more }

/-- The one-shot requests of a run are answered as the box answers the questions, and leave a storage
directory and users that are those of the box. -/
theorem serves_box {outside : List (Place × Node)} {cwd : Place} {rs : List Request} (tree : Tree (boot outside cwd).fs)
    (genuine : Genuine (boot outside cwd).fs) (plain : ∀ r ∈ rs, Plain libs r) :
    answers libs (boot outside cwd) rs = (Box.empty.serveAll libs (questions rs)).2 ∧
      Refines (runState libs (boot outside cwd) rs) (Box.empty.serveAll libs (questions rs)).1 :=
  (refines_boot tree genuine).serveAll plain

end Runs

/-! ### Somebody registers, makes two directories and removes them twice -/

/-- In an empty world, a server that is started makes its storage directory. -/
theorem boot_bare (cwd : Place) : (boot [] cwd).fs = ((⟨[], cwd⟩ : Fs).set [cstr "var"] .dir).set storagePlace .dir := rfl

theorem boot_bare_tree (cwd : Place) : Tree (boot [] cwd).fs := by
  rw [boot_bare]
  exact @Tree.made _ [cstr "var"] (cstr "minibox") (@Tree.made _ [] (cstr "var") (tree_bare cwd) rfl) rfl

theorem boot_bare_genuine (cwd : Place) : Genuine (boot [] cwd).fs := by
  have bare : Genuine ⟨[], cwd⟩ := ⟨List.nodup_nil, List.forall_mem_nil _, List.forall_mem_nil _⟩
  have short : ∀ n ∈ storagePlace, 0 ∉ n ∧ n.length ≤ NAME_MAX := by decide
  have good : ∀ n ∈ storagePlace, Proper n ∧ 0 ∉ n ∧ n.length ≤ NAME_MAX :=
    fun n among => ⟨proper_of_mem_storagePlace among, short n among⟩
  have var : Genuine ((⟨[], cwd⟩ : Fs).set [cstr "var"] .dir) :=
    bare.made fun n among => good n (List.mem_of_mem_take (i := 1) among)
  rw [boot_bare]
  exact var.made good

def boxed : List Request :=
  [request .authReq someToken [] [], request .mkdirReq someToken (cstr "a/b" ++ [0]) [],
    request .removeReq someToken (cstr "a" ++ [0]) [], request .removeReq someToken (cstr "a" ++ [0]) []]

theorem boxed_plain : ∀ r ∈ boxed, Plain libraries r := by
  have asked : ∀ r ∈ boxed, r.ask.isSome ∧ r.raw.all (·.length ≤ 3) = true := by decide
  have calm : ∀ r ∈ boxed, r.env = default := by
    simp only [boxed, List.forall_mem_cons]
    exact ⟨rfl, rfl, rfl, rfl, List.forall_mem_nil _⟩
  exact fun r among => plain_of_short (calm r among) (asked r among).1 (asked r among).2

theorem serves_box_boxed : answers libraries (boot [] []) boxed = (Box.empty.serveAll libraries (questions boxed)).2 ∧
    Refines (runState libraries (boot [] []) boxed) (Box.empty.serveAll libraries (questions boxed)).1 ∧
    answers libraries (boot [] []) boxed = [.done, .done, .done, .refused] :=
  have served := serves_box (boot_bare_tree []) (boot_bare_genuine []) boxed_plain
  ⟨served.1, served.2, by decide⟩

end MiniDropbox
