/-
Registration and storage.

The user map and the storage directory both say who is registered, and different code
keeps them. `handle_auth` registers the token whether or not it could make the
directory, and `handle_remove` accepts a path that names the user's directory itself.
Where a run does neither (`Orderly`), the two agree in every state
(`registration_agrees`): the invariant `Rooted` also says that a token nobody has
registered has nothing at all in the place of its directory, so that `mkdir` fails
only if the environment makes it.
-/

import MiniDropbox.Gate
import MiniDropbox.Isolation

namespace MiniDropbox

/-- Registered are the tokens with a directory. -/
def Agree (libs : Externals) (server : Server) : Prop :=
  ∀ t, (∃ addr, umanGetUser server.uman t = some (some addr)) ↔
    server.fs.get? (userPlace libs t) = some .dir

/-- A new user's directory can be made and his entry in the map ends its chain; a user
does not remove his own directory. -/
structure Orderly (libs : Externals) (server : Server) (r : Request) : Prop where
  made : dispatch r.hdr = .accept .authReq → umanGetUser server.uman r.hdr.token = some none →
    r.env.faults .mkdir (getUserRoot libs r.hdr.token) = none
  linked : dispatch r.hdr = .accept .authReq → r.env.fresh = none
  kept : dispatch r.hdr = .accept .removeReq → ∀ addr bytes path,
    umanGetUser server.uman r.hdr.token = some (some addr) →
    (recvOneshot r.sock r.hdr.length (some 8192)).1 = some bytes →
    getUserPath libs (cString (bytes ++ r.env.tail)) r.hdr.token = some path →
    components path ≠ userPlace libs r.hdr.token

/-! ### Making a user's directory -/

/-- A walk through directories to a name that is not a link ends there. -/
theorem walk_plain {fs : Fs} {fuel links : Nat} {place : Place} {names : List CStr} {last : CStr}
    (enough : names.length + 1 < fuel)
    (proper : ∀ n ∈ names ++ [last], Proper n) (short : ∀ n ∈ names ++ [last], n.length ≤ NAME_MAX)
    (dirs : ∀ front, front <+: names → fs.get? (place ++ front) = some .dir)
    (plain : ∀ target, fs.get? (place ++ names ++ [last]) ≠ some (.link target)) :
    fs.walk false fuel links place (names ++ [last]) = .ok (place ++ names ++ [last]) := by
  induction names generalizing fuel place with
  | nil =>
      obtain ⟨fuel, rfl⟩ : ∃ more, fuel = more + 2 := ⟨fuel - 2, by rw [List.length_nil] at enough; omega⟩
      have here : fs.get? place = some .dir := by
        simpa using dirs [] List.prefix_rfl
      have mem : last ∈ [] ++ [last] := List.mem_cons_self
      have name := proper last mem
      rw [List.append_nil] at plain ⊢
      cases node : fs.get? (place ++ [last]) with
      | none => exact (Walks.missing here name.notDot name.notDots (short last mem) node).walk
      | some found =>
          have other : ∀ target, found ≠ .link target := fun target same => plain target (node.trans (congrArg some same))
          exact (Walks.down here name.notDot name.notDots (short last mem) node other .arrived).walk
  | cons name names ih =>
      rw [List.length_cons] at enough
      obtain ⟨fuel, rfl⟩ : ∃ more, fuel = more + 1 := ⟨fuel - 1, by omega⟩
      have here : fs.get? place = some .dir := by
        simpa using dirs [] (List.nil_prefix)
      have next : fs.get? (place ++ [name]) = some .dir := dirs [name] ⟨names, rfl⟩
      have mem : name ∈ name :: names ++ [last] := List.mem_cons_self
      have rest := @ih fuel (place ++ [name]) (Nat.lt_of_succ_lt_succ enough)
        (fun n hn => proper n (List.mem_cons_of_mem _ hn)) (fun n hn => short n (List.mem_cons_of_mem _ hn))
        (fun front along => by
          rw [List.append_assoc]
          exact dirs (name :: front) ((List.prefix_cons_inj name).mpr along))
        (by simpa using plain)
      rw [List.append_assoc place [name] names, List.singleton_append] at rest
      exact (Walks.down here (proper name mem).notDot (proper name mem).notDots (short name mem) next Node.dir_ne_link
        (walks_of_walk rest)).walk

/-- The path of a user's directory does not end in a slash. -/
theorem getLast?_root (libs : Externals) (token : Token) : (getUserRoot libs token).getLast? ≠ some slash := by
  intro ends
  have name := isName_uuidUnparse libs token
  rw [getUserRoot_eq, List.getLast?_append_of_ne_nil _ (List.cons_ne_nil _ _),
    List.getLast?_cons_of_ne_nil name.nonempty] at ends
  exact name.free (List.mem_of_getLast? ends)

/-- The path of a user's directory leads to its place. -/
theorem resolve_root {libs : Externals} {token : Token} {fs : Fs}
    (var : fs.get? [cstr "var"] = some .dir) (storage : fs.get? storagePlace = some .dir)
    (plain : ∀ target, fs.get? (userPlace libs token) ≠ some (.link target)) :
    fs.resolve false (getUserRoot libs token) = .ok (userPlace libs token) := by
  have route := getUserRoot_route libs token
  have last := getLast?_root libs token
  have length : (getUserRoot libs token).length < PATH_MAX := by
    rw [length_getUserRoot]
    decide
  have named : getUserRoot libs token ≠ [] := by
    intro empty
    have absolute := route.absolute
    rw [empty] at absolute
    cases absolute
  have walked : fs.walk false (42 * PATH_MAX) 40 [] (storagePlace ++ [libs.uuidUnparse token]) =
      .ok (userPlace libs token) := by
    refine walk_plain (by decide) ?_ ?_ ?_ plain
    · intro n hn
      rcases List.mem_append.mp hn with inside | last
      · exact proper_of_mem_storagePlace inside
      · exact route.proper n last
    · intro n hn
      rcases List.mem_append.mp hn with inside | last
      · exact (show ∀ n ∈ storagePlace, n.length ≤ NAME_MAX by decide) n inside
      · rw [List.mem_singleton.mp last, libs.length_uuidUnparse]
        decide
    · intro front along
      rcases List.prefix_cons_iff.mp along with rfl | ⟨behind, rfl, below⟩
      · rfl
      rcases List.prefix_cons_iff.mp below with rfl | ⟨ended, rfl, nothing⟩
      · exact var
      · rw [List.prefix_nil.mp nothing]
        exact storage
  rw [Fs.resolve, if_neg named, if_neg (Nat.not_le.mpr length), if_pos route.absolute, if_neg last,
    List.append_nil, route.names]
  exact walked

/-- The directory of a user is made where there is none. -/
theorem mkdir_root_ok {libs : Externals} {token : Token} {fs : Fs}
    (var : fs.get? [cstr "var"] = some .dir) (storage : fs.get? storagePlace = some .dir)
    (missing : fs.get? (userPlace libs token) = none) :
    fs.mkdir (getUserRoot libs token) = .ok (fs.set (userPlace libs token) .dir) := by
  have resolved := resolve_root var storage fun target link => by cases missing.symm.trans link
  simp only [Fs.mkdir, trimSlashes_of_last (getLast?_root libs token), resolved, bind, Except.bind, missing]

/-- Where it stands it is found. -/
theorem mkdir_root_exists {libs : Externals} {token : Token} {fs : Fs}
    (var : fs.get? [cstr "var"] = some .dir) (storage : fs.get? storagePlace = some .dir)
    (there : fs.get? (userPlace libs token) = some .dir) : fs.mkdir (getUserRoot libs token) = .error .EEXIST := by
  have resolved := resolve_root var storage fun target link => by cases there.symm.trans link
  simp only [Fs.mkdir, trimSlashes_of_last (getLast?_root libs token), resolved, bind, Except.bind, there]

/-! ### The invariant -/

section Rooted

variable {libs : Externals} {server : Server} {tokens : List Token} {r : Request}

/-- The tokens registered have a directory, and where another's would be there is nothing. -/
structure Rooted (libs : Externals) (server : Server) (tokens : List Token) : Prop where
  registry : Registry server.uman tokens
  ordinary : Ordinary server.fs
  var : server.fs.get? [cstr "var"] = some .dir
  storage : server.fs.get? storagePlace = some .dir
  roots : ∀ t, server.fs.get? (userPlace libs t) = if t ∈ tokens then some .dir else none

theorem Rooted.agree (rooted : Rooted libs server tokens) : Agree libs server := by
  intro t
  rw [rooted.roots]
  constructor
  · rintro ⟨addr, found⟩
    by_cases mem : t ∈ tokens
    · rw [if_pos mem]
    · rw [rooted.registry.lookup_of_not_mem mem] at found
      cases found
  · intro dir
    split_ifs at dir with mem
    obtain ⟨addr, -, found, -⟩ := rooted.registry.lookup_of_mem mem
    exact ⟨addr, found⟩

/-- What an upload leaves at the root is a directory. -/
theorem Stores.root {token : Token} {node : Option Node} (stores : Stores libs token (userPlace libs token) node) :
    node = some .dir := by
  rcases stores with ⟨-, dir⟩ | ⟨bytes, -, ⟨last, -, here⟩ | here⟩
  · exact dir
  · have lengths := congrArg List.length here
    simp [userPlace] at lengths
  · exact absurd ⟨[], by rw [List.append_nil]; exact here⟩ (sibling_beside libs token)

/-- Only a path that names the root removes it. -/
theorem Removes.root {token : Token} {x : CStr} {more : List CStr} {node : Option Node}
    (removes : Removes ((libs.uuidUnparse token ++ x) :: more) (userPlace libs token) node) :
    (libs.uuidUnparse token ++ x) :: more = [libs.uuidUnparse token] := by
  obtain ⟨-, below, here | ⟨-, deep⟩⟩ := removes
  · have names : [libs.uuidUnparse token] = (libs.uuidUnparse token ++ x) :: more ++ below :=
      (List.append_right_inj storagePlace).mp here
    obtain ⟨first, rest⟩ := List.cons.inj names
    rw [← first, (List.append_eq_nil_iff.mp rest.symm).1]
  · exact absurd deep (by simp [userPlace])

/-- What a one-shot request leaves at the root of its user. -/
theorem onOneshotReq_root {type : MessageType} {user : Option Nat} {next : Server} {events : List Event}
    (ordinary : Ordinary server.fs)
    (kept : type = .removeReq → user.isSome → ∀ bytes path,
      (recvOneshot r.sock r.hdr.length (some 8192)).1 = some bytes →
      getUserPath libs (cString (bytes ++ r.env.tail)) r.hdr.token = some path →
      components path ≠ userPlace libs r.hdr.token)
    (ok : onOneshotReq libs r.env server user r.hdr type
      (recvOneshot r.sock r.hdr.length (payloadLimit type user)).1 = some (next, events)) :
    next.fs.get? (userPlace libs r.hdr.token) = server.fs.get? (userPlace libs r.hdr.token) ∨
      next.fs.get? (userPlace libs r.hdr.token) = some .dir := by
  have named : userPlace libs r.hdr.token ≠ [] := List.cons_ne_nil _ _
  cases type
  case authReq =>
    exact ((handleAuth_changes ordinary.links ok).after named).imp_right And.right
  case removeReq =>
    have removed := @handleRemove_changes libs r.env server user r.hdr
      (recvOneshot r.sock r.hdr.length (payloadLimit .removeReq user)).1 ordinary
    rw [Option.some.inj ok] at removed
    rcases removed with same | ⟨bytes, path, x, more, received, found, route, changes⟩
    · exact .inl (by rw [same])
    · refine .inl ((changes.after named).resolve_right fun removes => ?_)
      have known : user.isSome := by
        cases user with
        | none => cases received
        | some addr => rfl
      obtain ⟨addr, rfl⟩ := Option.isSome_iff_exists.mp known
      refine kept rfl rfl bytes path received found ?_
      rw [route.names, removes.root]
      rfl
  case mkdirReq =>
    obtain ⟨x, more, -, changes⟩ := @handleMkdir_changes libs r.env server user r.hdr
      (recvOneshot r.sock r.hdr.length (payloadLimit .mkdirReq user)).1 ordinary
    rw [Option.some.inj ok] at changes
    exact (changes.after named).imp_right And.left
  all_goals
    cases ok
    exact .inl rfl

/-- No message of a run in order takes its user's directory away. -/
theorem serve_root (ordinary : Ordinary server.fs) (orderly : Orderly libs server r) :
    (r.serve libs server).server.fs.get? (userPlace libs r.hdr.token) =
        server.fs.get? (userPlace libs r.hdr.token) ∨
      (r.serve libs server).server.fs.get? (userPlace libs r.hdr.token) = some .dir := by
  have named : userPlace libs r.hdr.token ≠ [] := List.cons_ne_nil _ _
  unfold Request.serve onClientMessageReceived
  cases dispatched : dispatch r.hdr with
  | abort => exact .inl rfl
  | refuse => exact .inl rfl
  | accept type =>
      dsimp only
      cases found : umanGetUser server.uman r.hdr.token with
      | none => exact .inl rfl
      | some user =>
          dsimp only
          cases kind : type.kind with
          | ignored => exact .inl rfl
          | stream =>
              cases type
              case uploadReq => exact ((handleUpload_changes ordinary).after named).imp_right Stores.root
              case downloadReq => exact .inl (by rw [onStreamReq, handleDownload_fs])
              case listReq => exact .inl (by rw [onStreamReq, handleList_fs])
              all_goals exact .inl rfl
          | oneshot =>
              dsimp only
              split
              · exact .inl rfl
              · rename_i handled
                refine onOneshotReq_root ordinary ?_ handled
                rintro rfl known
                obtain ⟨addr, rfl⟩ := Option.isSome_iff_exists.mp known
                exact fun bytes path => orderly.kept dispatched addr bytes path found

/-- A message touches nothing above the directories of the users. -/
theorem Touches.deep {token : Token} {place : Place} {node : Option Node}
    (touches : Touches libs token place node) : 3 ≤ place.length := by
  obtain ⟨⟨x, along⟩, -⟩ := touches
  exact along.length_le

/-- An `AUTH_REQ` leaves its user with a directory. -/
theorem handleAuth_root {next : Server} {events : List Event} (rooted : Rooted libs server tokens)
    (made : r.hdr.token ∉ tokens → r.env.faults .mkdir (getUserRoot libs r.hdr.token) = none)
    (ok : handleAuth libs r.env server r.hdr = some (next, events)) :
    next.fs.get? (userPlace libs r.hdr.token) = some .dir := by
  have named : userPlace libs r.hdr.token ≠ [] := List.cons_ne_nil _ _
  have root := rooted.roots r.hdr.token
  by_cases mem : r.hdr.token ∈ tokens
  · rw [if_pos mem] at root
    rcases (handleAuth_changes rooted.ordinary.links ok).after named with same | stores
    · exact same.trans root
    · exact stores.2
  · rw [if_neg mem] at root
    have succeeds : perform r.env.faults .mkdir (getUserRoot libs r.hdr.token)
        (server.fs.mkdir (getUserRoot libs r.hdr.token)) =
          .ok (server.fs.set (userPlace libs r.hdr.token) .dir) := by
      rw [perform, made mem]
      exact mkdir_root_ok rooted.var rooted.storage root
    obtain ⟨uman, -, ok⟩ := Option.bind_eq_some_iff.mp ok
    rw [← getUserRoot, succeeds] at ok
    cases ok
    rw [get?_set named, if_pos rfl]

/-- One message keeps registration and storage in step. -/
theorem Rooted.serve (rooted : Rooted libs server tokens) (orderly : Orderly libs server r) :
    Rooted libs (r.serve libs server).server (tokens ++ r.registers) := by
  have touches := @serve_touches libs server r rooted.ordinary
  have others : ∀ t, t ≠ r.hdr.token →
      (r.serve libs server).server.fs.get? (userPlace libs t) = if t ∈ tokens then some .dir else none := by
    intro t different
    rw [← rooted.roots]
    exact (serve_isolated libs server rooted.ordinary r t different).2 _ List.prefix_rfl
  have var : (r.serve libs server).server.fs.get? [cstr "var"] = some .dir :=
    (touches.frame fun _ touched => absurd touched.deep (by simp)).trans rooted.var
  have storage : (r.serve libs server).server.fs.get? storagePlace = some .dir :=
    (touches.frame fun _ touched => absurd touched.deep (by simp [storagePlace])).trans rooted.storage
  by_cases auth : dispatch r.hdr = .accept .authReq
  · have made : r.hdr.token ∉ tokens → r.env.faults .mkdir (getUserRoot libs r.hdr.token) = none :=
      fun unknown => orderly.made auth (rooted.registry.lookup_of_not_mem unknown)
    obtain ⟨next, events, handled, served, registry⟩ :=
      @Registry.serve_auth libs tokens server r rooted.registry (orderly.linked auth) auth
    rw [Request.registers, if_pos auth]
    refine ⟨served ▸ registry, ordinary_serve rooted.ordinary, var, storage, fun t => ?_⟩
    by_cases own : t = r.hdr.token
    · rw [if_pos (by simp [own]), own, served]
      exact handleAuth_root rooted made handled
    · rw [others t own]
      simp [own]
  · rw [Request.registers, if_neg auth, List.append_nil]
    refine ⟨rooted.registry.sameUsers (serve_users auth), ordinary_serve rooted.ordinary, var, storage,
      fun t => ?_⟩
    by_cases own : t = r.hdr.token
    · subst own
      have root := rooted.roots r.hdr.token
      by_cases mem : r.hdr.token ∈ tokens
      · rw [if_pos mem] at root ⊢
        rcases serve_root rooted.ordinary orderly with same | dir
        · exact same.trans root
        · exact dir
      · have notAuth : r.hdr.type ≠ MessageType.authReq.toNat := by
          intro type
          exact auth (by simp [dispatch, type])
        have away := @Registry.turnedAway libs server r tokens rooted.registry notAuth (.inr mem)
        rw [away.unchanged]
        exact root
    · exact others t own

/-- The user's directory is found where it stands. -/
theorem Rooted.rootMade {faults : Faults} {token : Token} (rooted : Rooted libs server tokens) (mem : token ∈ tokens)
    (unfailed : faults .mkdir (getUserRoot libs token) = none) :
    MiniDropbox.rootMade libs faults server.fs token = some server.fs := by
  have there := rooted.roots token
  rw [if_pos mem] at there
  rw [MiniDropbox.rootMade, mkdir_root_exists rooted.var rooted.storage there, perform, unfailed]
  rfl

theorem Rooted.account {token : Token} {user : User} (rooted : Rooted libs server [token])
    (record : server.uman.users[0]? = some user) : user.account = userInit token := by
  have here : (server.uman.users.map User.account)[0]? = some user.account := by
    rw [List.getElem?_map, record, Option.map_some]
  rw [rooted.registry.accounts] at here
  exact (Option.some.inj here).symm

theorem orderly_upload (upload : dispatch r.hdr = .accept .uploadReq) : Orderly libs server r := by
  refine ⟨fun other => ?_, fun other => ?_, fun other => ?_⟩ <;> cases upload.symm.trans other

end Rooted

/-! ### Runs -/

/-- An empty storage directory and an empty map. -/
theorem rooted_boot (libs : Externals) (outside : List (Place × Node)) (cwd : Place) :
    Rooted libs (boot outside cwd) [] := by
  refine ⟨registry_of_registerAll rfl, ordinary_boot outside cwd, rfl, rfl, fun t => ?_⟩
  have named : userPlace libs t ≠ [] := List.cons_ne_nil _ _
  have within : storagePlace <+: userPlace libs t := List.prefix_append _ _
  have notStorage : userPlace libs t ≠ storagePlace := fun same => by
    have lengths := congrArg List.length same
    cases lengths
  have notVar : userPlace libs t ≠ [cstr "var"] := fun same => by
    have lengths := congrArg List.length same
    cases lengths
  rw [if_neg List.not_mem_nil, Fs.get?, if_neg named, boot]
  dsimp only
  rw [lookup_cons_if, if_neg notStorage, lookup_cons_if, if_neg notVar, List.lookup_eq_none_iff]
  intro entry mem
  have beside := (List.mem_filter.mp mem).2
  rw [decide_eq_true_eq] at beside
  refine bne_iff_ne.mpr fun same => beside ?_
  rw [← same]
  exact within

/-- From a state in which map and storage agree, a run in order leads only to such states. -/
theorem rooted_run {libs : Externals} {server : Server} {tokens : List Token} {rs : List Request}
    (rooted : Rooted libs server tokens) (orderly : ∀ p ∈ run libs server rs, Orderly libs p.1 p.2) :
    Always libs (Agree libs) server rs := by
  induction rs generalizing server tokens with
  | nil => exact ⟨List.forall_mem_nil _, rooted.agree⟩
  | cons r rs ih =>
      have next := rooted.serve (orderly _ List.mem_cons_self)
      rw [run] at orderly
      rw [always_cons]
      refine ⟨rooted.agree, ?_⟩
      split_ifs at orderly ⊢ with goes
      · exact ih next fun p hp => orderly p (List.mem_cons_of_mem _ hp)
      · exact ⟨List.forall_mem_nil _, next.agree⟩

/-- In every run in order from an empty storage directory, a token is registered exactly
when it has a directory, in every state. -/
theorem registration_agrees (libs : Externals) (outside : List (Place × Node)) (cwd : Place)
    (rs : List Request) (orderly : ∀ p ∈ run libs (boot outside cwd) rs, Orderly libs p.1 p.2) :
    Always libs (Agree libs) (boot outside cwd) rs :=
  rooted_run (rooted_boot libs outside cwd) orderly

/-- Registering, and removing something in the directory that is not there. -/
theorem registration_agrees_kept :
    Agree libraries (runState libraries (boot [] [])
      [request .authReq someToken [] [], request .removeReq someToken (cstr "a" ++ [0]) []]) := by
  refine (registration_agrees libraries [] [] _ fun p met => ?_).2
  have received : (recvOneshot (request .removeReq someToken (cstr "a" ++ [0]) []).sock
      (request .removeReq someToken (cstr "a" ++ [0]) []).hdr.length (some 8192)).1 =
        some (cstr "a" ++ [0]) := by decide
  have named : (getUserPath libraries (cString (cstr "a" ++ [0] ++ [])) someToken).map components =
      some (userPlace libraries someToken ++ [cstr "a"]) := by decide
  obtain ⟨server, r⟩ := p
  rcases List.mem_cons.mp (mem_of_mem_run met) with auth | remove
  · cases auth
    refine ⟨fun _ _ => rfl, fun _ => rfl, fun remove => ?_⟩
    exact absurd remove (show dispatch (request .authReq someToken [] []).hdr ≠ .accept .removeReq by decide)
  · cases List.mem_singleton.mp remove
    refine ⟨fun _ _ => rfl, fun _ => rfl, fun _ addr bytes path _ payload found => ?_⟩
    cases received.symm.trans payload
    have shape : components path = userPlace libraries someToken ++ [cstr "a"] :=
      Option.some.inj ((congrArg (Option.map components) found).symm.trans named)
    rw [shape]
    exact fun same => by simpa using congrArg List.length same

/-- A failed `mkdir` registers the user all the same; and a user who removes the empty path
has no directory any more. -/
theorem registration_disagrees :
    ¬ Agree libraries (runState libraries (boot [] [])
      [{ request .authReq someToken [] [] with
        env := { (default : Env) with faults := fun site _ => if site = .mkdir then some .EACCES else none } }]) ∧
    ¬ Agree libraries (runState libraries (boot [] [])
      [request .authReq someToken [] [], request .removeReq someToken [0] []]) := by
  constructor
  · intro agree
    have registered := (agree someToken).mp ⟨0, by decide⟩
    exact absurd registered (by decide)
  · intro agree
    have registered := (agree someToken).mp ⟨0, by decide⟩
    exact absurd registered (by decide)

end MiniDropbox
