/-
What a user is answered does not depend on the other users.

The server reads and writes for a user only his files and his record (`serve_alike`), unless
another token is hashed to his place in the user map or a download of his names no regular
file, and it leaves those of the others alone (`serve_apart`). So his messages are answered in
a run as they are in the run of his messages alone (`independent`), and when those of the
others come between does not matter (`order_irrelevant`).
-/

import MiniDropbox.Alike
import MiniDropbox.Bookings
import MiniDropbox.Lib.Noninterference

namespace MiniDropbox

open Transition Noninterference

/-! ### The view of a user -/

/-- Two tokens have one place in the user map. -/
def Collide (t u : Token) : Prop := hash t.1 % 256 = hash u.1 % 256

instance (t u : Token) : Decidable (Collide t u) := inferInstanceAs (Decidable (_ = _))

/-- The record a token finds. -/
def recordOf (t : Token) (uman : UserManager) : Option User :=
  (umanGetUser uman t).join.bind fun addr => uman.users[addr]?

/-- What the server keeps for a user. -/
def view (libs : Externals) (t : Token) (server : Server) : List (Place × Node) × Option User :=
  (files libs t server.fs, recordOf t server.uman)

/-- The storage directory is there, and no other token has been registered to the place of the
user's in the map. -/
structure Serving (t : Token) (server : Server) : Prop where
  housed : Housed server.fs
  registry : ∃ tokens, Registry server.uman tokens ∧ ∀ u ∈ tokens, u ≠ t → ¬ Collide u t

section Records

variable {libs : Externals} {t u : Token} {tokens : List Token} {uman next : UserManager} {addr : Nat}

theorem firstAt_append {V : Type} {puts more : List (Token × V)} :
    firstAt 256 (puts ++ more) t = (firstAt 256 puts t).or (firstAt 256 more t) := by
  rw [firstAt, firstAt, firstAt, List.find?_append, Option.map_or]

theorem firstAt_of_apart (apart : ∀ u ∈ tokens, ¬ Collide u t) : firstAt 256 tokens.zipIdx t = none := by
  rw [firstAt, List.find?_eq_none.mpr, Option.map_none]
  intro put among
  have mem : put.1 ∈ tokens := List.mem_of_getElem? (List.mem_zipIdx_iff_getElem?.mp among)
  exact fun here => apart put.1 mem (of_decide_eq_true here)

/-- A registration does not change what a token finds, unless it found nothing and is the one
registered. -/
theorem lookup_registered (registry : Registry uman tokens) (registry' : Registry next (tokens ++ [u]))
    (apart : ∀ u ∈ tokens, u ≠ t → ¬ Collide u t) :
    umanGetUser next t = if t ∉ tokens ∧ u = t then some (some tokens.length) else umanGetUser uman t := by
  have listed : (tokens ++ [u]).zipIdx = tokens.zipIdx ++ [(u, tokens.length)] := by simp [List.zipIdx_append]
  rw [registry.lookup, registry'.lookup, listed, firstAt_append]
  by_cases known : t ∈ tokens
  · obtain ⟨addr, -, found, -⟩ := firstAt_zipIdx known
    rw [if_pos (List.mem_append_left _ known), if_neg (fun both => both.1 known), if_pos known, found, Option.some_or]
  rw [if_neg known]
  by_cases same : u = t
  · have nobody := firstAt_of_apart fun v among => apart v among (ne_of_mem_of_not_mem among known)
    rw [if_pos (List.mem_append_right _ (List.mem_singleton.mpr same.symm)), if_pos ⟨known, same⟩, nobody, Option.none_or, same]
    simp [firstAt]
  · have unknown : t ∉ tokens ++ [u] := by simp [known, Ne.symm same]
    rw [if_neg unknown, if_neg (fun both => same both.2)]

/-- The record of a user after somebody has been registered. -/
theorem recordOf_registered (registry : Registry uman tokens) (registry' : Registry next (tokens ++ [u]))
    (users : next.users = uman.users ++ [userInit u]) (apart : ∀ u ∈ tokens, u ≠ t → ¬ Collide u t) :
    recordOf t next = if u = t then some ((recordOf t uman).getD (userInit t)) else recordOf t uman := by
  rw [recordOf, recordOf, lookup_registered registry registry' apart, users]
  by_cases known : t ∈ tokens
  · obtain ⟨addr, user, found, record⟩ := registry.lookup_of_mem known
    have within : addr < uman.users.length := (List.getElem?_eq_some_iff.mp record).1
    rw [if_neg (fun both => both.1 known), found]
    simp [List.getElem?_append_left within, record]
  · rw [registry.lookup_of_not_mem known]
    by_cases same : u = t
    · rw [if_pos ⟨known, same⟩, if_pos same, ← registry.length_users]
      simp [same]
    · rw [if_neg (fun both => same both.2), if_neg same]
      rfl

/-- What a user finds, when the sessions of somebody have changed. -/
theorem recordOf_of_sameUsers (registry : Registry uman tokens) (same : SameUsers uman next)
    (found : umanGetUser uman t = some (some addr)) : recordOf t next = next.users[addr]? := by
  rw [recordOf, (registry.sameUsers same).lookup, ← registry.lookup, found]
  rfl

/-- Tokens that do not collide have records of their own. -/
theorem addr_ne (registry : Registry uman tokens) (apart : ¬ Collide u t) {addr' : Nat}
    (found : umanGetUser uman t = some (some addr)) (found' : umanGetUser uman u = some (some addr')) : addr ≠ addr' := by
  rintro rfl
  have known : t ∈ tokens := by
    by_contra unknown
    cases found.symm.trans (registry.lookup_of_not_mem unknown)
  have known' : u ∈ tokens := by
    by_contra unknown
    cases found'.symm.trans (registry.lookup_of_not_mem unknown)
  rw [registry.lookup, if_pos known] at found
  rw [registry.lookup, if_pos known'] at found'
  obtain ⟨i, first, at_i, here, place⟩ := firstAt_zipIdx known
  obtain ⟨j, first', at_j, here', place'⟩ := firstAt_zipIdx known'
  cases at_i.symm.trans (Option.some.inj found)
  cases at_j.symm.trans (Option.some.inj found')
  cases here.symm.trans here'
  exact apart (place'.symm.trans place)

end Records

/-! ### One message -/

/-- The paths `rm_r` makes for a removal fit its buffers. -/
def RemovalFits (libs : Externals) (server : Server) (r : Request) : Prop :=
  ∀ bytes path, (recvOneshot r.sock r.hdr.length (some 8192)).1 = some bytes →
    getUserPath libs (cString (bytes ++ r.env.tail)) r.hdr.token = some path → Fits server.fs path (components path)

/-- What is asked of a message for the sake of one user: nobody else is registered to his place in
the map, his downloads name regular files, and the server goes on after it. -/
structure InOrder (libs : Externals) (t : Token) (server : Server) (r : Request) : Prop where
  fresh : r.env.fresh = none
  apart : dispatch r.hdr = .accept .authReq → r.hdr.token ≠ t → ¬ Collide r.hdr.token t
  removal : dispatch r.hdr = .accept .removeReq → RemovalFits libs server r
  download : dispatch r.hdr = .accept .downloadReq → r.hdr.token = t → NamesFile libs server r
  goesOn : (r.serve libs server).status.goesOn = true

section Messages

variable {libs : Externals} {t : Token} {server server' : Server} {r : Request} {addr addr' : Nat} {tokens : List Token}

theorem serving_serve (serving : Serving t server) (inOrder : InOrder libs t server r) :
    Serving t (r.serve libs server).server where
  housed := serving.housed.changes (serve_touches serving.housed.toOrdinary)
  registry := by
    obtain ⟨tokens, registry, apart⟩ := serving.registry
    refine ⟨tokens ++ r.registers, registry.serve inOrder.fresh, fun u among other => ?_⟩
    rcases List.mem_append.mp among with old | new
    · exact apart u old other
    · rw [Request.registers] at new
      split_ifs at new with auth
      · rw [List.mem_singleton.mp new] at other ⊢
        exact inOrder.apart auth other
      · cases new

/-- A message of an unknown token, which does not register it, is turned away whatever the state. -/
theorem serve_unknown (r : Request) (other : dispatch r.hdr ≠ .accept .authReq) :
    ∃ sock events status, ∀ server, umanGetUser server.uman r.hdr.token = some none →
      r.serve libs server = ⟨server, sock, events, status⟩ := by
  unfold Request.serve onClientMessageReceived
  cases dispatched : dispatch r.hdr with
  | abort => exact ⟨_, _, _, fun server _ => rfl⟩
  | refuse => exact ⟨_, _, _, fun server _ => rfl⟩
  | accept type =>
      rw [dispatched] at other
      cases type
      case authReq => exact absurd rfl other
      all_goals exact ⟨_, _, _, fun server unknown => by rw [unknown]; rfl⟩

/-- A message that registers a token. -/
theorem serve_auth_eq (auth : dispatch r.hdr = .accept .authReq) {user : Option Nat}
    (looked : umanGetUser server.uman r.hdr.token = some user) {next : Server} {events : List Event}
    (handled : handleAuth libs r.env server r.hdr = some (next, events)) :
    r.serve libs server = ⟨next, r.sock, events, .kept⟩ := by
  simp only [Request.serve, onClientMessageReceived, auth, looked, MessageType.kind, onOneshotReq, handled, payloadLimit,
    recvOneshot]

/-- A message of a user is served alike by servers that are the same to him. -/
theorem serve_alike_known (together : Together libs t addr addr' server server') (mine : r.hdr.token = t)
    (other : dispatch r.hdr ≠ .accept .authReq) (inOrder : InOrder libs t server r)
    (known : umanGetUser server.uman t = some (some addr)) (known' : umanGetUser server'.uman t = some (some addr')) :
    Handled.Alike libs t addr addr' (r.serve libs server) (r.serve libs server') := by
  have removal := inOrder.removal
  have download := inOrder.download
  unfold Request.serve onClientMessageReceived
  rw [mine, known, known']
  cases dispatched : dispatch r.hdr with
  | abort => exact ⟨together, rfl, rfl, rfl⟩
  | refuse => exact ⟨together, rfl, rfl, rfl⟩
  | accept type =>
      rw [dispatched] at other removal download
      cases type
      case authReq => exact absurd rfl other
      case uploadReq => exact handleUpload_alike together mine
      case downloadReq => exact handleDownload_alike together mine (download rfl mine)
      case listReq => exact handleList_alike together mine
      case removeReq =>
          have handled := handleRemove_alike together mine fun bytes path received found => removal rfl bytes path received found
          exact ⟨handled.1, rfl, handled.2, rfl⟩
      case mkdirReq =>
          have handled := @handleMkdir_alike libs r.env t addr addr' server server' r.hdr
            (recvOneshot r.sock r.hdr.length (some 8192)).1 together mine
          exact ⟨handled.1, rfl, handled.2, rfl⟩
      all_goals exact ⟨together, rfl, rfl, rfl⟩

/-- The records of others stay as they are. -/
theorem serve_elsewhere (other : dispatch r.hdr ≠ .accept .authReq)
    (known : umanGetUser server.uman r.hdr.token = some (some addr)) : Elsewhere addr server (r.serve libs server).server := by
  unfold Request.serve onClientMessageReceived
  rw [known]
  cases dispatched : dispatch r.hdr with
  | abort => exact elsewhere_of_eq rfl
  | refuse => exact elsewhere_of_eq rfl
  | accept type =>
      rw [dispatched] at other
      cases type
      case authReq => exact absurd rfl other
      case uploadReq => exact handleUpload_elsewhere
      case downloadReq => exact handleDownload_elsewhere
      case listReq => exact elsewhere_of_eq (congrArg Server.uman handleList_server)
      case removeReq => exact elsewhere_of_eq handleRemove_uman
      case mkdirReq => exact elsewhere_of_eq handleMkdir_uman
      all_goals exact elsewhere_of_eq rfl

theorem files_serve (housed : Housed server.fs) (different : r.hdr.token ≠ t) :
    files libs t (r.serve libs server).server.fs = files libs t server.fs :=
  files_changes (serve_touches housed.toOrdinary) different

/-- A message does not show to the other users. -/
theorem serve_apart (serving : Serving t server) (inOrder : InOrder libs t server r) (different : r.hdr.token ≠ t) :
    view libs t (r.serve libs server).server = view libs t server := by
  obtain ⟨tokens, registry, apart⟩ := serving.registry
  rw [view, view, files_serve serving.housed different]
  congr 1
  by_cases auth : dispatch r.hdr = .accept .authReq
  · obtain ⟨next, events, handled, same, registry'⟩ := @Registry.serve_auth libs tokens server r registry inOrder.fresh auth
    rw [same, recordOf_registered registry registry' (handleAuth_users handled) apart, if_neg different]
  have sessions := @serve_users libs server r auth
  by_cases known : t ∈ tokens
  · obtain ⟨addr, user, found, record⟩ := registry.lookup_of_mem known
    rw [recordOf_of_sameUsers registry sessions found, recordOf_of_sameUsers registry (.refl _) found]
    by_cases known' : r.hdr.token ∈ tokens
    · obtain ⟨addr', user', found', -⟩ := registry.lookup_of_mem known'
      exact serve_elsewhere auth found' addr (addr_ne registry (apart _ known' different) found found')
    · obtain ⟨sock, events, status, served⟩ := @serve_unknown libs r auth
      rw [served server (registry.lookup_of_not_mem known')]
  · rw [recordOf, recordOf, (registry.sameUsers sessions).lookup_of_not_mem known, registry.lookup_of_not_mem known]
    rfl

theorem sameTo_of_view (serving : Serving t server) (serving' : Serving t server') (same : view libs t server = view libs t server') :
    SameTo libs t server.fs server'.fs := ⟨serving.housed, serving'.housed, congrArg Prod.fst same⟩

/-- What is asked of a message of the user's is the same in states that are the same to him. -/
theorem inOrder_of_sameTo (same : SameTo libs t server.fs server'.fs) (mine : r.hdr.token = t) (inOrder : InOrder libs t server r)
    (status : (r.serve libs server).status = (r.serve libs server').status) : InOrder libs t server' r where
  fresh := inOrder.fresh
  apart := inOrder.apart
  removal := by
    intro removal bytes path received found below there
    obtain ⟨x, more, route⟩ := getUserPath_route found
    refine inOrder.removal removal bytes path received found below ?_
    rw [route.names, mine] at there ⊢
    rwa [same.get? (ours_stack.append below)]
  download := by
    rintro download - info path ⟨asked, found, opens⟩
    obtain ⟨x, more, route⟩ := getUserPath_route found
    rw [mine] at route
    have homeward := route.toBelow.homeward
    rw [← same.fileExists homeward] at opens
    obtain ⟨bytes, regular⟩ := inOrder.download download mine info path ⟨asked, found, opens⟩
    exact ⟨bytes, by rw [← same.lstat homeward, regular]⟩
  goesOn := status ▸ inOrder.goesOn

/-- The record a user finds tells whether he is registered. -/
theorem known_of_record (registry : Registry server.uman tokens) {user : User} (record : recordOf t server.uman = some user) :
    ∃ addr, umanGetUser server.uman t = some (some addr) ∧ server.uman.users[addr]? = some user := by
  have known : t ∈ tokens := by
    by_contra unknown
    rw [recordOf, registry.lookup_of_not_mem unknown] at record
    cases record
  obtain ⟨addr, user', found, here⟩ := registry.lookup_of_mem known
  rw [recordOf_of_sameUsers registry (.refl _) found] at record
  exact ⟨addr, found, record⟩

theorem unknown_of_record (registry : Registry server.uman tokens) (record : recordOf t server.uman = none) :
    umanGetUser server.uman t = some none := by
  by_cases known : t ∈ tokens
  · obtain ⟨addr, user, found, here⟩ := registry.lookup_of_mem known
    rw [recordOf_of_sameUsers registry (.refl _) found, here] at record
    cases record
  · exact registry.lookup_of_not_mem known

/-- What a message of the user's is answered, and what it leaves for him, depends only on what the
server keeps for him. -/
theorem serve_alike (serving : Serving t server) (serving' : Serving t server') (same : view libs t server = view libs t server')
    (mine : r.hdr.token = t) (inOrder : InOrder libs t server r) :
    (r.serve libs server).events = (r.serve libs server').events ∧ (r.serve libs server).status = (r.serve libs server').status ∧
      view libs t (r.serve libs server).server = view libs t (r.serve libs server').server := by
  obtain ⟨tokens, registry, apart⟩ := serving.registry
  obtain ⟨tokens', registry', apart'⟩ := serving'.registry
  have trees := sameTo_of_view serving serving' same
  have records : recordOf t server.uman = recordOf t server'.uman := congrArg Prod.snd same
  by_cases auth : dispatch r.hdr = .accept .authReq
  · obtain ⟨next, events, handled, -, after⟩ := @Registry.serve_auth libs tokens server r registry inOrder.fresh auth
    obtain ⟨next', events', handled', -, after'⟩ := @Registry.serve_auth libs tokens' server' r registry' inOrder.fresh auth
    obtain ⟨left, rfl⟩ := handleAuth_alike trees mine handled handled'
    rw [serve_auth_eq auth (registry.lookup _) handled, serve_auth_eq auth (registry'.lookup _) handled', view, view, left.files,
      recordOf_registered registry after (handleAuth_users handled) apart,
      recordOf_registered registry' after' (handleAuth_users handled') apart', records]
    exact ⟨rfl, rfl, rfl⟩
  have sessions := @serve_users libs server r auth
  have sessions' := @serve_users libs server' r auth
  cases record : recordOf t server.uman with
  | none =>
      have unknown := unknown_of_record registry record
      have unknown' := unknown_of_record registry' (records ▸ record)
      obtain ⟨sock, events, status, served⟩ := @serve_unknown libs r auth
      rw [served server (mine ▸ unknown), served server' (mine ▸ unknown')]
      exact ⟨rfl, rfl, same⟩
  | some user =>
      obtain ⟨addr, known, here⟩ := known_of_record registry record
      obtain ⟨addr', known', here'⟩ := known_of_record registry' (records ▸ record)
      have served := serve_alike_known ⟨trees, here.trans here'.symm⟩ mine auth inOrder known known'
      refine ⟨served.events, served.status, ?_⟩
      rw [view, view, served.server.fs.files, recordOf_of_sameUsers registry sessions known,
        recordOf_of_sameUsers registry' sessions' known', served.server.record]

end Messages

/-! ### Runs -/

/-- The messages of a user in a run are answered so. -/
def heard (libs : Externals) (t : Token) (server : Server) (rs : List Request) : List (List Event × Status) :=
  ((run libs server rs).filter fun p => p.2.hdr.token = t).map fun p =>
    ((p.2.serve libs p.1).events, (p.2.serve libs p.1).status)

section Runs

variable {libs : Externals} {t : Token} {server server' : Server} {rs rs' : List Request}

/-- The step of a run in which the server goes on. -/
def Request.next (libs : Externals) (server : Server) (r : Request) : Server := (r.serve libs server).server

/-- If the server goes on after all messages, a run meets all of them. -/
theorem run_eq_met (goesOn : ∀ p ∈ met (Request.next libs) server rs, (p.2.serve libs p.1).status.goesOn = true) :
    run libs server rs = met (Request.next libs) server rs ∧ runState libs server rs = rs.foldl (Request.next libs) server := by
  induction rs generalizing server with
  | nil => exact ⟨rfl, rfl⟩
  | cons r rs ih =>
      obtain ⟨here, later⟩ := (forall_met_cons fun server r => (Request.serve libs server r).status.goesOn = true).mp goesOn
      obtain ⟨same, last⟩ := ih later
      rw [run, runState, if_pos here, if_pos here, met, List.foldl_cons]
      exact ⟨congrArg _ same, last⟩

/-- It goes on after all if it does after those it meets. -/
theorem met_of_run {P : Server × Request → Prop} (goes : ∀ p, P p → (p.2.serve libs p.1).status.goesOn = true)
    (each : ∀ p ∈ run libs server rs, P p) : ∀ p ∈ met (Request.next libs) server rs, P p := by
  induction rs generalizing server with
  | nil => exact forall_met_nil
  | cons r rs ih =>
      rw [run] at each
      have here := each _ List.mem_cons_self
      rw [if_pos (goes _ here)] at each
      exact List.forall_mem_cons.mpr ⟨here, ih fun p later => each p (List.mem_cons_of_mem _ later)⟩

theorem heard_eq_told (inOrder : ∀ p ∈ met (Request.next libs) server rs, InOrder libs t p.1 p.2) :
    heard libs t server rs = told (Request.next libs) (fun server r => ((r.serve libs server).events, (r.serve libs server).status))
      (fun r => r.hdr.token) t server rs := by
  rw [heard, told, (run_eq_met fun p among => (inOrder p among).goesOn).1]

/-- The server, for one user. -/
theorem unwinding (libs : Externals) (t : Token) :
    Unwinding (Request.next libs) (fun server r => ((r.serve libs server).events, (r.serve libs server).status))
      (fun r => r.hdr.token) t (Serving t) (InOrder libs t) (view libs t) where
  kept _ _ serving inOrder := serving_serve serving inOrder
  apart _ _ serving inOrder different := serve_apart serving inOrder different
  alike server server' r serving serving' same mine inOrder := by
    obtain ⟨events, status, views⟩ := serve_alike serving serving' same mine inOrder
    exact ⟨inOrder_of_sameTo (sameTo_of_view serving serving' same) mine inOrder status, Prod.ext events status, views⟩

/-- A user's messages are answered in a run as they are in the run of his messages alone, from any state
that is the same to him, and leave him the same. -/
theorem independent (libs : Externals) (t : Token) (server server' : Server) (rs : List Request) (serving : Serving t server)
    (serving' : Serving t server') (same : view libs t server = view libs t server')
    (inOrder : ∀ p ∈ run libs server rs, InOrder libs t p.1 p.2) :
    heard libs t server rs = heard libs t server' (rs.filter fun r => r.hdr.token = t) ∧
      view libs t (runState libs server rs) = view libs t (runState libs server' (rs.filter fun r => r.hdr.token = t)) := by
  have each := @met_of_run libs server rs (fun p => InOrder libs t p.1 p.2) (fun p inOrder => inOrder.goesOn) inOrder
  obtain ⟨answers, views, each'⟩ := (unwinding libs t).alone serving serving' same each
  rw [heard_eq_told each, (run_eq_met fun p among => (each p among).goesOn).2, answers, views, ← own,
    heard_eq_told each', (run_eq_met fun p among => (each' p among).goesOn).2]
  exact ⟨rfl, rfl⟩

/-- A run is in order if its messages are, one after the other. -/
theorem inOrder_cons {r : Request} (here : InOrder libs t server r)
    (later : ∀ p ∈ run libs (r.next libs server) rs, InOrder libs t p.1 p.2) :
    ∀ p ∈ run libs server (r :: rs), InOrder libs t p.1 p.2 := by
  rw [run, if_pos here.goesOn]
  exact List.forall_mem_cons.mpr ⟨here, later⟩

/-- Neither a removal nor a download. -/
theorem inOrder_of_neither {r : Request} (fresh : r.env.fresh = none) (apart : r.hdr.token ≠ t → ¬ Collide r.hdr.token t)
    (neither : dispatch r.hdr ≠ .accept .removeReq ∧ dispatch r.hdr ≠ .accept .downloadReq)
    (goesOn : (r.serve libs server).status.goesOn = true) : InOrder libs t server r :=
  ⟨fresh, fun _ => apart, fun removal => absurd removal neither.1, fun download _ => absurd download neither.2, goesOn⟩

theorem serving_boot (t : Token) (outside : List (Place × Node)) (cwd : Place) : Serving t (boot outside cwd) :=
  ⟨housed_boot outside cwd, [], registry_of_registerAll rfl, List.forall_mem_nil _⟩

def otherToken : Token := ⟨List.replicate 16 2, rfl⟩

/-- One user registers, another makes a directory, and the first lists his files. -/
def visited : List Request :=
  [request .authReq someToken [] [], request .authReq otherToken [] [], request .mkdirReq otherToken (cstr "d" ++ [0]) [],
    request .listReq someToken [0] []]

theorem visited_inOrder : ∀ p ∈ run libraries (boot [] []) visited, InOrder libraries someToken p.1 p.2 := by
  refine inOrder_cons (inOrder_of_neither rfl (by decide) (by decide) (by decide)) ?_
  refine inOrder_cons (inOrder_of_neither rfl (by decide) (by decide) (by decide)) ?_
  refine inOrder_cons (inOrder_of_neither rfl (by decide) (by decide) (by decide)) ?_
  exact inOrder_cons (inOrder_of_neither rfl (by decide) (by decide) (by decide)) (List.forall_mem_nil _)

theorem independent_visited :
    heard libraries someToken (boot [] []) visited =
        heard libraries someToken (boot [] []) (visited.filter fun r => r.hdr.token = someToken) ∧
      view libraries someToken (runState libraries (boot [] []) visited) =
        view libraries someToken (runState libraries (boot [] []) (visited.filter fun r => r.hdr.token = someToken)) :=
  independent libraries someToken _ _ _ (serving_boot _ [] []) (serving_boot _ [] []) rfl visited_inOrder

end Runs

end MiniDropbox
