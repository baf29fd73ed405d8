/-
Paths that do not fit their buffers.

A request brings up to 8192 bytes. Behind the user's directory, `get_user_path` keeps 8141 of
them and `create_directories_from_path` 4045, and both go on with what they have kept. Since
`..` and repeated slashes shorten a path again, what is kept can be a path of an ancestor.
`untruncated_iff` says when that does no harm.
-/

import MiniDropbox.Creation
import MiniDropbox.Reach
import MiniDropbox.UserPaths

namespace MiniDropbox

open Lexical

/-! ### What `rm_r` leaves as it is -/

/-- Nothing that is below a path can be removed: each of the calls fails. -/
def Stuck (faults : Faults) (fs : Fs) : Nat → CStr → Prop
  | 0, _ => True
  | fuel + 1, path =>
      match perform faults .rmLstat path (fs.lstat path) with
      | .error _ => True
      | .ok .dir =>
          match perform faults .rmOpendir path (fs.opendir path) with
          | .error _ => True
          | .ok names => (∀ name ∈ names, Stuck faults fs fuel (snprintf PATH_MAX (path ++ slash :: name))) ∧
              ∃ errno, perform faults .rmRmdir path (fs.rmdir path) = .error errno
      | .ok _ => ∃ errno, perform faults .rmUnlink path (fs.unlink path) = .error errno

/-- A tree from which something may have been removed. -/
structure Pruned (fs fs' : Fs) : Prop where
  cwd : fs'.cwd = fs.cwd
  nodes : fs'.nodes.Sublist fs.nodes

section Removal

variable {faults : Faults} {fs fs' : Fs} {path : CStr} {names : List CStr} {place : Place}

theorem Pruned.refl : Pruned fs fs := ⟨rfl, .refl _⟩

theorem Pruned.trans {fs'' : Fs} (first : Pruned fs fs') (second : Pruned fs' fs'') : Pruned fs fs'' :=
  ⟨second.cwd.trans first.cwd, second.nodes.trans first.nodes⟩

theorem Pruned.antisymm (there : Pruned fs fs') (back : Pruned fs' fs) : fs' = fs := by
  cases fs
  cases fs'
  obtain ⟨same, nodes⟩ := there
  exact congr (congrArg Fs.mk (nodes.antisymm back.nodes)) same

theorem pruned_erase : Pruned fs (fs.erase place) := ⟨rfl, List.filter_sublist⟩

theorem pruned_foldl {step : Fs → CStr → Fs} (steps : ∀ fs name, Pruned fs (step fs name)) : Pruned fs (names.foldl step fs) := by
  induction names generalizing fs with
  | nil => exact .refl
  | cons name names ih => exact (steps fs name).trans ih

/-- Steps that only remove lead back to the tree they start with if none of them removes
anything from it. -/
theorem foldl_kept_iff {step : Fs → CStr → Fs} (steps : ∀ fs name, Pruned fs (step fs name)) :
    names.foldl step fs = fs ↔ ∀ name ∈ names, step fs name = fs := by
  induction names with
  | nil => exact ⟨nofun, fun _ => rfl⟩
  | cons name names ih =>
      rw [List.foldl_cons, List.forall_mem_cons, ← ih]
      constructor
      · intro same
        have later := @pruned_foldl (step fs name) names step steps
        rw [same] at later
        have first : step fs name = fs := (steps fs name).antisymm later
        rw [first] at same
        exact ⟨first, same⟩
      · rintro ⟨first, same⟩
        rw [first, same]

theorem rmR_pruned {fuel : Nat} : Pruned fs (rmR faults fuel fs path).1 := by
  induction fuel generalizing fs path with
  | zero => exact .refl
  | succ fuel ih =>
      rw [rmR]
      split
      · exact .refl
      · split
        · exact .refl
        · rename_i names _
          have emptied := @pruned_foldl fs names _ fun fs name => @ih fs (snprintf PATH_MAX (path ++ slash :: name))
          dsimp only
          split
          · exact emptied
          · rename_i removed
            obtain ⟨place, -, -, -, -, rfl⟩ := rmdir_place (perform_ok removed)
            exact emptied.trans pruned_erase
      · split
        · exact .refl
        · rename_i removed
          obtain ⟨place, -, rfl⟩ := unlink_place (perform_ok removed)
          exact pruned_erase

/-- What is removed is missing afterwards. -/
theorem erase_ne (named : place ≠ []) (there : fs.get? place ≠ none) : fs.erase place ≠ fs := by
  intro same
  have missing := @get?_erase fs place place named
  rw [same, if_pos rfl] at missing
  exact there missing

theorem unlink_ne (removed : fs.unlink path = .ok fs') : fs' ≠ fs := by
  obtain ⟨place, -, ok⟩ := ok_of_bind removed
  have named : fs.get? place ≠ some .dir := by
    intro dir
    rw [dir] at ok
    cases ok
  split at ok
  · cases ok
  · cases ok
  · rename_i node there
    cases ok
    exact erase_ne (fun root => named (by rw [root]; rfl)) (by rw [there]; nofun)

/-- The root directory is removed only if it is empty. -/
theorem rmdir_ne (full : fs.names [] ≠ []) (removed : fs.rmdir path = .ok fs') : fs' ≠ fs := by
  obtain ⟨place, -, -, directory, empty, rfl⟩ := rmdir_place removed
  exact erase_ne (fun root => full (root ▸ empty)) (by rw [directory]; nofun)

/-- `rm_r` fails and removes nothing. -/
theorem rmR_of_stuck {fuel : Nat} (stuck : Stuck faults fs fuel path) : ∃ errno, rmR faults fuel fs path = (fs, .error errno) := by
  induction fuel generalizing path with
  | zero => exact ⟨_, rfl⟩
  | succ fuel ih =>
      rw [Stuck] at stuck
      rw [rmR]
      cases found : perform faults .rmLstat path (fs.lstat path) with
      | error errno => exact ⟨errno, rfl⟩
      | ok node =>
          rw [found] at stuck
          cases node with
          | dir =>
              dsimp only at stuck ⊢
              cases opened : perform faults .rmOpendir path (fs.opendir path) with
              | error errno => exact ⟨errno, rfl⟩
              | ok names =>
                  rw [opened] at stuck
                  obtain ⟨entries, errno, failed⟩ := stuck
                  have kept := (@foldl_kept_iff fs names _ fun fs name =>
                    @rmR_pruned faults fs (snprintf PATH_MAX (path ++ slash :: name)) fuel).mpr fun name among => by
                      obtain ⟨errno, result⟩ := ih (entries name among)
                      rw [result]
                  refine ⟨errno, ?_⟩
                  dsimp only
                  rw [kept, failed]
          | file bytes =>
              obtain ⟨errno, failed⟩ := stuck
              exact ⟨errno, by dsimp only; rw [failed]⟩
          | link target =>
              obtain ⟨errno, failed⟩ := stuck
              exact ⟨errno, by dsimp only; rw [failed]⟩

/-- A call of `unlink` that changes nothing has failed. -/
theorem unlink_kept {path : CStr} (kept : (match perform faults .rmUnlink path (fs.unlink path) with
      | .error errno => (fs, Except.error errno)
      | .ok fs => (fs, .ok ())).1 = fs) :
    ∃ errno, perform faults .rmUnlink path (fs.unlink path) = .error errno := by
  cases removed : perform faults .rmUnlink path (fs.unlink path) with
  | error errno => exact ⟨errno, rfl⟩
  | ok fs' =>
      rw [removed] at kept
      exact absurd kept (unlink_ne (perform_ok removed))

/-- Where it removes nothing it cannot. -/
theorem stuck_of_rmR {fuel : Nat} (full : fs.names [] ≠ []) (kept : (rmR faults fuel fs path).1 = fs) :
    Stuck faults fs fuel path := by
  induction fuel generalizing path with
  | zero => trivial
  | succ fuel ih =>
      rw [rmR] at kept
      rw [Stuck]
      cases found : perform faults .rmLstat path (fs.lstat path) with
      | error errno => trivial
      | ok node =>
          rw [found] at kept
          cases node with
          | dir =>
              dsimp only at kept ⊢
              cases opened : perform faults .rmOpendir path (fs.opendir path) with
              | error errno => trivial
              | ok names =>
                  rw [opened] at kept
                  dsimp only at kept ⊢
                  have steps := fun fs name => @rmR_pruned faults fs (snprintf PATH_MAX (path ++ slash :: name)) fuel
                  have emptied := @pruned_foldl fs names _ steps
                  have entries := (@foldl_kept_iff fs names _ steps).mp
                  generalize names.foldl _ fs = fs' at kept emptied entries
                  cases removed : perform faults .rmRmdir path (fs'.rmdir path) with
                  | error errno =>
                      rw [removed] at kept
                      dsimp only at kept
                      subst kept
                      exact ⟨fun name among => ih (entries rfl name among), errno, removed⟩
                  | ok fs'' =>
                      rw [removed] at kept
                      dsimp only at kept
                      subst kept
                      obtain ⟨place, -, -, -, -, rest⟩ := rmdir_place (perform_ok removed)
                      have same : fs' = fs'' := emptied.antisymm (rest ▸ pruned_erase)
                      subst same
                      exact absurd rfl (rmdir_ne full (perform_ok removed))
          | file bytes => exact unlink_kept kept
          | link target => exact unlink_kept kept

end Removal

/-! ### Removal -/

section Bare

variable {fs : Fs} {path : CStr} {name : CStr} {rest : List CStr}

/-- In an empty root directory no path leads to anything. -/
theorem lstat_bare (bare : fs.names [] = []) (absolute : path.head? = some slash) (names : components path = name :: rest)
    (proper : Proper name) : ∃ errno, fs.lstat path = .error errno := by
  have missing : fs.get? ([] ++ [name]) = none := by
    have absent : ¬ (fs.get? ([] ++ [name])).isSome := by
      rw [← Genuine.mem_names_iff, bare]
      exact List.not_mem_nil
    exact Option.not_isSome_iff_eq_none.mp absent
  cases found : fs.lstat path with
  | error errno => exact ⟨errno, rfl⟩
  | ok node =>
      exfalso
      obtain ⟨place, resolved, there⟩ := ok_of_bind found
      have walked := walk_of_resolve resolved
      rw [origin, if_pos absolute, trail, names, List.cons_append] at walked
      generalize rest ++ (if path.getLast? = some slash then [[dot]] else []) = behind at walked
      generalize 42 * PATH_MAX = fuel, 40 = links at walked
      cases walks_of_walk walked with
      | here => exact absurd rfl proper.notDot
      | up => exact absurd rfl proper.notDots
      | missing dir notDot notDots limit absent =>
          rw [missing] at there
          cases there
      | down dir notDot notDots limit next => cases missing.symm.trans next
      | last dir notDot notDots limit next => cases missing.symm.trans next
      | link dir notDot notDots limit next => cases missing.symm.trans next

end Bare

/-- The path that `handle_remove` hands to `rm_r`, if it comes so far. -/
def removeTarget (libs : Externals) (env : Env) (server : Server) (token : Token) (path : CStr) : Option CStr :=
  match getUserPath libs path token with
  | none => none
  | some filepath =>
      let ret := (fileinfoFromFilename env.faults libs .infoLstat .infoOpen server.fs filepath FileInfo.zero).1
      if ret < 0 ∧ ret ≠ -2 then none else some filepath

section Requests

variable {libs : Externals} {env : Env} {server : Server} {addr : Nat} {hdr : MessageHdr} {path target : CStr}
  {payload : List Byte}

/-- Without a target an error is sent. -/
theorem handleRemove_none (none : removeTarget libs env server hdr.token (cString (payload ++ env.tail)) = none) :
    ∃ text, handleRemove libs env server (some addr) hdr (some payload) = (server, [sendError text]) := by
  rw [removeTarget] at none
  rw [handleRemove]
  cases found : getUserPath libs (cString (payload ++ env.tail)) hdr.token with
  | none => exact ⟨_, rfl⟩
  | some filepath =>
      rw [found] at none
      dsimp only at none ⊢
      split_ifs at none with failed
      rw [if_pos failed]
      exact ⟨_, rfl⟩

/-- With one it is removed, and an error is sent if `rm_r` fails. -/
theorem handleRemove_some (found : removeTarget libs env server hdr.token (cString (payload ++ env.tail)) = some target) :
    (handleRemove libs env server (some addr) hdr (some payload)).1.fs = (rmR env.faults server.fs.depth server.fs target).1 ∧
      ((∃ text, (handleRemove libs env server (some addr) hdr (some payload)).2 = [sendError text]) ↔
        ∃ errno, (rmR env.faults server.fs.depth server.fs target).2 = .error errno) := by
  rw [removeTarget] at found
  rw [handleRemove]
  cases named : getUserPath libs (cString (payload ++ env.tail)) hdr.token with
  | none =>
      rw [named] at found
      cases found
  | some filepath =>
      rw [named] at found
      dsimp only at found ⊢
      split_ifs at found with failed
      cases found
      rw [if_neg failed]
      generalize rmR env.faults server.fs.depth server.fs target = removed
      obtain ⟨fs, result⟩ := removed
      cases result with
      | error errno => exact ⟨rfl, fun _ => ⟨errno, rfl⟩, fun _ => ⟨strerror errno, rfl⟩⟩
      | ok done =>
          refine ⟨rfl, ?_, ?_⟩
          · rintro ⟨text, sent⟩
            cases sent
          · rintro ⟨errno, failed⟩
            cases failed

/-- A request that removes nothing and is answered with an error is one where nothing can be
removed. -/
theorem unremoved_iff (found : removeTarget libs env server hdr.token (cString (payload ++ env.tail)) = some target) :
    ((∃ text, (handleRemove libs env server (some addr) hdr (some payload)).2 = [sendError text]) ∧
      (handleRemove libs env server (some addr) hdr (some payload)).1.fs = server.fs) ↔
    Stuck env.faults server.fs server.fs.depth target := by
  obtain ⟨tree, answer⟩ := @handleRemove_some libs env server addr hdr target payload found
  rw [tree, answer]
  constructor
  · rintro ⟨-, kept⟩
    by_cases bare : server.fs.names [] = []
    · have named : getUserPath libs (cString (payload ++ env.tail)) hdr.token = some target := by
        rw [removeTarget] at found
        split at found
        · cases found
        · dsimp only at found
          split_ifs at found
          cases found
          assumption
      obtain ⟨x, more, route⟩ := getUserPath_route named
      obtain ⟨errno, failed⟩ := lstat_bare bare route.absolute route.names 
        (proper_of_mem_storagePlace List.mem_cons_self)
      rw [Fs.depth, Stuck]
      cases fault : env.faults .rmLstat target with
      | some errno => simp only [perform, fault]
      | none => simp only [perform, fault, failed]
    · exact stuck_of_rmR bare kept
  · intro stuck
    obtain ⟨errno, result⟩ := rmR_of_stuck stuck
    rw [result]
    exact ⟨⟨errno, rfl⟩, rfl⟩

end Requests

section Removing

variable (libs : Externals) (env : Env) (server : Server) (addr : Nat) (hdr : MessageHdr) (path : CStr) (behind : List Byte)

/-- What the whole path resolves to is handed to `rm_r`, or the request is answered with an
error and nothing is removed. -/
def RemovesWhole : Prop :=
  removeTarget libs env server hdr.token path = some (normalizePath (getUserRoot libs hdr.token ++ slash :: path)) ∨
    (∃ text, (handleRemove libs env server (some addr) hdr (some (path ++ 0 :: behind))).2 = [sendError text]) ∧
      (handleRemove libs env server (some addr) hdr (some (path ++ 0 :: behind))).1.fs = server.fs

/-- If what is kept of the path resolves to another one, which begins with the letters of the
user's root and about which `fileinfo_from_filename` has something to say, then nothing can be
removed there. -/
def RemoveCondition : Prop :=
  ∀ kept, kept = normalizePath (getUserRoot libs hdr.token ++ slash :: keptPath (PATH_MAX * 2) path) →
    kept ≠ normalizePath (getUserRoot libs hdr.token ++ slash :: path) →
    kept.take (getUserRoot libs hdr.token).length = getUserRoot libs hdr.token →
    (fileinfoFromFilename env.faults libs .infoLstat .infoOpen server.fs kept FileInfo.zero).1 ∈ [0, -2] →
    Stuck env.faults server.fs server.fs.depth kept

end Removing

section Removing

variable {libs : Externals} {env : Env} {server : Server} {addr : Nat} {hdr : MessageHdr} {path target : CStr}
  {behind : List Byte}

theorem fileinfoFromFilename_ret {faults : Faults} {lstatSite openSite : Site} {fs : Fs} {out : FileInfo} :
    (fileinfoFromFilename faults libs lstatSite openSite fs target out).1 ∈ [0, -1, -2, -3] := by
  rw [fileinfoFromFilename]
  split
  · simp
  · dsimp only
    split <;> simp
  · simp

theorem removeTarget_iff : removeTarget libs env server hdr.token path = some target ↔
    target = normalizePath (getUserRoot libs hdr.token ++ slash :: keptPath (PATH_MAX * 2) path) ∧
      target.take (getUserRoot libs hdr.token).length = getUserRoot libs hdr.token ∧
      (fileinfoFromFilename env.faults libs .infoLstat .infoOpen server.fs target FileInfo.zero).1 ∈ [0, -2] := by
  rw [removeTarget, getUserPath, snprintf_root libs hdr.token (by decide)]
  generalize normalizePath (getUserRoot libs hdr.token ++ slash :: keptPath (PATH_MAX * 2) path) = kept
  dsimp only
  by_cases starts : kept.take (getUserRoot libs hdr.token).length = getUserRoot libs hdr.token
  · rw [if_pos starts]
    have rets := @fileinfoFromFilename_ret libs kept env.faults .infoLstat .infoOpen server.fs FileInfo.zero
    have passes : ¬ ((fileinfoFromFilename env.faults libs .infoLstat .infoOpen server.fs kept FileInfo.zero).1 < 0 ∧
        (fileinfoFromFilename env.faults libs .infoLstat .infoOpen server.fs kept FileInfo.zero).1 ≠ -2) ↔
        (fileinfoFromFilename env.faults libs .infoLstat .infoOpen server.fs kept FileInfo.zero).1 ∈ [0, -2] := by
      generalize (fileinfoFromFilename env.faults libs .infoLstat .infoOpen server.fs kept FileInfo.zero).1 = ret at rets
      simp only [List.mem_cons, List.not_mem_nil, or_false] at rets ⊢
      rcases rets with rfl | rfl | rfl | rfl <;> decide
    constructor
    · intro found
      dsimp only at found
      split_ifs at found with failed
      cases found
      exact ⟨rfl, starts, passes.mp failed⟩
    · rintro ⟨rfl, -, ret⟩
      exact if_neg (passes.mpr ret)
  · rw [if_neg starts]
    constructor
    · exact fun found => by cases found
    · rintro ⟨rfl, starts', -⟩
      exact absurd starts' starts

/-- When `handle_remove` does not act on a path that has been cut off. -/
theorem removesWhole_iff (free : 0 ∉ path) :
    RemovesWhole libs env server addr hdr path behind ↔ RemoveCondition libs env server hdr path := by
  have text : cString (path ++ 0 :: behind ++ env.tail) = path := by
    rw [List.append_assoc, List.cons_append, cString_append free]
  constructor
  · rintro whole kept rfl other starts ret
    have found := removeTarget_iff.mpr ⟨rfl, starts, ret⟩
    rcases whole with target | unremoved
    · exact absurd (Option.some.inj (found.symm.trans target)) other
    · exact (unremoved_iff (by rw [text]; exact found)).mp unremoved
  · intro condition
    cases found : removeTarget libs env server hdr.token path with
    | none =>
        obtain ⟨message, answered⟩ := @handleRemove_none libs env server addr hdr (path ++ 0 :: behind) (by rw [text]; exact found)
        exact .inr ⟨⟨message, by rw [answered]⟩, by rw [answered]⟩
    | some target =>
        obtain ⟨named, starts, ret⟩ := removeTarget_iff.mp found
        by_cases whole : target = normalizePath (getUserRoot libs hdr.token ++ slash :: path)
        · exact .inl (by rw [found, whole])
        · exact .inr ((unremoved_iff (by rw [text]; exact found)).mpr (condition target named whole starts ret))

end Removing

/-! ### Directories -/

/-- The path that `create_directories_from_path` acts on: the last directory that it creates, or
what the loop goes to. -/
def mkdirTarget (faults : Faults) (fs : Fs) (root userPath : CStr) : CStr :=
  (madeBy faults fs (mkdirPaths root userPath)).getLast?.getD (normalizePath (snprintf PATH_MAX (root ++ slash :: userPath)))

/-- One path for each name behind the user's directory, or behind one beside it. -/
def userDirectories (libs : Externals) (token : Token) (path : CStr) : List CStr :=
  ways ((wholeNames libs token path).take (userPlace libs token).length)
    ((wholeNames libs token path).drop (userPlace libs token).length) (targetTail (getUserRoot libs token) path)

section Making

variable (libs : Externals) (env : Env) (server : Server) (addr : Nat) (hdr : MessageHdr) (path : CStr) (behind : List Byte)

/-- The last directory that is created is the one that the whole path resolves to, or the
request is answered with an error and nothing is created. -/
def MakesWhole : Prop :=
  components (mkdirTarget env.faults server.fs (getUserRoot libs hdr.token) path) = wholeNames libs hdr.token path ∨
    (∃ text, (handleMkdir libs env server (some addr) hdr (some (path ++ 0 :: behind))).2 = [sendError text]) ∧
      (handleMkdir libs env server (some addr) hdr (some (path ++ 0 :: behind))).1.fs = server.fs

/-- What is kept of the path begins with the letters of the user's root. -/
def Admitted : Prop :=
  (normalizePath (getUserRoot libs hdr.token ++ slash :: keptPath PATH_MAX path)).take (getUserRoot libs hdr.token).length =
    getUserRoot libs hdr.token

/-- If what is kept is admitted and everything on its way is there, then it resolves to the
same as the whole path. If the first directory that is not there can be made, then the last
one that can be made behind it is the one that the whole path resolves to. -/
structure MkdirCondition : Prop where
  standing : Admitted libs hdr path →
    (∀ dir ∈ userDirectories libs hdr.token (keptPath PATH_MAX path), Found env.faults server.fs dir) →
    wholeNames libs hdr.token (keptPath PATH_MAX path) = wholeNames libs hdr.token path
  missing : Admitted libs hdr path →
    ∀ before dir after, userDirectories libs hdr.token (keptPath PATH_MAX path) = before ++ dir :: after →
    (∀ d ∈ before, Found env.faults server.fs d) →
    (∃ fs, perform env.faults .mkdir dir (server.fs.mkdir dir) = .ok fs) →
    reach env.faults (components dir) ((wholeNames libs hdr.token (keptPath PATH_MAX path)).drop (components dir).length) =
      wholeNames libs hdr.token path

end Making

section Making

variable {libs : Externals} {env : Env} {server : Server} {addr : Nat} {hdr : MessageHdr} {path : CStr} {behind : List Byte}

/-- The user's root is one. -/
theorem isRoot_getUserRoot (libs : Externals) (token : Token) : IsRoot (getUserRoot libs token) := by
  have route := getUserRoot_route libs token
  have names : components (getUserRoot libs token) = userPlace libs token := route.names
  have proper : ∀ n ∈ userPlace libs token, n ≠ [dot] ∧ n ≠ [dot, dot] := fun n => plain_of_mem_userPlace
  have same : resolved (components (getUserRoot libs token)) = userPlace libs token := by
    rw [names, resolved, resolve, foldl_push_of_plain proper, List.nil_append]
  refine ⟨route.absolute, ?_, zero_not_mem_root libs token⟩
  rw [normalizePath_eq_joined route.absolute, same, getUserRoot_joined]
  · rw [same]
    exact List.cons_ne_nil _ _
  · intro up
    have last := (List.mem_filter.mp (List.mem_of_getLast? up)).1
    rw [names] at last
    exact (proper _ last).2 rfl

theorem keptPath_fits (libs : Externals) (token : Token) (path : CStr) :
    (getUserRoot libs token ++ slash :: keptPath PATH_MAX path).length < PATH_MAX := by
  rw [List.length_append, length_getUserRoot, List.length_cons, keptPath, List.length_take]
  have few : min (PATH_MAX - 51) path.length ≤ PATH_MAX - 51 := Nat.min_le_left _ _
  simp only [PATH_MAX] at few ⊢
  omega

/-- What is kept of a path is spelled within the limits. -/
theorem spelled_kept (libs : Externals) (token : Token) (path : CStr) :
    Spelled (wholeNames libs token (keptPath PATH_MAX path)) (targetTail (getUserRoot libs token) (keptPath PATH_MAX path)) :=
  spelled_target (isRoot_getUserRoot libs token) (keptPath_fits libs token path)

/-- The calls of the loop for a path of a client. -/
theorem mkdirPaths_admitted (free : 0 ∉ path) (admitted : Admitted libs hdr path) :
    mkdirPaths (getUserRoot libs hdr.token) path = userDirectories libs hdr.token (keptPath PATH_MAX path) := by
  have text := snprintf_root libs hdr.token (by decide : 51 ≤ PATH_MAX) path
  obtain ⟨x, more, names, calls⟩ := mkdirPaths_user free text.symm admitted
  have whole : wholeNames libs hdr.token (keptPath PATH_MAX path) =
      (storagePlace ++ [libs.uuidUnparse hdr.token ++ x]) ++ more := by
    rw [wholeNames, names, List.append_assoc, List.singleton_append]
  have length : (storagePlace ++ [libs.uuidUnparse hdr.token ++ x]).length = (userPlace libs hdr.token).length := rfl
  rw [calls, userDirectories, whole, List.take_left' length, List.drop_left' length, targetTail, targetNames]

/-- A request that creates nothing and is answered with an error is one that is rejected, or
one for which the first call that finds nothing fails. -/
theorem uncreated_iff (free : 0 ∉ path) :
    ((∃ text, (handleMkdir libs env server (some addr) hdr (some (path ++ 0 :: behind))).2 = [sendError text]) ∧
      (handleMkdir libs env server (some addr) hdr (some (path ++ 0 :: behind))).1.fs = server.fs) ↔
    (Admitted libs hdr path → madeBy env.faults server.fs (mkdirPaths (getUserRoot libs hdr.token) path) = [] ∧
      ∃ errno, (mkdirAll env.faults server.fs (mkdirPaths (getUserRoot libs hdr.token) path)).2 = .error errno) := by
  have text : cString (path ++ 0 :: behind ++ env.tail) = path := by
    rw [List.append_assoc, List.cons_append, cString_append free]
  rw [handleMkdir, text, ← mkdirAll_idle_iff, createDirectoriesFromPath_eq, snprintf_root libs hdr.token (by decide)]
  by_cases admitted : Admitted libs hdr path
  · have starts := admitted
    rw [Admitted] at starts
    rw [if_pos starts]
    generalize mkdirAll env.faults server.fs _ = called
    obtain ⟨fs, result⟩ := called
    cases result with
    | ok done =>
        constructor
        · rintro ⟨⟨text, sent⟩, -⟩
          cases sent
        · intro failed
          obtain ⟨-, errno, failed⟩ := failed admitted
          cases failed
    | error errno => exact ⟨fun same _ => ⟨same.2, errno, rfl⟩, fun same => ⟨⟨_, rfl⟩, (same admitted).1⟩⟩
  · have other := admitted
    rw [Admitted] at other
    rw [if_neg other]
    exact ⟨fun _ admitted' => absurd admitted' admitted, fun _ => ⟨⟨_, rfl⟩, rfl⟩⟩

/-- When `handle_mkdir` does not act on a path that has been cut off. -/
theorem makesWhole_iff (tree : Tree server.fs) (honest : Honest env.faults) (free : 0 ∉ path) :
    MakesWhole libs env server addr hdr path behind ↔ MkdirCondition libs env server hdr path := by
  rw [MakesWhole, uncreated_iff free]
  by_cases admitted : Admitted libs hdr path
  · have names : components (normalizePath (snprintf PATH_MAX (getUserRoot libs hdr.token ++ slash :: path))) =
        wholeNames libs hdr.token (keptPath PATH_MAX path) := by
      rw [snprintf_root libs hdr.token (by decide), components_normalizePath (isRoot_getUserRoot libs hdr.token).below]
      rfl
    have spelled := spelled_kept libs hdr.token path
    have whole := List.take_append_drop (userPlace libs hdr.token).length (wholeNames libs hdr.token (keptPath PATH_MAX path))
    rw [← whole] at spelled
    have last : ∀ before dir after fs, userDirectories libs hdr.token (keptPath PATH_MAX path) = before ++ dir :: after →
        (∀ d ∈ before, Found env.faults server.fs d) → perform env.faults .mkdir dir (server.fs.mkdir dir) = .ok fs →
        ∃ last, (madeBy env.faults server.fs (userDirectories libs hdr.token (keptPath PATH_MAX path))).getLast? = some last ∧
          components last = reach env.faults (components dir)
            ((wholeNames libs hdr.token (keptPath PATH_MAX path)).drop (components dir).length) := by
      intro before dir after fs split found made
      have made := getLast?_madeBy tree honest spelled split found made
      rwa [whole] at made
    rw [mkdirTarget, mkdirPaths_admitted free admitted]
    constructor
    · intro acts
      refine ⟨fun _ all => ?_, fun _ before dir after split found made => ?_⟩
      · have idle := @mkdirAll_found env.faults server.fs _ [] all
        have none := @madeBy_found env.faults server.fs _ [] all
        rw [List.append_nil] at idle none
        rcases acts with target | uncreated
        · rw [none] at target
          exact names.symm.trans target
        · obtain ⟨-, errno, failed⟩ := uncreated admitted
          rw [idle] at failed
          cases failed
      · obtain ⟨fs, made⟩ := made
        obtain ⟨dir', there, leads⟩ := last before dir after fs split found made
        rcases acts with target | uncreated
        · rw [there] at target
          exact leads.symm.trans target
        · rw [(uncreated admitted).1] at there
          cases there
    · intro condition
      rcases found_or_first env.faults server.fs (userDirectories libs hdr.token (keptPath PATH_MAX path)) with
        all | ⟨before, dir, after, split, found, missing⟩
      · have none := @madeBy_found env.faults server.fs _ [] all
        rw [List.append_nil] at none
        rw [none]
        exact .inl (names.trans (condition.standing admitted all))
      · cases result : perform env.faults .mkdir dir (server.fs.mkdir dir) with
        | ok fs =>
            obtain ⟨dir', there, leads⟩ := last before dir after fs split found result
            rw [there]
            exact .inl (leads.trans (condition.missing admitted before dir after split found ⟨fs, result⟩))
        | error errno =>
            have other : errno ≠ .EEXIST := by
              rintro rfl
              exact missing result
            refine .inr fun _ => ?_
            rw [split, madeBy_found found, mkdirAll_found found, madeBy_failed result other, mkdirAll_failed result other]
            exact ⟨rfl, errno, rfl⟩
  · exact ⟨fun _ => ⟨fun admitted' => absurd admitted' admitted, fun admitted' => absurd admitted' admitted⟩,
      fun _ => .inr fun admitted' => absurd admitted' admitted⟩

end Making

/-- When `handle_remove` and `handle_mkdir` do not act on a path that has been cut off: for every
tree, every token and every path of a client, and all failures of system calls. -/
theorem untruncated_iff {libs : Externals} {env : Env} {server : Server} {addr : Nat} {hdr : MessageHdr} {path : CStr}
    {behind : List Byte} (tree : Tree server.fs) (honest : Honest env.faults) (free : 0 ∉ path) :
    (RemovesWhole libs env server addr hdr path behind ↔ RemoveCondition libs env server hdr path) ∧
      (MakesWhole libs env server addr hdr path behind ↔ MkdirCondition libs env server hdr path) :=
  ⟨removesWhole_iff free, makesWhole_iff tree honest free⟩

/-- A server that holds the directory `a` of a user. -/
def folderHeld : Server where
  fs := ((boot [] []).fs.set (userPlace libraries someToken) .dir).set (userPlace libraries someToken ++ [cstr "a"]) .dir
  uman := umanEmpty

def folderHeader : MessageHdr := (request .removeReq someToken [] []).hdr

theorem folderHeld_tree : Tree folderHeld.fs := by
  have var := @Tree.made _ [] (cstr "var") (tree_bare []) rfl
  have storage := @Tree.made _ [cstr "var"] (cstr "minibox") var rfl
  have user := @Tree.made _ storagePlace (libraries.uuidUnparse someToken) storage (by decide)
  exact @Tree.made _ (userPlace libraries someToken) (cstr "a") user (by decide)

/-- A short path is acted upon as it is. -/
theorem untruncated_short : RemoveCondition libraries default folderHeld folderHeader (cstr "a/b") ∧
    MkdirCondition libraries default folderHeld folderHeader (cstr "a/b") := by
  have whole := @untruncated_iff libraries default folderHeld 0 folderHeader (cstr "a/b") [] folderHeld_tree
    (fun _ => (Option.some_ne_none _).symm) (by decide)
  have answered : (handleRemove libraries default folderHeld (some 0) folderHeader (some (cstr "a/b" ++ 0 :: []))).2 =
      [sendError (cstr "failed to get fileinfo from filename\n")] := by decide
  exact ⟨whole.1.mp (.inr ⟨⟨_, answered⟩, by decide⟩), whole.2.mp (.inl (by decide))⟩

/-- A path to `b` in `a` that is written with many slashes. -/
def slashedPath (k : Nat) : CStr := cstr "a" ++ (List.replicate k slash ++ cstr "b")

theorem zero_not_mem_slashedPath (k : Nat) : 0 ∉ slashedPath k := by
  intro zero
  rcases List.mem_append.mp zero with name | later
  · exact absurd name (by decide)
  · rcases List.mem_append.mp later with slashes | name
    · exact absurd (List.eq_of_mem_replicate slashes) (by decide)
    · exact absurd name (by decide)

theorem components_slashes_append (k : Nat) (path : CStr) : components (List.replicate k slash ++ path) = components path := by
  induction k with
  | zero => rfl
  | succ k ih =>
      rw [List.replicate_succ, List.cons_append]
      exact (@pieces_append _ slash _ [] _).trans ih

theorem components_slashedPath (root : CStr) (k : Nat) :
    components (root ++ slash :: slashedPath (k + 1)) = components (root ++ slash :: cstr "a/b") := by
  have path : slashedPath (k + 1) = cstr "a" ++ slash :: (List.replicate k slash ++ cstr "b") := by
    rw [slashedPath, List.replicate_succ, List.cons_append]
  have names : components (slashedPath (k + 1)) = components (cstr "a/b") := by
    rw [path, components, pieces_append, ← components, ← components, components_slashes_append]
    decide
  rw [components, pieces_append, ← components, ← components, names]
  exact (@pieces_append _ slash _ root _).symm

/-- The end is cut off. -/
theorem keptPath_slashedPath {k kept : Nat} (room : PATH_MAX * 2 - 51 = kept + 1) (long : kept ≤ k) :
    keptPath (PATH_MAX * 2) (slashedPath k) = cstr "a" ++ List.replicate kept slash := by
  have short : kept ≤ (List.replicate k slash).length := by
    rw [List.length_replicate]
    exact long
  have first : kept + 1 = (cstr "a").length + kept := Nat.add_comm _ _
  rw [keptPath, slashedPath, room, first, List.take_length_add_append, List.take_append_of_le_length short,
    List.take_replicate, Nat.min_eq_left long]

theorem normalizePath_congr {p q : CStr} (names : components p = components q) (start : p.head? = q.head?) :
    normalizePath p = normalizePath q := by
  rw [normalizePath, normalizePath, names, start]

/-- Instead of `b`, `a` is removed. -/
theorem removesWhole_slashed : (slashedPath 8145 ++ [0]).length ≤ 8192 ∧
    ¬ RemovesWhole libraries default folderHeld 0 folderHeader (slashedPath 8145) [] := by
  have root := isRoot_getUserRoot libraries folderHeader.token
  have kept : normalizePath (getUserRoot libraries folderHeader.token ++ slash :: keptPath (PATH_MAX * 2) (slashedPath 8145)) =
      normalizePath (getUserRoot libraries folderHeader.token ++ slash :: cstr "a") := by
    refine normalizePath_congr ?_ (root.below.trans root.below.symm)
    rw [@keptPath_slashedPath 8145 8140 rfl (by decide), ← List.cons_append, ← List.append_assoc, components_slashes]
  have whole : normalizePath (getUserRoot libraries folderHeader.token ++ slash :: slashedPath 8145) =
      normalizePath (getUserRoot libraries folderHeader.token ++ slash :: cstr "a/b") :=
    normalizePath_congr (components_slashedPath _ 8144) (root.below.trans root.below.symm)
  have length : (slashedPath 8145 ++ [0]).length = 8148 := by
    rw [List.length_append, slashedPath, List.length_append, List.length_append, List.length_replicate]
    decide
  refine ⟨by rw [length]; decide, fun removes => ?_⟩
  have condition := (removesWhole_iff (zero_not_mem_slashedPath 8145)).mp removes _ kept.symm
  have stuck := condition (by rw [whole]; decide) (by decide) (by decide)
  obtain ⟨errno, failed⟩ := rmR_of_stuck stuck
  have removed : (rmR (default : Env).faults folderHeld.fs.depth folderHeld.fs
    (normalizePath (getUserRoot libraries folderHeader.token ++ slash :: cstr "a"))).2 = .ok () := by decide
  rw [failed] at removed
  cases removed

end MiniDropbox
