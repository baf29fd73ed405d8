/-
The paths of a user: what `get_user_path` lets through, and where uploads go.

`getUserPath_iff` says which paths are let through: those that resolve into the user's
directory, or into one beside it whose name begins with the token. So containment holds
exactly where the second kind does not occur and the buffer does not cut the path off
(`contained_iff`). An upload goes to the last component of the client's name, as the path
of a download does, if the name has a slash (`namesAgree_iff`).
-/

import MiniDropbox.Footprint
import MiniDropbox.Spelling

namespace MiniDropbox

open Lexical

variable {libs : Externals} {token : Token} {raw path : CStr}

/-! ### Containment -/

/-- The names that the whole path of a client leads to. -/
def wholeNames (libs : Externals) (token : Token) (raw : CStr) : List CStr :=
  resolved (components (getUserRoot libs token ++ slash :: raw))

/-- The names that the path leads to as far as it fits the buffer of `get_user_path`. -/
def bufferNames (libs : Externals) (token : Token) (raw : CStr) : List CStr :=
  resolved (components (snprintf (PATH_MAX * 2) (getUserRoot libs token ++ slash :: raw)))

/-- Where the path that is returned leads. -/
theorem components_getUserPath (found : getUserPath libs raw token = some path) :
    components path = bufferNames libs token raw := by
  simp only [getUserPath] at found
  split_ifs at found
  cases found
  exact components_normalizePath (absolute_of_root (by decide) raw)

/-- Which paths are let through. -/
theorem getUserPath_iff : (getUserPath libs raw token).isSome ↔
    ∃ x more, bufferNames libs token raw = storagePlace ++ (libs.uuidUnparse token ++ x) :: more := by
  have absolute := @absolute_of_root libs token (PATH_MAX * 2) (by decide) raw
  constructor
  · intro found
    obtain ⟨path, found⟩ := Option.isSome_iff_exists.mp found
    obtain ⟨x, more, route⟩ := getUserPath_route found
    exact ⟨x, more, by rw [← components_getUserPath found, route.names]⟩
  · rintro ⟨x, more, names⟩
    obtain ⟨last, shape⟩ : ∃ last, normalizePath (snprintf (PATH_MAX * 2) (getUserRoot libs token ++ slash :: raw)) =
        joined slash (bufferNames libs token raw) ++ last := ⟨_, normalizePath_shape absolute⟩
    have text : joined slash (bufferNames libs token raw) ++ last =
        getUserRoot libs token ++ (x ++ (joined slash more ++ last)) := by
      rw [names, getUserRoot_storage]
      simp [joined]
    simp only [getUserPath, shape, text]
    rw [if_pos List.take_left]
    rfl

/-- A returned path lies in the user's directory, and a path that leads beside it is
rejected. -/
structure Contained (libs : Externals) (token : Token) (raw : CStr) : Prop where
  returned : ∀ path, getUserPath libs raw token = some path →
    userPlace libs token <+: components path ∧ LiesIn (getUserRoot libs token) path
  beside : ∀ name more, wholeNames libs token raw = storagePlace ++ name :: more →
    name ≠ libs.uuidUnparse token → getUserPath libs raw token = none

/-- What the buffer holds does not lead beside the user's directory to a name that begins
with the token, and if it leads into the directory the whole path does not lead beside it. -/
def ContainmentCondition (libs : Externals) (token : Token) (raw : CStr) : Prop :=
  ∀ x more, bufferNames libs token raw = storagePlace ++ (libs.uuidUnparse token ++ x) :: more →
    x = [] ∧ ∀ name more', wholeNames libs token raw = storagePlace ++ name :: more' →
      name = libs.uuidUnparse token

theorem userPlace_storage (libs : Externals) (token : Token) :
    userPlace libs token = storagePlace ++ [libs.uuidUnparse token] := rfl

/-- When `get_user_path` confines: exactly under the condition. -/
theorem contained_iff (libs : Externals) (token : Token) (raw : CStr) :
    Contained libs token raw ↔ ContainmentCondition libs token raw := by
  constructor
  · intro contained x more names
    obtain ⟨path, found⟩ := Option.isSome_iff_exists.mp (getUserPath_iff.mpr ⟨x, more, names⟩)
    constructor
    · obtain ⟨rest, inside⟩ := (contained.returned path found).1
      rw [components_getUserPath found, names, userPlace_storage, List.append_assoc] at inside
      have same := List.append_cancel_left inside
      have name := (List.cons.inj same).1
      exact (List.append_right_eq_self.mp name.symm)
    · intro name more' whole
      by_contra other
      cases found.symm.trans (contained.beside name more' whole other)
  · intro condition
    constructor
    · intro path found
      obtain ⟨x, more, names⟩ := getUserPath_iff.mp (Option.isSome_iff_exists.mpr ⟨path, found⟩)
      obtain ⟨rfl, -⟩ := condition x more names
      have inside : userPlace libs token <+: components path := by
        rw [components_getUserPath found, names, userPlace_storage, List.append_nil]
        exact ⟨more, by simp⟩
      exact ⟨inside, (liesIn_iff (getUserPath_writes found).1).mpr inside⟩
    · intro name more whole other
      rw [Option.eq_none_iff_forall_ne_some]
      intro path found
      obtain ⟨x, more', names⟩ := getUserPath_iff.mp (Option.isSome_iff_exists.mpr ⟨path, found⟩)
      exact other ((condition x more' names).2 name more whole)

/-- A directory beside the user's whose name begins with the token is let through. -/
theorem contained_extended :
    ¬ Contained libraries someToken (cstr "../" ++ libraries.uuidUnparse someToken ++ cstr "x") := by
  intro contained
  have found : (getUserPath libraries (cstr "../" ++ libraries.uuidUnparse someToken ++ cstr "x") someToken).map
      components = some (storagePlace ++ [libraries.uuidUnparse someToken ++ cstr "x"]) := by
    decide
  obtain ⟨path, returned, names⟩ := Option.map_eq_some_iff.mp found
  have inside := (contained.returned path returned).1
  rw [names] at inside
  exact absurd inside (by decide)

/-! ### Uploads and downloads -/

section Names

variable {f : CStr} {info : FileInfo} {behind : List Byte}

/-- The last component of a name. -/
def lastPart (name : CStr) : CStr := (name.reverse.takeWhile (· ≠ slash)).reverse

/-- The name of a file that a client can upload: its last component is one, and it fits the
buffers behind the user's directory. -/
structure Named (libs : Externals) (token : Token) (f : CStr) : Prop where
  clean : 0 ∉ f
  proper : Proper (lastPart f)
  short : (getUserRoot libs token ++ slash :: lastPart f).length < PATH_MAX

/-- An upload of the name writes to the path and to no other. -/
def WritesTo (libs : Externals) (token : Token) (f path : CStr) : Prop :=
  ∀ env server addr user hdr sock rest, ∀ info : FileInfo, server.uman.users[addr]? = some user →
    hdr.token = token → msgRecvPayload sock hdr.length sizeofFileInfo = .ok info.encode rest → info.Fits →
    info.filename = f → ∀ p, Event.fileRecv p ∈ (handleUpload libs env server (some addr) hdr sock).events → p = path

/-- Uploads and downloads agree on a name: its last component, directly in the user's
directory. -/
structure NamesAgree (libs : Externals) (token : Token) (f : CStr) : Prop where
  target : ∀ info behind, info.filename = f →
    uploadName libs token info behind = getUserRoot libs token ++ slash :: lastPart f
  written : WritesTo libs token f (getUserRoot libs token ++ slash :: lastPart f)
  fetched : getUserPath libs (lastPart f) token = some (getUserRoot libs token ++ slash :: lastPart f)
  inside : components (getUserRoot libs token ++ slash :: lastPart f) = userPlace libs token ++ [lastPart f]
  apart : ∀ g info info' behind behind', Named libs token g → info.filename = f → info'.filename = g →
    lastPart g ≠ lastPart f → uploadName libs token info' behind' ≠ uploadName libs token info behind

/-- The path an upload is stored at, if it fits. -/
theorem uploadName_of_named (named : Named libs token info.filename) :
    uploadName libs token info behind =
      getUserRoot libs token ++ if slash ∈ info.filename then slash :: lastPart info.filename else cstr "(null)" := by
  have root := length_getUserRoot libs token
  have short := named.short
  rw [List.length_append, List.length_cons, root] at short
  have text : getUserRoot libs token ++ printed (strrchr info.filename) = getUserRoot libs token ++
      if slash ∈ info.filename then slash :: lastPart info.filename else cstr "(null)" := by
    rw [strrchr]
    by_cases has : slash ∈ info.filename
    · rw [if_pos has, if_pos has]
      rfl
    · rw [if_neg has, if_neg has]
      rfl
  have fits : (getUserRoot libs token ++ printed (strrchr info.filename)).length < PATH_MAX := by
    rw [text, List.length_append, root]
    split_ifs
    · rw [List.length_cons]
      exact short
    · decide
  have whole : snprintf (PATH_MAX * 2) (getUserRoot libs token ++ printed (strrchr info.filename)) =
      getUserRoot libs token ++ printed (strrchr info.filename) :=
    List.take_of_length_le (Nat.le_trans (Nat.le_of_lt fits) (by decide))
  rw [uploadName, ← getUserRoot, whole, if_pos fits, text]

theorem uploadFinish_recv {server : Server} {addr : Nat} {place : Option Nat} {stats : FileRecvStats} :
    Event.fileRecv path ∉ (uploadFinish server addr place info stats).2 := by
  unfold uploadFinish
  dsimp only
  split_ifs
  all_goals simp [sendError]

theorem uploadAccept_recv {env : Env} {server next : Server} {addr : Nat} {user : User} {sock rest : Sock}
    {events : List Event}
    (returned : uploadAccept libs env server addr user token info behind sock = .returned next rest events) :
    Event.fileRecv path ∉ events := by
  unfold uploadAccept at returned
  split_ifs at returned with exceeds
  · cases returned
    simp [sendError]
  · dsimp only at returned
    split at returned
    · cases returned
    · split_ifs at returned
      cases returned
      simp [sendError]

/-- `handle_upload` hands that path to `file_recv`, and no other. -/
theorem handleUpload_recv {env : Env} {server : Server} {addr : Nat} {user : User} {hdr : MessageHdr}
    {sock rest : Sock} (record : server.uman.users[addr]? = some user)
    (received : msgRecvPayload sock hdr.length sizeofFileInfo = .ok info.encode rest) (fits : info.Fits)
    (met : Event.fileRecv path ∈ (handleUpload libs env server (some addr) hdr sock).events) :
    path = uploadName libs hdr.token info env.tail := by
  rw [handleUpload, uploadPrepare_of_received _ _ record fits received] at met
  have ends := @uploadAccept_ends libs env server addr user hdr.token info env.tail rest
  cases accepted : uploadAccept libs env server addr user hdr.token info env.tail rest with
  | blocked =>
      rw [accepted] at ends
      exact ends.elim
  | returned next sock events =>
      rw [accepted] at met
      exact absurd met (uploadAccept_recv accepted)
  | ready next place kept seq sock =>
      rw [accepted] at met ends
      obtain ⟨-, -, named, -⟩ := ends
      have opening : Event.fileRecv path ∈ [uploadRes seq, Event.fileRecv kept.filename] → path = kept.filename := by
        simp [uploadRes]
      have given : path = kept.filename := by
        dsimp only at met
        split at met
        · exact opening met
        · exact opening met
        · rcases List.mem_append.mp met with first | reply
          · exact opening first
          · exact absurd reply uploadFinish_recv
      rw [given, named]

theorem components_inside (proper : Proper f) :
    components (getUserRoot libs token ++ slash :: f) = userPlace libs token ++ [f] := by
  rw [components, pieces_append, getUserRoot_joined, pieces_joined fun _ => isName_of_mem_userPlace,
    pieces_of_isName proper.toIsName]

/-- `get_user_path` leaves a name in the user's directory as it is. -/
theorem getUserPath_name (proper : Proper f) (short : (getUserRoot libs token ++ slash :: f).length < PATH_MAX) :
    getUserPath libs f token = some (getUserRoot libs token ++ slash :: f) := by
  have whole : snprintf (PATH_MAX * 2) (getUserRoot libs token ++ slash :: f) = getUserRoot libs token ++ slash :: f :=
    List.take_of_length_le (Nat.le_trans (Nat.le_of_lt short) (by decide))
  have absolute := getUserRoot_absolute libs token (slash :: f)
  have plain : ∀ n ∈ components (getUserRoot libs token ++ slash :: f), n ≠ [dot] ∧ n ≠ [dot, dot] := by
    intro n mem
    rw [components_inside proper] at mem
    rcases List.mem_append.mp mem with root | name
    · exact plain_of_mem_userPlace root
    · rw [List.mem_singleton.mp name]
      exact ⟨proper.notDot, proper.notDots⟩
  have names : resolved (components (getUserRoot libs token ++ slash :: f)) = userPlace libs token ++ [f] := by
    rw [resolved, resolve, foldl_push_of_plain plain, components_inside proper]
    rfl
  have level : ¬ EndsUp (getUserRoot libs token ++ slash :: f) := by
    intro up
    exact (plain _ (List.mem_filter.mp (List.mem_of_getLast? up)).1).2 rfl
  have below : resolved (components (getUserRoot libs token ++ slash :: f)) ≠ [] := by
    rw [names]
    exact List.append_ne_nil_of_right_ne_nil _ (List.cons_ne_nil _ _)
  have normalized : normalizePath (getUserRoot libs token ++ slash :: f) = getUserRoot libs token ++ slash :: f := by
    rw [normalizePath_eq_joined absolute below level, names, joined_append, joined_singleton, getUserRoot_joined]
  simp only [getUserPath, whole, normalized, List.take_left, if_true]

/-- When uploads and downloads agree on a name: exactly if it has a slash. -/
theorem namesAgree_iff (named : Named libs token f) : NamesAgree libs token f ↔ slash ∈ f := by
  constructor
  · intro agree
    by_contra bare
    have target := agree.target { FileInfo.zero with filename := f } [] rfl
    rw [@uploadName_of_named libs token { FileInfo.zero with filename := f } [] named, if_neg bare] at target
    exact absurd (List.append_cancel_left target) (by simp [cstr, slash])
  · intro has
    have target : ∀ info behind, info.filename = f →
        uploadName libs token info behind = getUserRoot libs token ++ slash :: lastPart f := by
      rintro info behind rfl
      rw [uploadName_of_named named, if_pos has]
    refine ⟨target, ?_, getUserPath_name named.proper named.short, components_inside named.proper, ?_⟩
    · rintro env server addr user hdr sock rest info record rfl received fits name p met
      rw [handleUpload_recv record received fits met]
      exact target info env.tail name
    · rintro g info info' behind behind' other name rfl different same
      rw [target info behind name, uploadName_of_named other] at same
      split_ifs at same
      · exact different (List.cons.inj (List.append_cancel_left same)).2
      · exact absurd (List.append_cancel_left same) (by simp [cstr, slash])

theorem namesAgree_folder : NamesAgree libraries someToken (cstr "docs/report.txt") := by
  have named : Named libraries someToken (cstr "docs/report.txt") := by
    refine ⟨by decide, ⟨⟨by decide, by decide⟩, by decide, by decide⟩, ?_⟩
    decide
  exact (namesAgree_iff named).mpr (by decide)

/-- A plain name is stored beside the user's directory. -/
theorem namesAgree_plain : Named libraries someToken (cstr "report.txt") ∧
    ¬ NamesAgree libraries someToken (cstr "report.txt") := by
  have named : Named libraries someToken (cstr "report.txt") := by
    refine ⟨by decide, ⟨⟨by decide, by decide⟩, by decide, by decide⟩, ?_⟩
    decide
  refine ⟨named, fun agree => ?_⟩
  have target := agree.target { FileInfo.zero with filename := cstr "report.txt" } [] rfl
  exact absurd target (by decide)

end Names

end MiniDropbox
