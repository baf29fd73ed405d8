/-
Start-up: `uman_init` (`user_manager.c`).

The names in the storage directory are parsed one after the other into a local token,
which is registered. A name that is no UUID is reported as skipped, but its turn goes on
to the registration too, with whatever the local token holds.

* `umanLoad_eq` — the registrations are those of the tokens parsed, and of the local token
  for each name that is rejected.
* `startup_iff` — the stored users are loaded, and nobody else, exactly when every name is
  a UUID; the tokens registered are those stored exactly when, for each name that is not,
  the local token holds one that is stored.
-/

import MiniDropbox.UserLookup

namespace MiniDropbox

/-- `uuid_parse` of libuuid: `none` when it returns -1, and then it does not write its
output. -/
structure UuidParse where
  parse : CStr → Option Token
  length_parse : ∀ name t, parse name = some t → name.length = 36

/-- An entry of the storage directory, and what the local `token` contains when its turn
comes. -/
structure StoredEntry where
  name : CStr
  unassigned : Token

/-- The entry is the directory itself or its parent. -/
def StoredEntry.IsDots (entry : StoredEntry) : Prop := entry.name = cstr "." ∨ entry.name = cstr ".."

instance (entry : StoredEntry) : Decidable entry.IsDots := inferInstanceAs (Decidable (_ ∨ _))

/-- The token an entry's turn registers. -/
def StoredEntry.token (uuid : UuidParse) (entry : StoredEntry) : Token :=
  (uuid.parse entry.name).getD entry.unassigned

/-- The loop of `uman_init`, with fresh links null. -/
def umanLoad (uuid : UuidParse) (uman : UserManager) : List StoredEntry → Option UserManager
  | [] => some uman
  | entry :: listing =>
      if entry.IsDots then umanLoad uuid uman listing
      else (umanRegisterUser none uman (entry.token uuid)).bind fun next => umanLoad uuid next listing

/-- Mirrors `uman_init`; there is no listing when `opendir` fails. -/
def umanInit (uuid : UuidParse) : Option (List StoredEntry) → Option UserManager
  | none => some umanEmpty
  | some listing => umanLoad uuid umanEmpty listing

/-- After start-up a token has a user exactly when some name parses to it. -/
def FindsStored (uuid : UuidParse) (listing : List StoredEntry) : Prop :=
  ∃ uman, umanInit uuid (some listing) = some uman ∧
    ∀ t, (∃ addr, umanGetUser uman t = some (some addr)) ↔ ∃ entry ∈ listing, uuid.parse entry.name = some t

/-- The turn of a name that `uuid_parse` rejects leaves the users as they are. -/
def SkipsRejected (uuid : UuidParse) (listing : List StoredEntry) : Prop :=
  ∀ before entry, before ++ [entry] <+: listing → uuid.parse entry.name = none →
    umanInit uuid (some (before ++ [entry])) = umanInit uuid (some before)

/-- The entries whose name is rejected. -/
def rejected (uuid : UuidParse) (listing : List StoredEntry) : List StoredEntry :=
  listing.filter fun entry => ¬ entry.IsDots ∧ (uuid.parse entry.name).isNone

/-- The tokens that are registered. -/
def loaded (uuid : UuidParse) (listing : List StoredEntry) : List Token :=
  (listing.filter fun entry => ¬ entry.IsDots).map (StoredEntry.token uuid)

variable {uuid : UuidParse} {listing : List StoredEntry}

theorem umanLoad_eq (uman : UserManager) : umanLoad uuid uman listing = umanRegisterAll uman (loaded uuid listing) := by
  induction listing generalizing uman with
  | nil => rfl
  | cons entry listing ih =>
      by_cases dots : entry.IsDots
      · rw [umanLoad, if_pos dots, ih, loaded, loaded, List.filter_cons_of_neg (by simpa using dots)]
      · rw [umanLoad, if_neg dots, loaded, List.filter_cons_of_pos (by simpa using dots), List.map_cons,
          umanRegisterAll]
        cases umanRegisterUser none uman (entry.token uuid) with
        | none => rfl
        | some next => exact ih next

/-- Start-up returns, and the tokens with a user are those registered. -/
theorem umanInit_loaded (uuid : UuidParse) (listing : List StoredEntry) :
    ∃ uman, umanInit uuid (some listing) = some uman ∧
      uman.users.length = (loaded uuid listing).length ∧
        ∀ t, (∃ addr, umanGetUser uman t = some (some addr)) ↔ t ∈ loaded uuid listing := by
  have start : Represents 256 umanEmpty.userMap [] := represents_umapInit (by decide)
  obtain ⟨uman, all, users, represents⟩ := represents_umanRegisterAll start (loaded uuid listing)
  refine ⟨uman, by rw [umanInit, umanLoad_eq]; exact all, by simp [users, umanEmpty], fun t => ?_⟩
  have keys : t ∈ (loaded uuid listing).zipIdx.map Prod.fst ↔ t ∈ loaded uuid listing := by
    rw [List.zipIdx_map_fst]
  rw [umanGetUser, umapGet_firstAt represents]
  change (∃ addr, some (if t ∈ (loaded uuid listing).zipIdx.map Prod.fst then
    firstAt 256 (loaded uuid listing).zipIdx t else none) = some (some addr)) ↔ _
  by_cases mem : t ∈ loaded uuid listing
  · obtain ⟨addr, -, found, -⟩ := firstAt_zipIdx mem
    rw [if_pos (keys.mpr mem), found]
    exact iff_of_true ⟨addr, rfl⟩ mem
  · rw [if_neg fun listed => mem (keys.mp listed)]
    refine iff_of_false ?_ mem
    rintro ⟨addr, impossible⟩
    cases impossible

/-- A name that parses is neither the directory nor its parent. -/
theorem not_isDots_of_parse {entry : StoredEntry} {t : Token} (parses : uuid.parse entry.name = some t) :
    ¬ entry.IsDots := by
  have length := uuid.length_parse _ _ parses
  rintro (dot | dots)
  · rw [dot] at length
    revert length
    decide
  · rw [dots] at length
    revert length
    decide

theorem mem_rejected {entry : StoredEntry} : entry ∈ rejected uuid listing ↔
    entry ∈ listing ∧ ¬ entry.IsDots ∧ uuid.parse entry.name = none := by
  simp [rejected, List.mem_filter]

/-- Registered are the tokens stored, and what the local token holds for a rejected name. -/
theorem mem_loaded {t : Token} : t ∈ loaded uuid listing ↔
    (∃ entry ∈ listing, uuid.parse entry.name = some t) ∨
      ∃ entry ∈ rejected uuid listing, entry.unassigned = t := by
  simp only [loaded, List.mem_map, List.mem_filter, decide_eq_true_eq]
  constructor
  · rintro ⟨entry, ⟨mem, proper⟩, rfl⟩
    cases parses : uuid.parse entry.name with
    | none => exact .inr ⟨entry, mem_rejected.mpr ⟨mem, proper, parses⟩, by rw [StoredEntry.token, parses]; rfl⟩
    | some t => exact .inl ⟨entry, mem, by rw [StoredEntry.token, parses]; rfl⟩
  · rintro (⟨entry, mem, parses⟩ | ⟨entry, mem, rfl⟩)
    · exact ⟨entry, ⟨mem, not_isDots_of_parse parses⟩, by rw [StoredEntry.token, parses]; rfl⟩
    · obtain ⟨mem, proper, fails⟩ := mem_rejected.mp mem
      exact ⟨entry, ⟨mem, proper⟩, by rw [StoredEntry.token, fails]; rfl⟩

/-- The tokens with a user are those stored exactly when the local token holds a stored
one for each name that is rejected. -/
theorem findsStored_iff : FindsStored uuid listing ↔
    ∀ entry ∈ rejected uuid listing, ∃ stored ∈ listing, uuid.parse stored.name = some entry.unassigned := by
  obtain ⟨uman, started, -, users⟩ := umanInit_loaded uuid listing
  constructor
  · rintro ⟨uman', started', finds⟩ entry mem
    cases started.symm.trans started'
    exact (finds _).mp ((users _).mpr (mem_loaded.mpr (.inr ⟨entry, mem, rfl⟩)))
  · intro held
    refine ⟨uman, started, fun t => ?_⟩
    rw [users, mem_loaded]
    constructor
    · rintro (stored | ⟨entry, mem, rfl⟩)
      · exact stored
      · exact held entry mem
    · exact .inl

theorem loaded_append (listing more : List StoredEntry) :
    loaded uuid (listing ++ more) = loaded uuid listing ++ loaded uuid more := by
  rw [loaded, List.filter_append, List.map_append, loaded, loaded]

/-- Rejected names are skipped exactly when there are none. -/
theorem skipsRejected_iff : SkipsRejected uuid listing ↔ rejected uuid listing = [] := by
  constructor
  · intro skips
    rw [List.eq_nil_iff_forall_not_mem]
    intro entry mem
    obtain ⟨among, proper, fails⟩ := mem_rejected.mp mem
    obtain ⟨before, behind, rfl⟩ := List.append_of_mem among
    have same := skips before entry ⟨behind, by simp⟩ fails
    obtain ⟨uman, started, count, -⟩ := umanInit_loaded uuid before
    obtain ⟨uman', started', count', -⟩ := umanInit_loaded uuid (before ++ [entry])
    have one : loaded uuid [entry] = [entry.token uuid] := by simp [loaded, proper]
    rw [same] at started'
    cases started.symm.trans started'
    rw [loaded_append, one, List.length_append, List.length_singleton, ← count] at count'
    omega
  · intro none_rejected before entry split fails
    have among : entry ∈ listing := split.subset (List.mem_append_right _ (List.mem_singleton_self entry))
    have dots : entry.IsDots := by
      by_contra proper
      have mem := mem_rejected.mpr ⟨among, proper, fails⟩
      rw [none_rejected] at mem
      cases mem
    have nothing : loaded uuid [entry] = [] := by simp [loaded, dots]
    rw [umanInit, umanInit, umanLoad_eq, umanLoad_eq, loaded_append, nothing, List.append_nil]

/-- Start-up loads exactly the stored users, and skips the names that are rejected, if and
only if no name is rejected; the tokens with a user are those stored if and only if, for
each name that is rejected, the local token holds a stored one. -/
theorem startup_iff (uuid : UuidParse) (listing : List StoredEntry) :
    (FindsStored uuid listing ∧ SkipsRejected uuid listing ↔ rejected uuid listing = []) ∧
      (FindsStored uuid listing ↔ ∀ entry ∈ rejected uuid listing,
        ∃ stored ∈ listing, uuid.parse stored.name = some entry.unassigned) := by
  refine ⟨⟨fun both => skipsRejected_iff.mp both.2, fun nothing => ⟨?_, skipsRejected_iff.mpr nothing⟩⟩,
    findsStored_iff⟩
  rw [findsStored_iff, nothing]
  exact List.forall_mem_nil _

/-! ### The parser of libuuid -/

/-- The value of a hexadecimal digit, in either case. -/
def hexValue (c : Byte) : Option Nat :=
  if 48 ≤ c ∧ c ≤ 57 then some (c.toNat - 48)
  else if 97 ≤ c ∧ c ≤ 102 then some (c.toNat - 87)
  else if 65 ≤ c ∧ c ≤ 70 then some (c.toNat - 55)
  else none

/-- The bytes written as pairs of digits. -/
def parseHex : List Byte → Option (List Byte)
  | [] => some []
  | [_] => none
  | high :: low :: rest =>
      (hexValue high).bind fun h => (hexValue low).bind fun l =>
        (parseHex rest).map fun bytes => UInt8.ofNat (16 * h + l) :: bytes

/-- The text form of a UUID without its dashes. -/
def dashless (name : CStr) : CStr :=
  name.take 8 ++ (name.drop 9).take 4 ++ (name.drop 14).take 4 ++ (name.drop 19).take 4 ++ name.drop 24

/-- `uuid_parse` as libuuid documents it: 36 characters, dashes in their four places,
digits in the others. -/
def parseUuid (name : CStr) : Option Token :=
  if name.length = 36 ∧ ∀ i ∈ [8, 13, 18, 23], name[i]? = some 45 then
    (parseHex (dashless name)).bind fun bytes => if size : bytes.length = 16 then some ⟨bytes, size⟩ else none
  else none

def uuidParse : UuidParse where
  parse := parseUuid
  length_parse name t parses := by
    unfold parseUuid at parses
    split_ifs at parses with formed
    exact formed.1

theorem hexValue_hexDigit {n : Nat} (small : n < 16) : hexValue (hexDigit n) = some n := by
  interval_cases n <;> decide

theorem parseHex_hexBytes (bytes : List Byte) : parseHex (hexBytes bytes) = some bytes := by
  induction bytes with
  | nil => rfl
  | cons byte bytes ih =>
      have below := byte.toNat_lt
      have digits : hexBytes (byte :: bytes) =
          hexDigit (byte.toNat / 16) :: hexDigit (byte.toNat % 16) :: hexBytes bytes := rfl
      rw [digits, parseHex, hexValue_hexDigit (by omega), hexValue_hexDigit (by omega), ih]
      simp only [Option.bind_some, Option.map_some, Nat.div_add_mod, UInt8.ofNat_toNat]

theorem hexBytes_append (xs ys : List Byte) : hexBytes (xs ++ ys) = hexBytes xs ++ hexBytes ys :=
  List.flatMap_append

theorem dashless_eq {a b c d e : List Byte} (ha : a.length = 8) (hb : b.length = 4) (hc : c.length = 4)
    (hd : d.length = 4) :
    dashless (a ++ 45 :: b ++ 45 :: c ++ 45 :: d ++ 45 :: e) = a ++ b ++ c ++ d ++ e := by
  have nothing : ∀ {l : List Byte} {n : Nat}, l.length ≤ n → l.drop n = [] := List.drop_eq_nil_of_le
  simp (disch := omega) [dashless, List.drop_append, ha, hb, hc, hd, nothing]

/-- A directory that is named after a token parses to it. -/
theorem parse_unparse (t : Token) : parseUuid (unparse t) = some t := by
  have length := length_hexBytes
  have size := t.2
  have formed : (unparse t).length = 36 ∧ ∀ i ∈ [8, 13, 18, 23], (unparse t)[i]? = some 45 := by
    refine ⟨length_unparse t, ?_⟩
    simp [unparse, List.getElem?_append, length, size]
  have digits : dashless (unparse t) = hexBytes t.1 := by
    rw [unparse, dashless_eq (by simp [length, size]) (by simp [length, size]) (by simp [length, size])
      (by simp [length, size]), ← hexBytes_append, ← hexBytes_append, ← hexBytes_append, ← hexBytes_append]
    simp only [List.append_assoc, fields_append]
  rw [parseUuid, if_pos formed, digits, parseHex_hexBytes, Option.bind_some, dif_pos size]

/-- A restart finds the users whose directories are there. -/
theorem startup_directories (directories : List (Token × Token)) :
    ∃ uman, umanInit uuidParse (some (directories.map fun d => ⟨unparse d.1, d.2⟩)) = some uman ∧
      ∀ t, (∃ addr, umanGetUser uman t = some (some addr)) ↔ t ∈ directories.map Prod.fst := by
  obtain ⟨uman, started, -, users⟩ := umanInit_loaded uuidParse (directories.map fun d => ⟨unparse d.1, d.2⟩)
  refine ⟨uman, started, fun t => ?_⟩
  have parses : ∀ d : Token × Token, uuidParse.parse (unparse d.1) = some d.1 := fun d => parse_unparse d.1
  rw [users, mem_loaded]
  constructor
  · rintro (⟨entry, mem, parsed⟩ | ⟨entry, mem, rfl⟩)
    · obtain ⟨d, among, rfl⟩ := List.mem_map.mp mem
      cases (parses d).symm.trans parsed
      exact List.mem_map_of_mem among
    · obtain ⟨listed, -, fails⟩ := mem_rejected.mp mem
      obtain ⟨d, -, rfl⟩ := List.mem_map.mp listed
      cases (parses d).symm.trans fails
  · intro mem
    obtain ⟨d, among, rfl⟩ := List.mem_map.mp mem
    exact .inl ⟨_, List.mem_map_of_mem among, parses d⟩

/-- A stray file, found before any user. -/
def strayListing : List StoredEntry := [⟨cstr "notes", Token.null⟩]

/-- Its turn registers what the local token happens to hold. -/
theorem startup_stray : ¬ (FindsStored uuidParse strayListing ∧ SkipsRejected uuidParse strayListing) := by
  rintro ⟨finds, -⟩
  obtain ⟨stored, mem, parses⟩ := findsStored_iff.mp finds ⟨cstr "notes", Token.null⟩
    (mem_rejected.mpr ⟨List.mem_cons_self, by decide, by decide⟩)
  rw [List.mem_singleton.mp mem] at parses
  revert parses
  decide

end MiniDropbox
