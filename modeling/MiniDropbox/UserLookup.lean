/-
Looking users up by their token.

`umap_get` finds out that a key is on its chain and then returns the value of the
chain's first entry. A lookup is therefore right when the first put into the
bucket was given the value looked for, and the user manager, which gives every
token a user of its own, is right as long as no two registered tokens share a
bucket (`umapGet_right_iff`, `usersRight_iff`).
-/

import MiniDropbox.User

namespace MiniDropbox

variable {V : Type} {capacity : Nat} {puts : List (Token × V)}

/-- The first put into the bucket of a token. -/
def firstAt (capacity : Nat) (puts : List (Token × V)) (t : Token) : Option V :=
  (puts.find? fun put => hash put.1.1 % capacity = hash t.1 % capacity).map Prod.snd

theorem lookup_isSome_iff (puts : List (Token × V)) (t : Token) :
    (∃ v, puts.lookup t = some v) ↔ t ∈ puts.map Prod.fst := by
  induction puts with
  | nil => simp
  | cons put puts ih =>
      by_cases same : t = put.1
      · rw [List.lookup_cons, beq_iff_eq.mpr same]
        simp [same]
      · rw [List.lookup_cons, beq_eq_false_iff_ne.mpr same, List.map_cons, List.mem_cons, or_iff_right same]
        exact ih

/-- What a lookup returns, in terms of the puts. -/
theorem umapGet_firstAt {map : UserMap V} (represents : Represents capacity map puts) (t : Token) :
    umapGet map t = some (if t ∈ puts.map Prod.fst then firstAt capacity puts t else none) := by
  have head : (bucket capacity puts (hash t.1 % capacity)).head? =
      puts.find? fun put => hash put.1.1 % capacity = hash t.1 % capacity := by
    rw [← List.head?_filter]
    unfold bucket
    cases found : putsAt capacity puts (hash t.1 % capacity) with
    | nil => exact (congrArg List.head? found).symm
    | cons first later => exact (congrArg List.head? found).symm
  rw [umapGet_eq represents, head, firstAt]
  by_cases mem : t ∈ puts.map Prod.fst
  · rw [if_pos mem, if_pos ((mem_bucket_keys rfl).mpr mem)]
  · rw [if_neg mem, if_neg fun listed => mem ((mem_bucket_keys rfl).mp listed)]

/-- A lookup is right exactly when its token was never put or the first put into the
token's bucket was given the value of the first put of the token. -/
theorem umapGet_right_iff {map : UserMap V} (represents : Represents capacity map puts) (t : Token) :
    umapGet map t = some (puts.lookup t) ↔
      t ∉ puts.map Prod.fst ∨ firstAt capacity puts t = puts.lookup t := by
  rw [umapGet_firstAt represents, Option.some.injEq]
  by_cases mem : t ∈ puts.map Prod.fst
  · simp [mem]
  · have missing : puts.lookup t = none := by
      cases found : puts.lookup t with
      | none => rfl
      | some v => exact absurd ((lookup_isSome_iff puts t).mp ⟨v, found⟩) mem
    simp [mem, missing]

/-! ### Registered users -/

/-- The lookups of a user manager are right: a token yields no user or one with that
token, and different registered tokens yield different users. -/
def UsersRight (uman : UserManager) (tokens : List Token) : Prop :=
  (∀ t, ∃ found, umanGetUser uman t = some found ∧
    ∀ addr, found = some addr → ∃ user, uman.users[addr]? = some user ∧ user.token = t) ∧
  ∀ s ∈ tokens, ∀ t ∈ tokens, s ≠ t → umanGetUser uman s ≠ umanGetUser uman t

/-- Registering gives every token a user of its own and puts its address. -/
theorem represents_umanRegisterAll {uman : UserManager} {puts : List (Token × Nat)}
    (represents : Represents 256 uman.userMap puts) (tokens : List Token) :
    ∃ uman', umanRegisterAll uman tokens = some uman' ∧
      uman'.users = uman.users ++ tokens.map userInit ∧
        Represents 256 uman'.userMap (puts ++ tokens.zipIdx uman.users.length) := by
  induction tokens generalizing uman puts with
  | nil => exact ⟨uman, rfl, by simp, by simpa using represents⟩
  | cons token tokens ih =>
      obtain ⟨map, ret, called, kept⟩ := represents_umapPut represents token uman.users.length
      obtain ⟨uman', all, users, represents'⟩ :=
        @ih ⟨uman.users ++ [userInit token], map⟩ _ kept
      refine ⟨uman', ?_, ?_, ?_⟩
      · simp only [umanRegisterAll, umanRegisterUser, called, Option.bind_eq_bind, Option.bind_some]
        exact all
      · simp [users]
      · simpa [List.zipIdx_cons] using represents'

/-- What the manager returns for a registered token: the user of the first token
registered into its bucket. -/
theorem firstAt_zipIdx {tokens : List Token} {t : Token} (mem : t ∈ tokens) :
    ∃ addr first, firstAt 256 tokens.zipIdx t = some addr ∧ tokens[addr]? = some first ∧
      hash first.1 % 256 = hash t.1 % 256 := by
  obtain ⟨i, found⟩ := List.mem_iff_getElem?.mp mem
  have listed : (t, i) ∈ tokens.zipIdx := List.mem_zipIdx_iff_getElem?.mpr found
  cases search : tokens.zipIdx.find? fun put => hash put.1.1 % 256 = hash t.1 % 256 with
  | none =>
      have none_here := List.find?_eq_none.mp search (t, i) listed
      simp at none_here
  | some put =>
      have here := List.find?_some search
      have from_list := List.mem_zipIdx_iff_getElem?.mp (List.mem_of_find?_eq_some search)
      exact ⟨put.2, put.1, by rw [firstAt, search]; rfl, from_list, by simpa using here⟩

/-- Two tokens of one bucket yield the same user. -/
theorem umanGetUser_congr {uman : UserManager} {tokens : List Token} {s t : Token}
    (represents : Represents 256 uman.userMap tokens.zipIdx) (hs : s ∈ tokens) (ht : t ∈ tokens)
    (collide : hash s.1 % 256 = hash t.1 % 256) : umanGetUser uman s = umanGetUser uman t := by
  have keys : ∀ x, x ∈ tokens.zipIdx.map Prod.fst ↔ x ∈ tokens := fun x => by
    rw [List.zipIdx_map_fst]
  rw [umanGetUser, umanGetUser, umapGet_firstAt represents, umapGet_firstAt represents,
    if_pos ((keys s).mpr hs), if_pos ((keys t).mpr ht), firstAt, firstAt, collide]

/-- The lookups of a user manager are right exactly when no two registered tokens
share a bucket. -/
theorem usersRight_iff {uman : UserManager} {tokens : List Token}
    (users : uman.users = tokens.map userInit)
    (represents : Represents 256 uman.userMap tokens.zipIdx) :
    UsersRight uman tokens ↔
      ∀ s ∈ tokens, ∀ t ∈ tokens, hash s.1 % 256 = hash t.1 % 256 → s = t := by
  have keys : ∀ x, x ∈ tokens.zipIdx.map Prod.fst ↔ x ∈ tokens := fun x => by
    rw [List.zipIdx_map_fst]
  constructor
  · rintro ⟨-, apart⟩ s hs t ht collide
    by_contra different
    exact apart s hs t ht different (umanGetUser_congr represents hs ht collide)
  · intro separate
    have own : ∀ t ∈ tokens, ∃ addr, umanGetUser uman t = some (some addr) ∧ tokens[addr]? = some t := by
      intro t mem
      obtain ⟨addr, first, found, at_addr, collide⟩ := firstAt_zipIdx mem
      have same := separate first (List.mem_of_getElem? at_addr) t mem collide
      rw [same] at at_addr
      refine ⟨addr, ?_, at_addr⟩
      rw [umanGetUser, umapGet_firstAt represents, if_pos ((keys t).mpr mem), found]
    refine ⟨fun t => ?_, fun s hs t ht different same => ?_⟩
    · by_cases mem : t ∈ tokens
      · obtain ⟨addr, found, at_addr⟩ := own t mem
        refine ⟨some addr, found, ?_⟩
        rintro _ ⟨⟩
        exact ⟨userInit t, by simp [users, at_addr], rfl⟩
      · refine ⟨none, ?_, fun addr impossible => by cases impossible⟩
        rw [umanGetUser, umapGet_firstAt represents, if_neg fun listed => mem ((keys t).mp listed)]
    · obtain ⟨addr, found, at_addr⟩ := own s hs
      obtain ⟨addr', found', at_addr'⟩ := own t ht
      cases (found.symm.trans same).trans found'
      exact different (Option.some.inj (at_addr.symm.trans at_addr'))

/-- When lookups are right. On a map of any capacity, after any sequence of puts, the
lookup of a token yields the value of its first put (and -1 when there was none)
exactly when the first put into its bucket was given that same value; and after any
sequence of registrations the users are told apart exactly when no two registered
tokens share a bucket. -/
theorem userLookup_right_iff {V : Type} {capacity : Nat} (positive : 0 < capacity) (puts : List (Token × V)) (t : Token)
    (tokens : List Token) :
    (∃ map, umapPutAll (umapInit V capacity) puts = some map ∧
      (umapGet map t = some (puts.lookup t) ↔
        t ∉ puts.map Prod.fst ∨ firstAt capacity puts t = puts.lookup t)) ∧
    ∃ uman, umanRegisterAll umanEmpty tokens = some uman ∧
      (UsersRight uman tokens ↔
        ∀ s ∈ tokens, ∀ t ∈ tokens, hash s.1 % 256 = hash t.1 % 256 → s = t) := by
  constructor
  · obtain ⟨map, all, represents⟩ := represents_umapPutAll (represents_umapInit positive) puts
    exact ⟨map, all, umapGet_right_iff represents t⟩
  · have start : Represents 256 umanEmpty.userMap [] := represents_umapInit (by decide)
    obtain ⟨uman, all, users, represents⟩ := represents_umanRegisterAll start tokens
    exact ⟨uman, all, usersRight_iff users represents⟩

/-- Two tokens in different buckets. -/
def apartTokens : List Token :=
  [⟨List.replicate 14 0 ++ [1, 33], rfl⟩, ⟨List.replicate 14 0 ++ [1, 34], rfl⟩]

/-- They are told apart, on a map and as users. -/
theorem userLookup_apart :
    (∃ map, umapPutAll (umapInit Nat 256) apartTokens.zipIdx = some map ∧ umapGet map apartTokens[1] = some (some 1)) ∧
      ∃ uman, umanRegisterAll umanEmpty apartTokens = some uman ∧ UsersRight uman apartTokens := by
  obtain ⟨⟨map, puts, found⟩, uman, registered, right⟩ :=
    userLookup_right_iff (by decide : 0 < 256) apartTokens.zipIdx apartTokens[1] apartTokens
  exact ⟨⟨map, puts, found.mpr (.inr (by decide))⟩, uman, registered, right.mpr (by decide)⟩

/-- Two tokens with the same hash. -/
def collidingTokens : List Token :=
  [⟨List.replicate 14 0 ++ [1, 33], rfl⟩, ⟨List.replicate 14 0 ++ [2, 0], rfl⟩]

/-- On a map that holds both, each with its own value, the lookup of the second
yields the value of the first; registered as users, both obtain the same record. -/
theorem userLookup_collision :
    (∃ map, umapPutAll (umapInit Nat 256) collidingTokens.zipIdx = some map ∧
      umapGet map collidingTokens[1] = some (some 0) ∧
        collidingTokens.zipIdx.lookup collidingTokens[1] = some 1) ∧
    ∃ uman, umanRegisterAll umanEmpty collidingTokens = some uman ∧
      umanGetUser uman collidingTokens[0] = some (some 0) ∧
        umanGetUser uman collidingTokens[1] = some (some 0) ∧
          ¬ UsersRight uman collidingTokens := by
  refine ⟨⟨_, rfl, by decide, by decide⟩, _, rfl, by decide,
    by decide, ?_⟩
  rintro ⟨-, apart⟩
  exact apart collidingTokens[0] (by decide) collidingTokens[1] (by decide) (by decide)
    (by decide)

end MiniDropbox
