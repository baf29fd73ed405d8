/-
The representation invariant of the user map (`user_map.c`).

`umap_put` looks for its key in the first entry of the bucket only, and then appends
behind the last one. So a key is refused when it is repeated at the head of its chain,
and entered once more when it is repeated behind the head.

* `umapPutAll_sound` — while only heads are repeated, each key has one entry in the chain
  its hash leads to, and the count is that of the distinct keys.
* `mapInvariant_iff` — the map keeps its invariant, and refuses the keys it has, exactly
  in the sequences of puts in which no key behind the head of its chain is repeated.
-/

import Mathlib.Data.List.Dedup
import Mathlib.Data.List.Induction
import MiniDropbox.UserMap

namespace MiniDropbox

variable {V : Type}

/-- What the chain of a bucket holds, from its head to the null link. -/
def UserMap.Chained (map : UserMap V) (idx : Nat) (pairs : List (Token × V)) : Prop :=
  ∃ addrs, Chain.Linked map.links (map.entries.getD idx none) addrs ∧ addrs.map map.pair = pairs.map some

/-- Some chain has an entry with the key. -/
def UserMap.Has (map : UserMap V) (key : Token) : Prop :=
  ∃ idx < map.capacity, ∃ pairs, map.Chained idx pairs ∧ key ∈ pairs.map Prod.fst

/-- Every chain ends and holds entries of its own bucket, no key occurs twice in the whole
map, and the count is that of the distinct keys put. -/
structure MapSound (map : UserMap V) (puts : List (Token × V)) : Prop where
  chains : ∃ pairs : Nat → List (Token × V), (∀ idx < map.capacity, map.Chained idx (pairs idx)) ∧
    (∀ idx < map.capacity, ∀ put ∈ pairs idx, umapKeyToIndex map put.1 = idx) ∧
      (((List.range map.capacity).flatMap pairs).map Prod.fst).Nodup
  count : map.count = (puts.map Prod.fst).dedup.length

/-- A put returns -1 exactly when the key is in the map, and leaves entries and count as
they are then. -/
def RefusesPresent (map : UserMap V) (put : Token × V) : Prop :=
  ∃ map' ret, umapPut none map put.1 put.2 = some (map', ret) ∧ (ret = -1 ↔ map.Has put.1) ∧
    (ret = -1 → map'.count = map.count ∧
      ∀ idx < map.capacity, ∀ pairs, map'.Chained idx pairs ↔ map.Chained idx pairs)

/-- The map is sound at every point of a sequence of puts, and each put treats the keys
it has as it should. -/
def KeepsMap (capacity : Nat) (puts : List (Token × V)) : Prop :=
  ∀ before, before <+: puts → ∃ map, umapPutAll (umapInit V capacity) before = some map ∧
    MapSound map before ∧ ∀ put, before ++ [put] <+: puts → RefusesPresent map put

/-- The first key put into the bucket of a key. -/
def headKey (capacity : Nat) (puts : List (Token × V)) (key : Token) : Option Token :=
  (putsAt capacity puts (hash key.1 % capacity)).head?.map Prod.fst

/-- A key that is put again was the first one put into its bucket. -/
def RepeatsHeads (capacity : Nat) (puts : List (Token × V)) : Prop :=
  ∀ before put, before ++ [put] <+: puts → put.1 ∈ before.map Prod.fst →
    headKey capacity before put.1 = some put.1

variable {capacity : Nat} {map : UserMap V} {puts : List (Token × V)} {key : Token} {value : V}

/-! ### What the chains hold -/

theorem headKey_eq (capacity : Nat) (puts : List (Token × V)) (key : Token) :
    (bucket capacity puts (hash key.1 % capacity)).head?.map Prod.fst = headKey capacity puts key := by
  unfold headKey bucket
  cases putsAt capacity puts (hash key.1 % capacity) with
  | nil => rfl
  | cons first later => rfl

theorem mem_of_headKey (head : headKey capacity puts key = some key) : key ∈ puts.map Prod.fst := by
  rw [← headKey_eq] at head
  obtain ⟨first, found, same⟩ := Option.map_eq_some_iff.mp head
  rw [← mem_bucket_keys rfl]
  exact List.mem_map.mpr ⟨first, List.mem_of_head? found, same⟩

theorem pairs_unique {addrs : List Nat} {first second : List (Token × V)}
    (holds : addrs.map map.pair = first.map some) (holds' : addrs.map map.pair = second.map some) :
    first = second :=
  List.map_injective_iff.mpr (Option.some_injective _) (holds.symm.trans holds')

/-- In a table that holds a sequence of puts a chain holds its bucket and nothing else. -/
theorem Represents.chained_iff (represents : Represents capacity map puts) {idx : Nat}
    (below : idx < capacity) {pairs : List (Token × V)} :
    map.Chained idx pairs ↔ pairs = bucket capacity puts idx := by
  obtain ⟨addrs, linked, holds⟩ := represents.buckets idx below
  constructor
  · rintro ⟨addrs', linked', holds'⟩
    cases linked.unique linked'
    exact pairs_unique holds' holds
  · rintro rfl
    exact ⟨addrs, linked, holds⟩

/-- The map has exactly the keys put. -/
theorem Represents.has_iff (represents : Represents capacity map puts) :
    map.Has key ↔ key ∈ puts.map Prod.fst := by
  have index := represents.index_lt key
  rw [umapKeyToIndex, represents.width] at index
  constructor
  · rintro ⟨idx, below, pairs, chained, mem⟩
    rw [represents.width] at below
    rw [represents.chained_iff below] at chained
    subst chained
    obtain ⟨put, among, rfl⟩ := List.mem_map.mp mem
    exact (mem_bucket_keys (bucket_index among)).mp mem
  · intro mem
    refine ⟨hash key.1 % capacity, by rw [represents.width]; exact index, _,
      (represents.chained_iff index).mpr rfl, (mem_bucket_keys rfl).mpr mem⟩

/-! ### One put -/

/-- A put treats the keys of the map as it should exactly when its key is new or the
first one of its bucket. -/
theorem Represents.refusesPresent_iff (represents : Represents capacity map puts) (put : Token × V) :
    RefusesPresent map put ↔
      (put.1 ∈ puts.map Prod.fst → headKey capacity puts put.1 = some put.1) := by
  obtain ⟨map', ret, called, kept, returned⟩ := umapPut_returns represents put.1 put.2 fun _ => rfl
  rw [headKey_eq] at returned
  constructor
  · rintro ⟨map'', ret', called', refused, -⟩ present
    cases called.symm.trans called'
    rcases returned with ⟨head, -⟩ | ⟨-, zero, -⟩
    · exact head
    · have := refused.mpr (represents.has_iff.mpr present)
      omega
  · intro heads
    refine ⟨map', ret, called, ?_, ?_⟩
    · rw [represents.has_iff]
      rcases returned with ⟨head, rfl, -⟩ | ⟨other, rfl, -⟩
      · exact iff_of_true rfl (mem_of_headKey head)
      · exact iff_of_false (by decide) fun present => other (heads present)
    · intro refused
      rcases returned with ⟨head, -, count⟩ | ⟨-, zero, -⟩
      · refine ⟨count, fun idx below pairs => ?_⟩
        rw [represents.width] at below
        rw [represents.chained_iff below, kept.chained_iff below]
        by_cases here : hash put.1.1 % capacity = idx
        · subst here
          rw [← headKey_eq] at head
          cases holding : bucket capacity puts (hash put.1.1 % capacity) with
          | nil =>
              rw [holding] at head
              cases head
          | cons first rest =>
              rw [holding] at head
              rw [bucket_snoc rfl holding, if_pos (Option.some.inj head)]
        · rw [bucket_snoc_other here]
      · omega

/-! ### Sequences of puts -/

theorem umapPutAll_snoc (map : UserMap V) (puts : List (Token × V)) (put : Token × V) :
    umapPutAll map (puts ++ [put]) =
      (umapPutAll map puts).bind fun next => (umapPut none next put.1 put.2).map Prod.fst := by
  induction puts generalizing map with
  | nil =>
      rw [List.nil_append, umapPutAll, umapPutAll, Option.bind_some]
      cases umapPut none map put.1 put.2 <;> rfl
  | cons first puts ih =>
      rw [List.cons_append, umapPutAll, umapPutAll]
      cases umapPut none map first.1 first.2 with
      | none => rfl
      | some out => exact ih out.1

theorem RepeatsHeads.restrict {before : List (Token × V)} (heads : RepeatsHeads capacity puts)
    (split : before <+: puts) : RepeatsHeads capacity before :=
  fun front put within => heads front put (within.trans split)

/-- A new key at the end of a bucket. -/
theorem nodup_bucket_snoc {idx : Nat} {put : Token × V}
    (once : ((bucket capacity puts idx).map Prod.fst).Nodup)
    (heads : put.1 ∈ puts.map Prod.fst → headKey capacity puts put.1 = some put.1) :
    ((bucket capacity (puts ++ [put]) idx).map Prod.fst).Nodup := by
  by_cases here : hash put.1.1 % capacity = idx
  · subst here
    cases holding : bucket capacity puts (hash put.1.1 % capacity) with
    | nil =>
        rw [bucket_snoc_empty rfl holding]
        exact List.nodup_singleton _
    | cons first rest =>
        rw [bucket_snoc rfl holding]
        rw [holding] at once
        split_ifs with same
        · exact once
        · have new : put.1 ∉ (first :: rest).map Prod.fst := by
            rw [← holding, mem_bucket_keys rfl]
            intro present
            have head := heads present
            rw [← headKey_eq, holding] at head
            exact same (Option.some.inj head)
          rw [← List.cons_append, List.map_append, List.map_singleton]
          exact List.nodup_append.mpr ⟨once, List.nodup_singleton _, fun a mem b single => by
            rw [List.mem_singleton.mp single]
            rintro rfl
            exact new mem⟩
  · rw [bucket_snoc_other here]
    exact once

theorem length_dedup_snoc (keys : List Token) (key : Token) :
    (keys ++ [key]).dedup.length = if key ∈ keys then keys.dedup.length else keys.dedup.length + 1 := by
  rw [(List.perm_append_singleton key keys).dedup.length_eq]
  split_ifs with mem
  · rw [List.dedup_cons_of_mem mem]
  · rw [List.dedup_cons_of_notMem mem, List.length_cons]

/-- While only heads are repeated, the table holds the puts, each bucket holds a key once,
and the count is that of the keys. -/
theorem umapPutAll_sound (positive : 0 < capacity) (heads : RepeatsHeads capacity puts) :
    ∃ map, umapPutAll (umapInit V capacity) puts = some map ∧ Represents capacity map puts ∧
      map.count = (puts.map Prod.fst).dedup.length ∧
        ∀ idx, ((bucket capacity puts idx).map Prod.fst).Nodup := by
  induction puts using List.reverseRecOn with
  | nil => exact ⟨_, rfl, represents_umapInit positive, rfl, fun _ => List.nodup_nil⟩
  | append_singleton puts put ih =>
      obtain ⟨map, all, represents, count, once⟩ := ih (heads.restrict (List.prefix_append _ _))
      have repeated := heads puts put List.prefix_rfl
      obtain ⟨map', ret, called, kept, returned⟩ := umapPut_returns represents put.1 put.2 fun _ => rfl
      refine ⟨map', ?_, kept, ?_, fun idx => nodup_bucket_snoc (once idx) repeated⟩
      · rw [umapPutAll_snoc, all, Option.bind_some, called]
        rfl
      · rw [List.map_append, List.map_singleton, length_dedup_snoc, ← count]
        rw [headKey_eq] at returned
        rcases returned with ⟨head, -, same⟩ | ⟨other, -, more⟩
        · rw [if_pos (mem_of_headKey head), same]
        · rw [if_neg fun present => other (repeated present), more]

/-- The chains of the table, bucket by bucket, are all there is in the map. -/
theorem mapSound_of_represents (represents : Represents capacity map puts)
    (count : map.count = (puts.map Prod.fst).dedup.length)
    (once : ∀ idx, ((bucket capacity puts idx).map Prod.fst).Nodup) : MapSound map puts where
  chains := by
    have width := represents.width
    refine ⟨bucket capacity puts, fun idx below => ?_, fun idx below put mem => ?_, ?_⟩
    · rw [width] at below
      exact (represents.chained_iff below).mpr rfl
    · rw [umapKeyToIndex, width]
      exact bucket_index mem
    · rw [List.map_flatMap, List.nodup_flatMap]
      refine ⟨fun idx _ => once idx, List.nodup_range.imp fun {i j} apart key first second => apart ?_⟩
      obtain ⟨put, mem, rfl⟩ := List.mem_map.mp first
      obtain ⟨put', mem', same⟩ := List.mem_map.mp second
      rw [← bucket_index mem, ← bucket_index mem', same]
  count := count

/-- The invariant and the refusals hold all along exactly when no key behind the head of
its chain is put again. -/
theorem mapInvariant_iff (positive : 0 < capacity) (puts : List (Token × V)) :
    KeepsMap capacity puts ↔ RepeatsHeads capacity puts := by
  constructor
  · intro keeps before put split
    obtain ⟨map, all, -, treats⟩ := keeps before ((List.prefix_append _ _).trans split)
    obtain ⟨map', all', represents⟩ := represents_umapPutAll (represents_umapInit positive) before
    cases all.symm.trans all'
    exact (represents.refusesPresent_iff put).mp (treats put split)
  · intro heads before split
    obtain ⟨map, all, represents, count, once⟩ := umapPutAll_sound positive (heads.restrict split)
    exact ⟨map, all, mapSound_of_represents represents count once,
      fun put next => (represents.refusesPresent_iff put).mpr (heads before put next)⟩

/-- The condition, put by put. -/
theorem repeatsHeads_iff {capacity : Nat} {puts : List (Token × V)} :
    RepeatsHeads capacity puts ↔ ∀ i, (below : i < puts.length) →
      puts[i].1 ∈ (puts.take i).map Prod.fst → headKey capacity (puts.take i) puts[i].1 = some puts[i].1 := by
  constructor
  · intro heads i below
    refine heads (puts.take i) puts[i] ?_
    rw [List.take_append_getElem]
    exact List.take_prefix _ _
  · rintro heads before put ⟨rest, rfl⟩
    have inside : before.length < (before ++ [put] ++ rest).length := by simp
    have put_here : (before ++ [put] ++ rest)[before.length] = put := by simp
    have front : (before ++ [put] ++ rest).take before.length = before := by simp
    have treated := heads before.length inside
    rwa [put_here, front] at treated

instance (capacity : Nat) (puts : List (Token × V)) : Decidable (RepeatsHeads capacity puts) :=
  decidable_of_iff _ repeatsHeads_iff.symm

/-- A token at the head of its chain, put twice. -/
theorem mapInvariant_heads :
    KeepsMap 1 [(Token.ofBytes [0], 0), (Token.ofBytes [1], 1), (Token.ofBytes [0], 2)] :=
  (mapInvariant_iff (by decide) _).mpr (by decide)

/-- Two tokens of one bucket, the second one put again. -/
def repeatedToken : List (Token × Nat) :=
  [(Token.ofBytes [0], 0), (Token.ofBytes [1], 1), (Token.ofBytes [1], 2)]

/-- It is entered twice. -/
theorem mapInvariant_repeated : ¬ KeepsMap 1 repeatedToken := by
  intro keeps
  obtain ⟨map, all, -, treats⟩ := keeps (repeatedToken.take 2) (List.take_prefix 2 _)
  obtain ⟨map', all', represents⟩ :=
    represents_umapPutAll (represents_umapInit Nat.one_pos) (repeatedToken.take 2)
  cases all.symm.trans all'
  have treated := (represents.refusesPresent_iff _).mp (treats (Token.ofBytes [1], 2) List.prefix_rfl)
  have head := treated (by decide)
  revert head
  decide

end MiniDropbox
