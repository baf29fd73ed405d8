/-
The user map and the memory it allocates (`user_map.c`).

`umap_put` sets the key and the value of a new entry and leaves its `next` as `malloc`
returned it. A run of calls is given what each entry's `next` holds then; a call is
`none` when it follows a link out of the entries or for ever.

* `mapResults_atHeads` — while every call that finds its bucket occupied asks for the key
  of the first entry, no link is read, and the answers are those of a table of heads.
* `freshMemory_iff` — otherwise they depend on the memory; and the chains end in `NULL`
  exactly when the link of every entry that is linked in was null from the start.
-/

import MiniDropbox.MapInvariant

namespace MiniDropbox

variable {V : Type}

/-- The calls on a map. -/
inductive MapCall (V : Type) where
  | put (key : Token) (value : V)
  | get (key : Token)

/-- What a call returns: the code of `umap_put`, what `umap_get` finds. -/
inductive MapAnswer (V : Type) where
  | ret (code : Int)
  | found (value : Option V)
  deriving DecidableEq

def MapCall.key : MapCall V → Token
  | .put key _ => key
  | .get key => key

/-- The put a call makes. -/
def MapCall.puts : MapCall V → List (Token × V)
  | .put key value => [(key, value)]
  | .get _ => []

/-- A call; `fresh` gives what `next` holds in each entry `malloc` returns. -/
def MapCall.call (fresh : Nat → Option Nat) (map : UserMap V) :
    MapCall V → Option (UserMap V × MapAnswer V)
  | .put key value => (umapPut (fresh map.heap.length) map key value).map fun out => (out.1, .ret out.2)
  | .get key => (umapGet map key).map fun found => (map, .found found)

/-- The answers of a sequence of calls, which ends with a call that does not return. -/
def mapResults (fresh : Nat → Option Nat) (map : UserMap V) : List (MapCall V) → List (Option (MapAnswer V))
  | [] => []
  | call :: calls =>
      match call.call fresh map with
      | none => [none]
      | some out => some out.2 :: mapResults fresh out.1 calls

/-- The map after a sequence of calls. -/
def mapAfter (fresh : Nat → Option Nat) (map : UserMap V) : List (MapCall V) → Option (UserMap V)
  | [] => some map
  | call :: calls => (call.call fresh map).bind fun out => mapAfter fresh out.1 calls

/-- The puts of a sequence of calls. -/
def putsOf (calls : List (MapCall V)) : List (Token × V) := calls.flatMap MapCall.puts

/-- The answers do not depend on the memory. -/
def MemoryIndependent (V : Type) (capacity : Nat) (calls : List (MapCall V)) : Prop :=
  ∀ fresh fresh', mapResults fresh (umapInit V capacity) calls = mapResults fresh' (umapInit V capacity) calls

/-- From a map with the entries of `puts` on, after every call the chain of each bucket
ends in `NULL` and consists of the entries put into the bucket. -/
def ChainsEnd (fresh : Nat → Option Nat) (capacity : Nat) (map : UserMap V) (puts : List (Token × V))
    (calls : List (MapCall V)) : Prop :=
  ∀ before, before <+: calls → ∃ map', mapAfter fresh map before = some map' ∧
    ∀ idx < capacity, map'.Chained idx (bucket capacity (puts ++ putsOf before) idx)

/-- Every call that finds its bucket occupied asks for the first key put into it. -/
def AtHeads (capacity : Nat) (puts : List (Token × V)) : List (MapCall V) → Prop
  | [] => True
  | call :: calls =>
      (headKey capacity puts call.key = none ∨ headKey capacity puts call.key = some call.key) ∧
        AtHeads capacity (puts ++ call.puts) calls

/-- The entries of the puts that are not refused have a null link when they are
allocated: the `n`-th put allocates the `n`-th entry. -/
def LinkedNull (fresh : Nat → Option Nat) (capacity : Nat) (puts : List (Token × V)) :
    List (MapCall V) → Prop
  | [] => True
  | call :: calls =>
      (∀ put ∈ call.puts, headKey capacity puts put.1 ≠ some put.1 → fresh puts.length = none) ∧
        LinkedNull fresh capacity (puts ++ call.puts) calls

variable {capacity : Nat} {fresh : Nat → Option Nat} {map : UserMap V} {puts : List (Token × V)}

/-- Every put allocates one entry. -/
theorem length_umapPut {next : Option Nat} {key : Token} {value : V} {map' : UserMap V} {ret : Int}
    (called : umapPut next map key value = some (map', ret)) : map'.heap.length = map.heap.length + 1 := by
  simp only [umapPut] at called
  cases linked_head : map.entries.getD (umapKeyToIndex map key) none with
  | none =>
      rw [linked_head] at called
      cases called
      simp
  | some head =>
      rw [linked_head] at called
      dsimp only at called
      obtain ⟨first, -, called⟩ := Option.bind_eq_some_iff.mp called
      split_ifs at called with same
      · cases called
        simp
      · obtain ⟨cur, -, called⟩ := Option.bind_eq_some_iff.mp called
        cases called
        simp

/-! ### A table of heads -/

/-- Each bucket that is not empty starts with the first entry put into it, and no link has
been written since the entries were allocated. -/
structure Headed (fresh : Nat → Option Nat) (capacity : Nat) (map : UserMap V) (puts : List (Token × V)) :
    Prop where
  positive : 0 < capacity
  width : map.capacity = capacity
  entries : map.entries.length = capacity
  heads : ∀ idx < capacity,
    (map.entries.getD idx none).map map.pair = (putsAt capacity puts idx).head?.map some
  links : ∀ a < map.heap.length, map.links a = some (fresh a)

theorem headed_umapInit (positive : 0 < capacity) : Headed fresh capacity (umapInit V capacity) [] where
  positive := positive
  width := rfl
  entries := List.length_replicate
  heads idx below := by
    have empty : (umapInit V capacity).entries.getD idx none = none := by
      simp only [umapInit, List.getD_eq_getElem?_getD, List.getElem?_replicate]
      split_ifs
      rfl
    rw [empty]
    rfl
  links a below := absurd below (Nat.not_lt_zero a)

theorem Headed.index (headed : Headed fresh capacity map puts) (key : Token) :
    umapKeyToIndex map key = hash key.1 % capacity ∧ hash key.1 % capacity < capacity := by
  rw [umapKeyToIndex, headed.width]
  exact ⟨rfl, Nat.mod_lt _ headed.positive⟩

/-- The bucket of a key is empty, or starts with the entry of its first key. -/
theorem Headed.head (headed : Headed fresh capacity map puts) (key : Token) :
    map.entries.getD (umapKeyToIndex map key) none = none ∧ putsAt capacity puts (hash key.1 % capacity) = [] ∨
      ∃ a entry later, map.entries.getD (umapKeyToIndex map key) none = some a ∧ map.heap[a]? = some entry ∧
        putsAt capacity puts (hash key.1 % capacity) = (entry.key, entry.value) :: later := by
  obtain ⟨index, below⟩ := headed.index key
  have here := headed.heads _ below
  rw [← index] at here ⊢
  cases found : map.entries.getD (umapKeyToIndex map key) none with
  | none =>
      rw [found, Option.map_none] at here
      have empty := Option.map_eq_none_iff.mp here.symm
      exact .inl ⟨rfl, List.head?_eq_none_iff.mp empty⟩
  | some a =>
      rw [found, Option.map_some] at here
      obtain ⟨first, head, pair⟩ := Option.map_eq_some_iff.mp here.symm
      obtain ⟨later, split⟩ := List.head?_eq_some_iff.mp head
      obtain ⟨entry, there, same⟩ := Option.map_eq_some_iff.mp pair.symm
      exact .inr ⟨a, entry, later, rfl, there, by rw [split, ← same]⟩

theorem putsAt_snoc (capacity : Nat) (puts : List (Token × V)) (put : Token × V) (idx : Nat) :
    putsAt capacity (puts ++ [put]) idx =
      if hash put.1.1 % capacity = idx then putsAt capacity puts idx ++ [put] else putsAt capacity puts idx := by
  split_ifs with here <;> simp [putsAt, here]

/-- A new entry leaves the other cells as they are. -/
theorem Headed.allocated (headed : Headed fresh capacity map puts) (key : Token) (value : V) (a : Nat)
    (below : a < map.heap.length + 1) :
    UserMap.links { map with heap := map.heap ++ [⟨key, value, fresh map.heap.length⟩] } a = some (fresh a) := by
  rcases Nat.lt_succ_iff_lt_or_eq.mp below with old | rfl
  · rw [map.links_allocated _ old]
    exact headed.links a old
  · simp [UserMap.links]

/-- The heads of the old entries, in a memory with a new one. -/
theorem Headed.pairs (headed : Headed fresh capacity map puts) (entry : UserMapEntry V) {idx : Nat}
    (below : idx < capacity) :
    (map.entries.getD idx none).map (UserMap.pair { map with heap := map.heap ++ [entry] }) =
      (putsAt capacity puts idx).head?.map some := by
  rw [← headed.heads idx below]
  cases found : map.entries.getD idx none with
  | none => rfl
  | some a =>
      have here := headed.heads idx below
      rw [found, Option.map_some] at here
      obtain ⟨first, -, pair⟩ := Option.map_eq_some_iff.mp here.symm
      obtain ⟨old, there, -⟩ := Option.map_eq_some_iff.mp pair.symm
      rw [Option.map_some, Option.map_some,
        map.pair_allocated _ (List.getElem?_eq_some_iff.mp there).1]

/-- What a table of heads answers. -/
def headAnswer (capacity : Nat) (puts : List (Token × V)) : MapCall V → MapAnswer V
  | .put key _ => .ret (if headKey capacity puts key = none then 0 else -1)
  | .get key => .found ((putsAt capacity puts (hash key.1 % capacity)).head?.map Prod.snd)

/-- A put into an empty bucket, or of the first key of its bucket, reads no link. -/
theorem Headed.put (headed : Headed fresh capacity map puts) (key : Token) (value : V)
    (at_head : headKey capacity puts key = none ∨ headKey capacity puts key = some key) :
    ∃ map', umapPut (fresh map.heap.length) map key value =
        some (map', if headKey capacity puts key = none then 0 else -1) ∧
      Headed fresh capacity map' (puts ++ [(key, value)]) := by
  obtain ⟨index, below⟩ := headed.index key
  simp only [umapPut]
  rcases headed.head key with ⟨empty, nothing⟩ | ⟨a, entry, later, found, there, split⟩
  · have no_head : headKey capacity puts key = none := by rw [headKey, nothing]; rfl
    rw [empty, if_pos no_head]
    refine ⟨_, rfl, headed.positive, headed.width, ?_, fun idx within => ?_, fun b inside => ?_⟩
    · rw [List.length_set]
      exact headed.entries
    · rw [putsAt_snoc]
      by_cases here : hash key.1 % capacity = idx
      · rw [if_pos here, ← here, nothing, index, List.getD_eq_getElem?_getD,
          List.getElem?_set_self (by rw [headed.entries]; exact below)]
        simp [UserMap.pair]
      · rw [if_neg here, index, List.getD_eq_getElem?_getD, List.getElem?_set_ne here,
          ← List.getD_eq_getElem?_getD]
        exact headed.pairs ⟨key, value, fresh map.heap.length⟩ within
    · rw [List.length_append, List.length_singleton] at inside
      exact headed.allocated key value b inside
  · have head : headKey capacity puts key = some entry.key := by rw [headKey, split]; rfl
    have same : entry.key = key := by
      rcases at_head with none_here | some_here
      · rw [head] at none_here
        cases none_here
      · exact Option.some.inj (head.symm.trans some_here)
    have there' : (map.heap ++ [(⟨key, value, fresh map.heap.length⟩ : UserMapEntry V)])[a]? = some entry := by
      rw [List.getElem?_append_left (List.getElem?_eq_some_iff.mp there).1, there]
    rw [found, head, if_neg (by simp)]
    refine ⟨{ map with heap := map.heap ++ [⟨key, value, fresh map.heap.length⟩] }, ?_, headed.positive,
      headed.width, headed.entries, fun idx within => ?_, fun b inside => ?_⟩
    · simp only [there', Option.bind_eq_bind, Option.bind_some, same, if_true]
    · have kept := headed.pairs ⟨key, value, fresh map.heap.length⟩ within
      rw [putsAt_snoc]
      split_ifs with here
      · rw [← here, split] at kept ⊢
        exact kept
      · exact kept
    · rw [List.length_append, List.length_singleton] at inside
      exact headed.allocated key value b inside

/-- A call at a head answers what the table of heads answers. -/
theorem Headed.call (headed : Headed fresh capacity map puts) (call : MapCall V)
    (at_head : headKey capacity puts call.key = none ∨ headKey capacity puts call.key = some call.key) :
    ∃ map', call.call fresh map = some (map', headAnswer capacity puts call) ∧
      Headed fresh capacity map' (puts ++ call.puts) := by
  cases call with
  | put key value =>
      obtain ⟨map', called, next⟩ := headed.put key value at_head
      exact ⟨map', by rw [MapCall.call, called]; rfl, next⟩
  | get key =>
      refine ⟨map, ?_, by rw [MapCall.puts, List.append_nil]; exact headed⟩
      simp only [MapCall.call, umapGet, headAnswer]
      rcases headed.head key with ⟨empty, nothing⟩ | ⟨a, entry, later, found, there, split⟩
      · rw [empty, nothing]
        rfl
      · have head : headKey capacity puts key = some entry.key := by rw [headKey, split]; rfl
        have same : entry.key = key := by
          rcases at_head with none_here | some_here
          · rw [MapCall.key, head] at none_here
            cases none_here
          · exact Option.some.inj (head.symm.trans some_here)
        rw [found, split]
        simp [there, same]

/-- While all calls are at heads the answers are the same in every memory. -/
theorem mapResults_atHeads {fresh' : Nat → Option Nat} {map' : UserMap V} {calls : List (MapCall V)}
    (headed : Headed fresh capacity map puts) (headed' : Headed fresh' capacity map' puts)
    (heads : AtHeads capacity puts calls) : mapResults fresh map calls = mapResults fresh' map' calls := by
  induction calls generalizing map map' puts with
  | nil => rfl
  | cons call calls ih =>
      obtain ⟨here, later⟩ := heads
      obtain ⟨next, called, kept⟩ := headed.call call here
      obtain ⟨next', called', kept'⟩ := headed'.call call here
      rw [mapResults, mapResults, called, called']
      exact congrArg (some (headAnswer capacity puts call) :: ·) (ih kept kept' later)

/-! ### A memory in which every entry is linked to itself -/

/-- A call that asks for another key than the first of its bucket does not return then. -/
theorem Headed.stuck (headed : Headed some capacity map puts) (call : MapCall V)
    (behind : ¬ (headKey capacity puts call.key = none ∨ headKey capacity puts call.key = some call.key)) :
    call.call some map = none := by
  rcases headed.head call.key with ⟨empty, nothing⟩ | ⟨a, entry, later, found, there, split⟩
  · exact absurd (.inl (by rw [headKey, nothing]; rfl)) behind
  · have other : entry.key ≠ call.key := by
      rintro same
      exact behind (.inr (by rw [headKey, split, ← same]; rfl))
    have old := (List.getElem?_eq_some_iff.mp there).1
    have loop := headed.links a old
    cases call with
    | put key value =>
        have there' : (map.heap ++ [(⟨key, value, some map.heap.length⟩ : UserMapEntry V)])[a]? = some entry := by
          rw [List.getElem?_append_left old, there]
        have loop' := (map.links_allocated ⟨key, value, some map.heap.length⟩ old).trans loop
        simp only [MapCall.call, umapPut, MapCall.key] at found other ⊢
        rw [found]
        simp only [there', Option.bind_eq_bind, Option.bind_some, other, if_false,
          Chain.last_self loop', Option.bind_none, Option.map_none]
    | get key =>
        simp only [MapCall.call, umapGet, MapCall.key] at found other ⊢
        have miss : map.hasKey key a = false := by
          rw [UserMap.hasKey, there]
          simpa using other
        rw [found]
        simp only [there, Option.bind_eq_bind, Option.bind_some, other, if_false,
          Chain.search_self loop miss, Option.bind_none, Option.map_none]

/-! ### A memory in which every link is null -/

/-- Every call returns then. -/
theorem Represents.call (represents : Represents capacity map puts) (call : MapCall V) :
    ∃ map' answer, call.call (fun _ => none) map = some (map', answer) ∧
      Represents capacity map' (puts ++ call.puts) := by
  cases call with
  | put key value =>
      obtain ⟨map', ret, called, kept⟩ := represents_umapPut represents key value
      exact ⟨map', .ret ret, by rw [MapCall.call, called]; rfl, kept⟩
  | get key =>
      refine ⟨map, _, by rw [MapCall.call, umapGet_eq represents]; rfl, ?_⟩
      rw [MapCall.puts, List.append_nil]
      exact represents

/-- Where the answers in these two memories are the same, all calls are at heads. -/
theorem atHeads_of_same {map' : UserMap V} {calls : List (MapCall V)}
    (represents : Represents capacity map puts) (headed : Headed some capacity map' puts)
    (same : mapResults (fun _ => none) map calls = mapResults some map' calls) :
    AtHeads capacity puts calls := by
  induction calls generalizing map map' puts with
  | nil => trivial
  | cons call calls ih =>
      obtain ⟨next, answer, called, kept⟩ := represents.call call
      rw [mapResults, mapResults, called] at same
      by_cases here : headKey capacity puts call.key = none ∨ headKey capacity puts call.key = some call.key
      · obtain ⟨next', called', kept'⟩ := headed.call call here
        rw [called'] at same
        exact ⟨here, ih kept kept' (List.cons.inj same).2⟩
      · rw [headed.stuck call here] at same
        cases (List.cons.inj same).1

theorem memoryIndependent_iff (positive : 0 < capacity) (calls : List (MapCall V)) :
    MemoryIndependent V capacity calls ↔ AtHeads capacity [] calls := by
  constructor
  · intro same
    exact atHeads_of_same (represents_umapInit positive) (headed_umapInit positive) (same _ _)
  · intro heads fresh fresh'
    exact mapResults_atHeads (headed_umapInit positive) (headed_umapInit positive) heads

/-! ### Where the chains end -/

/-- An entry with another link than `NULL` leaves its chain without an end, or with cells
behind it. -/
theorem Represents.unended (represents : Represents capacity map puts) (key : Token) (value : V) (b : Nat)
    (new : headKey capacity puts key ≠ some key) :
    ∃ map' ret, umapPut (some b) map key value = some (map', ret) ∧
      ¬ map'.Chained (hash key.1 % capacity) (bucket capacity (puts ++ [(key, value)]) (hash key.1 % capacity)) := by
  have index : umapKeyToIndex map key = hash key.1 % capacity := by
    rw [umapKeyToIndex, represents.width]
  have below := represents.index_lt key
  simp only [umapPut]
  cases linked_head : map.entries.getD (umapKeyToIndex map key) none with
  | none =>
      refine ⟨_, _, rfl, ?_⟩
      rintro ⟨addrs, linked, holds⟩
      rw [bucket_snoc_empty rfl (represents.empty linked_head)] at holds
      have start : (map.entries.set (umapKeyToIndex map key) (some map.heap.length)).getD
          (hash key.1 % capacity) none = some map.heap.length := by
        rw [index, List.getD_eq_getElem?_getD,
          List.getElem?_set_self (by rw [represents.entries, ← index]; exact below)]
        rfl
      dsimp only at linked
      rw [start] at linked
      cases linked with
      | cons cell rest =>
          simp only [UserMap.links, List.getElem?_concat_length, Option.map_some] at cell
          cases cell
          cases rest with
          | cons cell' rest' =>
              have lengths := congrArg List.length holds
              simp at lengths
  | some head =>
      obtain ⟨first, rest, later, found, linked, holding, rest_holds⟩ := represents.first linked_head
      have inside := (List.getElem?_eq_some_iff.mp found).1
      have found' : (map.heap ++ [(⟨key, value, some b⟩ : UserMapEntry V)])[head]? = some first := by
        rw [List.getElem?_append_left inside, found]
      have other : first.key ≠ key := by
        rintro rfl
        rw [← headKey_eq, holding] at new
        exact new rfl
      have linked' := Represents.allocated linked ⟨key, value, some b⟩
      have short := linked'.length_le fun a link => UserMap.lt_of_links
      have walked := Chain.last_eq linked' short
      have ends := List.getLast?_eq_some_getLast (List.cons_ne_nil head rest)
      generalize (head :: rest).getLast (List.cons_ne_nil head rest) = cur at ends
      obtain ⟨init, split⟩ := List.getLast?_eq_some_iff.mp ends
      rw [ends] at walked
      simp only [found', Option.bind_eq_bind, Option.bind_some, other, if_false, walked]
      refine ⟨_, _, rfl, ?_⟩
      rintro ⟨addrs, longer, holds⟩
      have old : cur < map.heap.length := Represents.lt linked (by simp [split])
      have once := linked.nodup
      rw [split] at linked' once
      have apart : ∀ c ∈ init, c ≠ cur := fun c mem same =>
        (List.nodup_append.mp once).2.2 c mem cur (List.mem_singleton_self cur) same
      rw [← index] at longer
      dsimp only at longer
      rw [linked_head] at longer
      have appended : ∀ c, UserMap.links ⟨(map.heap ++ [(⟨key, value, some b⟩ : UserMapEntry V)]).modify cur
          fun entry => { entry with next := some map.heap.length }, map.entries, map.count + 1, map.capacity⟩ c =
            if c = cur then some (some map.heap.length)
            else UserMap.links ⟨map.heap ++ [(⟨key, value, some b⟩ : UserMapEntry V)], map.entries, map.count,
              map.capacity⟩ c := fun c => by
        split_ifs with here
        · simp [UserMap.links, here, List.getElem?_append_left old, old]
        · simp [UserMap.links, Ne.symm here]
      have new_link : UserMap.links ⟨map.heap ++ [(⟨key, value, some b⟩ : UserMapEntry V)], map.entries, map.count,
          map.capacity⟩ map.heap.length = some (some b) := by
        simp [UserMap.links]
      obtain ⟨tail, rfl, ends'⟩ := linked'.beyond (fun c mem => by rw [appended, if_neg (apart c mem)])
        (by rw [appended, if_pos rfl]) (by rw [appended, if_neg (Nat.ne_of_gt old), new_link]) longer
      have lengths := congrArg List.length holds
      have rests := congrArg List.length rest_holds
      have fronts := congrArg List.length split
      rw [bucket_snoc rfl holding, if_neg other] at lengths
      simp only [List.length_map, List.length_append, List.length_cons, List.length_nil] at lengths rests fronts
      cases ends' with
      | cons cell rest' =>
          rw [List.length_cons] at lengths
          omega

/-- A call that allocates no entry, or one with a null link, or one that is refused, returns
and keeps the representation. -/
theorem Represents.call_null (represents : Represents capacity map puts) (cells : map.heap.length = puts.length)
    (call : MapCall V)
    (null : ∀ put ∈ call.puts, headKey capacity puts put.1 ≠ some put.1 → fresh puts.length = none) :
    ∃ map' answer, call.call fresh map = some (map', answer) ∧ Represents capacity map' (puts ++ call.puts) ∧
      map'.heap.length = (puts ++ call.puts).length := by
  cases call with
  | put key value =>
      have null' := null (key, value) List.mem_cons_self
      rw [← headKey_eq] at null'
      obtain ⟨map', ret, called, kept, -⟩ := umapPut_returns represents key value null'
      refine ⟨map', .ret ret, ?_, kept, ?_⟩
      · rw [MapCall.call, cells, called]
        rfl
      · rw [length_umapPut called, cells, MapCall.puts, List.length_append, List.length_singleton]
  | get key =>
      refine ⟨map, _, by rw [MapCall.call, umapGet_eq represents]; rfl, ?_⟩
      rw [MapCall.puts, List.append_nil]
      exact ⟨represents, cells⟩

theorem putsOf_cons (call : MapCall V) (calls : List (MapCall V)) :
    putsOf (call :: calls) = call.puts ++ putsOf calls := List.flatMap_cons

/-- The chains after a call that returns. -/
theorem chainsEnd_cons {call : MapCall V} {calls : List (MapCall V)} {map' : UserMap V} {answer : MapAnswer V}
    (represents : Represents capacity map puts) (called : call.call fresh map = some (map', answer)) :
    ChainsEnd fresh capacity map puts (call :: calls) ↔ ChainsEnd fresh capacity map' (puts ++ call.puts) calls := by
  have after : ∀ before, mapAfter fresh map (call :: before) = mapAfter fresh map' before := fun before => by
    rw [mapAfter, called, Option.bind_some]
  constructor
  · intro ends before split
    have whole := ends (call :: before) (List.cons_prefix_cons.mpr ⟨rfl, split⟩)
    rwa [after, putsOf_cons, ← List.append_assoc] at whole
  · intro ends before split
    cases before with
    | nil =>
        refine ⟨map, rfl, fun idx below => (represents.chained_iff below).mpr ?_⟩
        rw [show putsOf ([] : List (MapCall V)) = [] from rfl, List.append_nil]
    | cons first before =>
        obtain ⟨same, within⟩ := List.cons_prefix_cons.mp split
        rw [same, after, putsOf_cons, ← List.append_assoc]
        exact ends before within

/-- The chains end, and hold the entries put, exactly when the link of each entry that is
not refused is null. -/
theorem chainsEnd_iff {calls : List (MapCall V)} (represents : Represents capacity map puts)
    (cells : map.heap.length = puts.length) :
    ChainsEnd fresh capacity map puts calls ↔ LinkedNull fresh capacity puts calls := by
  induction calls generalizing map puts with
  | nil =>
      refine iff_of_true (fun before split => ?_) trivial
      rw [List.prefix_nil.mp split]
      refine ⟨map, rfl, fun idx below => (represents.chained_iff below).mpr ?_⟩
      rw [show putsOf ([] : List (MapCall V)) = [] from rfl, List.append_nil]
  | cons call calls ih =>
      by_cases null : ∀ put ∈ call.puts, headKey capacity puts put.1 ≠ some put.1 → fresh puts.length = none
      · obtain ⟨map', answer, called, kept, cells'⟩ := represents.call_null cells call null
        rw [chainsEnd_cons represents called, ih kept cells', LinkedNull, and_iff_right null]
      · refine iff_of_false (fun ends => ?_) fun both => null both.1
        push Not at null
        obtain ⟨put, among, new, garbage⟩ := null
        obtain ⟨b, link⟩ := Option.ne_none_iff_exists'.mp garbage
        cases call with
        | get key => cases among
        | put key value =>
            cases List.mem_singleton.mp among
            obtain ⟨map', ret, called, loose⟩ := represents.unended key value b new
            obtain ⟨map'', after, chained⟩ := ends [.put key value] (by simp)
            rw [mapAfter, MapCall.call, cells, link, called] at after
            cases after
            refine loose (chained _ ?_)
            have below := represents.index_lt key
            rwa [umapKeyToIndex, represents.width] at below

/-- The answers of a sequence of calls do not depend on the memory exactly when every call
that finds its bucket occupied asks for the first key put into it; and in a given memory
the chains are what they should be exactly when the link of each entry that is not
refused is null from the start. -/
theorem freshMemory_iff (positive : 0 < capacity) (calls : List (MapCall V)) :
    (MemoryIndependent V capacity calls ↔ AtHeads capacity [] calls) ∧
      ∀ fresh, ChainsEnd fresh capacity (umapInit V capacity) [] calls ↔ LinkedNull fresh capacity [] calls :=
  ⟨memoryIndependent_iff positive calls, fun _ => chainsEnd_iff (represents_umapInit positive) rfl⟩

/-- Two tokens of different buckets among the 256, the first put twice; then both are looked
up, and a third one of a bucket that stays empty. -/
def scatteredCalls : List (MapCall Nat) :=
  [.put (Token.ofBytes [0]) 0, .put (Token.ofBytes [1]) 1, .put (Token.ofBytes [0]) 2,
    .get (Token.ofBytes [0]), .get (Token.ofBytes [1]), .get (Token.ofBytes [2])]

/-- Only the entry of the refused put comes with a link. -/
def refusedLinked : Nat → Option Nat
  | 2 => some 0
  | _ => none

theorem freshMemory_scattered : MemoryIndependent Nat 256 scatteredCalls ∧
    ChainsEnd refusedLinked 256 (umapInit Nat 256) [] scatteredCalls := by
  obtain ⟨independent, ends⟩ := @freshMemory_iff Nat 256 (by decide) scatteredCalls
  refine ⟨independent.mpr ⟨.inl rfl, .inl ?_, .inr ?_, .inr ?_, .inr ?_, .inl ?_, trivial⟩,
    (ends refusedLinked).mpr ⟨fun _ _ _ => rfl, fun _ _ _ => rfl, ?_, ?_, ?_, ?_, trivial⟩⟩
  all_goals decide

/-- Two tokens put into a map of one bucket. -/
def pairedCalls : List (MapCall Nat) := [.put (Token.ofBytes [0]) 0, .put (Token.ofBytes [1]) 1]

/-- The second put returns when the first entry's link is null, and not when it leads back
to that entry. -/
theorem freshMemory_paired : ¬ MemoryIndependent Nat 1 pairedCalls ∧
    ¬ ChainsEnd some 1 (umapInit Nat 1) [] pairedCalls := by
  constructor
  · intro same
    have answers := same (fun _ => none) some
    revert answers
    decide
  · intro ends
    obtain ⟨map, after, -⟩ := ends pairedCalls List.prefix_rfl
    have stuck : (mapAfter some (umapInit Nat 1) pairedCalls).isSome = false := by decide
    rw [after] at stuck
    cases stuck

end MiniDropbox
