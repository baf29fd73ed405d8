/-
The user map: a hash table with chained buckets (`user_map.c`).

The entries `malloc` has returned are the cells of a heap, addressed by their
position, and the links between them are followed as the source follows them. An
operation is `none` when it would follow a link out of the heap or for ever. A
fresh entry's `next` is whatever the allocated memory holds, a parameter of
`umapPut`.

* `represents_umapPut` — with fresh links null, the chains hold exactly the
  entries `bucket` says, in the order of insertion.
* `umapGet_eq` — what a lookup returns: for every key that was put, the value of
  the *first* entry of its bucket.
-/

import Mathlib.Data.List.Basic
import MiniDropbox.Lib.Chain
import MiniDropbox.Types

namespace MiniDropbox

/-- Mirrors `UserMapEntry`, for any type of user pointers. -/
structure UserMapEntry (V : Type) where
  key : Token
  value : V
  next : Option Nat

/-- Mirrors `UserMap`, with the heap its entries live in. -/
structure UserMap (V : Type) where
  heap : List (UserMapEntry V)
  entries : List (Option Nat)
  count : Nat
  capacity : Nat

/-- Mirrors `umap_init`. -/
def umapInit (V : Type) (capacity : Nat) : UserMap V := ⟨[], List.replicate capacity none, 0, capacity⟩

/-- Mirrors `hash`: `hash * 33 + c` over the bytes, in 64 bits. -/
def hash (str : List Byte) : Nat :=
  str.foldl (fun hash c => (hash * 2 ^ 5 + hash + c.toNat) % 2 ^ 64) 5381

variable {V : Type}

/-- Mirrors `umap_key_to_index`. -/
def umapKeyToIndex (map : UserMap V) (key : Token) : Nat := hash key.1 % map.capacity

/-- The `next` links of the heap. -/
def UserMap.links (map : UserMap V) : Chain.Memory := fun a => map.heap[a]?.map (·.next)

/-- `uuid_compare(cur->key, key) == 0` -/
def UserMap.hasKey (map : UserMap V) (key : Token) (a : Nat) : Bool :=
  map.heap[a]?.any fun entry => entry.key = key

/-- Mirrors `umap_put`; `fresh` is what the `next` field of a new entry holds. -/
def umapPut (fresh : Option Nat) (map : UserMap V) (key : Token) (value : V) :
    Option (UserMap V × Int) :=
  let idx := umapKeyToIndex map key
  let new := map.heap.length
  let allocated := { map with heap := map.heap ++ [⟨key, value, fresh⟩] }
  match map.entries.getD idx none with
  | none =>
      some ({ allocated with
        entries := map.entries.set idx (some new), count := map.count + 1 }, 0)
  | some head => do
      let first ← allocated.heap[head]?
      if first.key = key then some (allocated, -1)
      else
        let cur ← Chain.last allocated.links allocated.heap.length head
        some ({ allocated with
          heap := allocated.heap.modify cur fun entry => { entry with next := some new }
          count := map.count + 1 }, 0)

/-- Mirrors `umap_get`: `some none` when it returns -1, else what it stores in `out`. -/
def umapGet (map : UserMap V) (key : Token) : Option (Option V) :=
  match map.entries.getD (umapKeyToIndex map key) none with
  | none => some none
  | some head => do
      let first ← map.heap[head]?
      if first.key = key then some (some first.value)
      else
        let cur ← Chain.search map.links (map.hasKey key) map.heap.length (some head)
        some (cur.map fun _ => first.value)

/-- A sequence of calls of `umap_put`, with fresh links null. -/
def umapPutAll (map : UserMap V) : List (Token × V) → Option (UserMap V)
  | [] => some map
  | put :: puts => do
      let next ← umapPut none map put.1 put.2
      umapPutAll next.1 puts

/-! ### What the buckets hold -/

/-- The puts that fall into a bucket. -/
def putsAt (capacity : Nat) (puts : List (Token × V)) (idx : Nat) : List (Token × V) :=
  puts.filter fun put => hash put.1.1 % capacity = idx

/-- The entries of a bucket: only a key equal to the first one is refused. -/
def bucket (capacity : Nat) (puts : List (Token × V)) (idx : Nat) : List (Token × V) :=
  match putsAt capacity puts idx with
  | [] => []
  | first :: later => first :: later.filter fun put => put.1 ≠ first.1

variable {capacity idx : Nat} {puts : List (Token × V)} {key : Token} {value : V}

theorem bucket_snoc_other (other : hash key.1 % capacity ≠ idx) :
    bucket capacity (puts ++ [(key, value)]) idx = bucket capacity puts idx := by
  simp [bucket, putsAt, other]

theorem bucket_snoc_empty (here : hash key.1 % capacity = idx) (empty : bucket capacity puts idx = []) :
    bucket capacity (puts ++ [(key, value)]) idx = [(key, value)] := by
  unfold bucket at empty ⊢
  cases found : putsAt capacity puts idx with
  | nil =>
      have extended : putsAt capacity (puts ++ [(key, value)]) idx = [(key, value)] := by
        simp only [putsAt, List.filter_append] at found ⊢
        simp [found, here]
      rw [extended]
      rfl
  | cons first later =>
      rw [found] at empty
      cases empty

theorem bucket_snoc {first : Token × V} {rest : List (Token × V)}
    (here : hash key.1 % capacity = idx) (holds : bucket capacity puts idx = first :: rest) :
    bucket capacity (puts ++ [(key, value)]) idx =
      if first.1 = key then first :: rest else first :: (rest ++ [(key, value)]) := by
  unfold bucket at holds ⊢
  cases found : putsAt capacity puts idx with
  | nil =>
      rw [found] at holds
      cases holds
  | cons head later =>
      rw [found] at holds
      cases holds
      have extended : putsAt capacity (puts ++ [(key, value)]) idx = first :: (later ++ [(key, value)]) := by
        simp only [putsAt, List.filter_append] at found ⊢
        simp [found, here]
      rw [extended]
      split_ifs with same
      · simp [same]
      · simp [Ne.symm same]

/-- The keys of a bucket are those of the puts that fall into it. -/
theorem mem_bucket_keys (here : hash key.1 % capacity = idx) :
    key ∈ (bucket capacity puts idx).map Prod.fst ↔ key ∈ puts.map Prod.fst := by
  have filtered : key ∈ (putsAt capacity puts idx).map Prod.fst ↔ key ∈ puts.map Prod.fst := by
    simp [putsAt, here]
  rw [← filtered]
  unfold bucket
  cases putsAt capacity puts idx with
  | nil => rfl
  | cons first later =>
      by_cases same : key = first.1
      · simp [same]
      · simp [same]

theorem bucket_index {put : Token × V} (mem : put ∈ bucket capacity puts idx) :
    hash put.1.1 % capacity = idx := by
  have within : ∀ p ∈ putsAt capacity puts idx, hash p.1.1 % capacity = idx := fun p mem => by
    simpa [putsAt] using (List.mem_filter.mp mem).2
  unfold bucket at mem
  cases found : putsAt capacity puts idx with
  | nil =>
      rw [found] at mem
      cases mem
  | cons first later =>
      rw [found] at mem within
      rcases List.mem_cons.mp mem with rfl | mem
      · exact within _ List.mem_cons_self
      · exact within _ (List.mem_cons_of_mem _ (List.mem_filter.mp mem).1)

/-! ### The representation -/

/-- The key and value of a cell. -/
def UserMap.pair (map : UserMap V) (a : Nat) : Option (Token × V) :=
  map.heap[a]?.map fun entry => (entry.key, entry.value)

/-- The table holds a sequence of puts: each chain ends, and its cells hold the
entries of its bucket. -/
structure Represents (capacity : Nat) (map : UserMap V) (puts : List (Token × V)) : Prop where
  positive : 0 < capacity
  width : map.capacity = capacity
  entries : map.entries.length = capacity
  buckets : ∀ idx < capacity, ∃ addrs,
    Chain.Linked map.links (map.entries.getD idx none) addrs ∧
      addrs.map map.pair = (bucket capacity puts idx).map some

theorem represents_umapInit (positive : 0 < capacity) :
    Represents capacity (umapInit V capacity) [] where
  positive := positive
  width := rfl
  entries := List.length_replicate
  buckets idx below := by
    have head : (umapInit V capacity).entries.getD idx none = none := by
      simp only [umapInit, List.getD_eq_getElem?_getD, List.getElem?_replicate]
      split_ifs
      rfl
    exact ⟨[], by rw [head]; exact .nil, rfl⟩

theorem Represents.index_lt {map : UserMap V} (represents : Represents capacity map puts)
    (key : Token) : umapKeyToIndex map key < capacity := by
  rw [umapKeyToIndex, represents.width]
  exact Nat.mod_lt _ represents.positive

theorem UserMap.lt_of_links {map : UserMap V} {a : Nat} {link : Option Nat}
    (cell : map.links a = some link) : a < map.heap.length := by
  obtain ⟨entry, found, -⟩ := Option.map_eq_some_iff.mp cell
  exact (List.getElem?_eq_some_iff.mp found).1

/-- The chain and the entries of one bucket stay as they are when its cells do. -/
theorem Represents.frame {map next : UserMap V} {addrs : List Nat} {head : Option Nat}
    {entries : List (Token × V)} (linked : Chain.Linked map.links head addrs)
    (holds : addrs.map map.pair = entries.map some)
    (links : ∀ a ∈ addrs, next.links a = map.links a) (pairs : ∀ a ∈ addrs, next.pair a = map.pair a) :
    Chain.Linked next.links head addrs ∧ addrs.map next.pair = entries.map some :=
  ⟨linked.congr links, by rw [← holds]; exact List.map_congr_left pairs⟩

/-- The memory after `malloc`: old cells are unchanged. -/
theorem UserMap.links_allocated (map : UserMap V) (entry : UserMapEntry V) {a : Nat}
    (old : a < map.heap.length) :
    ({ map with heap := map.heap ++ [entry] } : UserMap V).links a = map.links a := by
  simp [UserMap.links, List.getElem?_append_left old]

theorem UserMap.pair_allocated (map : UserMap V) (entry : UserMapEntry V) {a : Nat}
    (old : a < map.heap.length) :
    ({ map with heap := map.heap ++ [entry] } : UserMap V).pair a = map.pair a := by
  simp [UserMap.pair, List.getElem?_append_left old]

theorem Represents.lt {map : UserMap V} {addrs : List Nat} {head : Option Nat} {a : Nat}
    (linked : Chain.Linked map.links head addrs) (mem : a ∈ addrs) : a < map.heap.length := by
  obtain ⟨link, cell⟩ := linked.cell mem
  exact UserMap.lt_of_links cell

/-- Where no chain starts nothing is kept. -/
theorem Represents.empty {map : UserMap V} (represents : Represents capacity map puts)
    (linked_head : map.entries.getD (umapKeyToIndex map key) none = none) :
    bucket capacity puts (hash key.1 % capacity) = [] := by
  obtain ⟨addrs, linked, holds⟩ := represents.buckets _ (represents.index_lt key)
  rw [linked_head] at linked
  cases linked
  rw [umapKeyToIndex, represents.width] at holds
  exact List.map_eq_nil_iff.mp holds.symm

/-- A cell that is allocated is behind no chain. -/
theorem Represents.allocated {map : UserMap V} {head : Nat} {rest : List Nat}
    (linked : Chain.Linked map.links (some head) (head :: rest)) (entry : UserMapEntry V) :
    Chain.Linked (UserMap.links ⟨map.heap ++ [entry], map.entries, map.count, map.capacity⟩) (some head) (head :: rest) :=
  linked.congr fun _ mem => map.links_allocated _ (Represents.lt linked mem)

/-- A put into an empty bucket starts its chain. -/
theorem represents_first {map : UserMap V} (represents : Represents capacity map puts)
    (empty : map.entries.getD (umapKeyToIndex map key) none = none) :
    Represents capacity ⟨map.heap ++ [⟨key, value, none⟩],
      map.entries.set (umapKeyToIndex map key) (some map.heap.length), map.count + 1, map.capacity⟩
        (puts ++ [(key, value)]) where
  positive := represents.positive
  width := represents.width
  entries := by rw [List.length_set]; exact represents.entries
  buckets idx below := by
    obtain ⟨addrs, linked, holds⟩ := represents.buckets idx below
    have index : umapKeyToIndex map key = hash key.1 % capacity := by
      rw [umapKeyToIndex, represents.width]
    by_cases here : hash key.1 % capacity = idx
    · have nothing : bucket capacity puts idx = [] := by
        rw [← here]
        exact represents.empty empty
      refine ⟨[map.heap.length], ?_, ?_⟩
      · rw [index, here, List.getD_eq_getElem?_getD,
          List.getElem?_set_self (by rw [represents.entries]; exact below)]
        exact .cons (by simp [UserMap.links]) .nil
      · rw [bucket_snoc_empty here nothing]
        simp [UserMap.pair]
    · have head : (map.entries.set (umapKeyToIndex map key) (some map.heap.length)).getD idx none =
          map.entries.getD idx none := by
        rw [index, List.getD_eq_getElem?_getD, List.getElem?_set_ne here, List.getD_eq_getElem?_getD]
      have kept := Represents.frame linked holds
        (fun a mem => map.links_allocated ⟨key, value, none⟩ (Represents.lt linked mem))
        fun a mem => map.pair_allocated ⟨key, value, none⟩ (Represents.lt linked mem)
      refine ⟨addrs, ?_, ?_⟩
      · rw [head]
        exact kept.1
      · rw [bucket_snoc_other here]
        exact kept.2

/-- The first entry of a chain is the first entry of its bucket. -/
theorem Represents.first {map : UserMap V} {head : Nat} (represents : Represents capacity map puts)
    (linked_head : map.entries.getD (umapKeyToIndex map key) none = some head) :
    ∃ first rest later, map.heap[head]? = some first ∧ Chain.Linked map.links (some head) (head :: rest) ∧
      bucket capacity puts (hash key.1 % capacity) = (first.key, first.value) :: later ∧
        rest.map map.pair = later.map some := by
  have index : umapKeyToIndex map key = hash key.1 % capacity := by
    rw [umapKeyToIndex, represents.width]
  obtain ⟨addrs, linked, holds⟩ := represents.buckets _ (represents.index_lt key)
  rw [linked_head] at linked
  rw [index] at holds
  cases linked with
  | @cons _ link rest cell linked' =>
      have inside := UserMap.lt_of_links cell
      have found : map.heap[head]? = some map.heap[head] := List.getElem?_eq_getElem inside
      cases holding : bucket capacity puts (hash key.1 % capacity) with
      | nil =>
          rw [holding] at holds
          cases holds
      | cons pair later =>
          rw [holding, List.map_cons, List.map_cons, UserMap.pair, found] at holds
          obtain ⟨pair_eq, rest_eq⟩ := List.cons.inj holds
          exact ⟨_, rest, later, found, .cons cell linked', by rw [← Option.some.inj pair_eq], rest_eq⟩

/-- A put of the first key of a bucket leaves an unlinked cell behind. -/
theorem represents_refused {map : UserMap V} {head : Nat} {first : UserMapEntry V} (fresh : Option Nat)
    (represents : Represents capacity map puts)
    (linked_head : map.entries.getD (umapKeyToIndex map key) none = some head)
    (found : map.heap[head]? = some first) (same : first.key = key) :
    Represents capacity ⟨map.heap ++ [⟨key, value, fresh⟩], map.entries, map.count, map.capacity⟩
      (puts ++ [(key, value)]) where
  positive := represents.positive
  width := represents.width
  entries := represents.entries
  buckets idx below := by
    obtain ⟨addrs, linked, holds⟩ := represents.buckets idx below
    have kept := Represents.frame linked holds
      (fun a mem => map.links_allocated ⟨key, value, fresh⟩ (Represents.lt linked mem))
      fun a mem => map.pair_allocated ⟨key, value, fresh⟩ (Represents.lt linked mem)
    have unchanged : bucket capacity (puts ++ [(key, value)]) idx = bucket capacity puts idx := by
      by_cases here : hash key.1 % capacity = idx
      · obtain ⟨first', _, _, found', _, holding, _⟩ := represents.first linked_head
        cases found.symm.trans found'
        rw [here] at holding
        rw [bucket_snoc here holding, if_pos same, holding]
      · exact bucket_snoc_other here
    rw [unchanged]
    exact ⟨addrs, kept⟩

/-- The table after a new cell has been linked behind the cell `cur`. -/
def UserMap.appended (map : UserMap V) (cur : Nat) (key : Token) (value : V) : UserMap V where
  heap := (map.heap ++ [(⟨key, value, none⟩ : UserMapEntry V)]).modify cur fun entry =>
    { entry with next := some map.heap.length }
  entries := map.entries
  count := map.count + 1
  capacity := map.capacity

theorem UserMap.links_appended (map : UserMap V) (cur : Nat) (key : Token) (value : V) {a : Nat}
    (old : a < map.heap.length) :
    (map.appended cur key value).links a =
      if a = cur then some (some map.heap.length) else map.links a := by
  by_cases here : a = cur
  · subst here
    simp [UserMap.links, UserMap.appended, List.getElem?_append_left old, old]
  · simp [UserMap.links, UserMap.appended, List.getElem?_append_left old, here,
      Ne.symm here]

theorem UserMap.pair_appended (map : UserMap V) (cur : Nat) (key : Token) (value : V) {a : Nat}
    (old : a < map.heap.length) :
    (map.appended cur key value).pair a = map.pair a := by
  by_cases here : cur = a
  · subst here
    simp [UserMap.pair, UserMap.appended, List.getElem?_append_left old, old]
  · simp [UserMap.pair, UserMap.appended, List.getElem?_append_left old, here]

/-- The cells of a chain hold keys of its bucket. -/
theorem Represents.index_of_mem {map : UserMap V} {addrs : List Nat} {a : Nat}
    (holds : addrs.map map.pair = (bucket capacity puts idx).map some) (mem : a ∈ addrs) :
    ∃ pair, map.pair a = some pair ∧ hash pair.1.1 % capacity = idx := by
  have listed : map.pair a ∈ (bucket capacity puts idx).map some := by
    rw [← holds]
    exact List.mem_map_of_mem mem
  obtain ⟨pair, member, eq⟩ := List.mem_map.mp listed
  exact ⟨pair, eq.symm, bucket_index member⟩

/-- A put of another key is linked to the end of the chain. -/
theorem represents_appended {map : UserMap V} {head cur : Nat} {rest init : List Nat}
    {first : UserMapEntry V} (represents : Represents capacity map puts)
    (linked_head : map.entries.getD (umapKeyToIndex map key) none = some head)
    (found : map.heap[head]? = some first) (other : first.key ≠ key)
    (linked : Chain.Linked map.links (some head) (head :: rest)) (ends : head :: rest = init ++ [cur]) :
    Represents capacity (map.appended cur key value) (puts ++ [(key, value)]) where
  positive := represents.positive
  width := represents.width
  entries := represents.entries
  buckets idx below := by
    have index : umapKeyToIndex map key = hash key.1 % capacity := by
      rw [umapKeyToIndex, represents.width]
    obtain ⟨first', rest', later, found', linked', holding, rest_holds⟩ := represents.first linked_head
    cases found.symm.trans found'
    cases linked.unique linked'
    have holds : (head :: rest).map map.pair = (bucket capacity puts (hash key.1 % capacity)).map some := by
      rw [holding, List.map_cons, List.map_cons, UserMap.pair, found, rest_holds]
      rfl
    have cur_mem : cur ∈ head :: rest := by simp [ends]
    have old : ∀ a ∈ head :: rest, a < map.heap.length := fun a mem => Represents.lt linked mem
    by_cases here : hash key.1 % capacity = idx
    · subst here
      have apart : cur ∉ init := by
        have once := linked.nodup
        rw [ends] at once
        exact fun mem => (List.nodup_append.mp once).2.2 cur mem cur (List.mem_singleton_self cur) rfl
      have split : ∀ a ∈ init, a ∈ head :: rest := fun a mem => by simp [ends, mem]
      have kept : ∀ a ∈ init, (map.appended cur key value).links a = map.links a := fun a mem => by
        rw [map.links_appended cur key value (old a (split a mem)), if_neg]
        rintro rfl
        exact apart mem
      have link : (map.appended cur key value).links cur = some (some map.heap.length) := by
        rw [map.links_appended cur key value (old cur cur_mem), if_pos rfl]
      have behind : cur ≠ map.heap.length := Nat.ne_of_lt (old cur cur_mem)
      have new : (map.appended cur key value).links map.heap.length = some none := by
        simp [UserMap.links, UserMap.appended, behind]
      refine ⟨init ++ [cur, map.heap.length], ?_, ?_⟩
      · rw [ends] at linked
        rw [← index]
        show Chain.Linked _ (map.entries.getD _ none) _
        rw [linked_head]
        exact linked.snoc kept link new
      · have pairs : (init ++ [cur]).map (map.appended cur key value).pair =
            ((first.key, first.value) :: later).map some := by
          rw [← holding, ← holds, ← ends]
          exact List.map_congr_left fun a mem => map.pair_appended cur key value (old a mem)
        have new_pair : (map.appended cur key value).pair map.heap.length = some (key, value) := by
          simp [UserMap.pair, UserMap.appended, behind]
        have listed : init ++ [cur, map.heap.length] = (init ++ [cur]) ++ [map.heap.length] := by simp
        rw [bucket_snoc rfl holding, if_neg other, listed, List.map_append, pairs, List.map_singleton,
          new_pair]
        simp
    · obtain ⟨addrs, linked'', holds'⟩ := represents.buckets idx below
      have elsewhere : cur ∉ addrs := fun mem => by
        obtain ⟨pair, eq, index_here⟩ := Represents.index_of_mem holds cur_mem
        obtain ⟨pair', eq', index_there⟩ := Represents.index_of_mem holds' mem
        cases eq.symm.trans eq'
        exact here (index_here.symm.trans index_there)
      have kept := Represents.frame linked'' holds'
        (fun a mem => by
          rw [map.links_appended cur key value (Represents.lt linked'' mem), if_neg]
          rintro rfl
          exact elsewhere mem)
        fun a mem => map.pair_appended cur key value (Represents.lt linked'' mem)
      rw [bucket_snoc_other here]
      exact ⟨addrs, kept⟩

/-- A put is refused exactly when its key is the first one of the bucket. It succeeds and
keeps the representation, when the link of an entry that is not refused is null. -/
theorem umapPut_returns {map : UserMap V} (represents : Represents capacity map puts)
    (key : Token) (value : V) {fresh : Option Nat}
    (null : (bucket capacity puts (hash key.1 % capacity)).head?.map Prod.fst ≠ some key → fresh = none) :
    ∃ map' ret, umapPut fresh map key value = some (map', ret) ∧
      Represents capacity map' (puts ++ [(key, value)]) ∧
      ((bucket capacity puts (hash key.1 % capacity)).head?.map Prod.fst = some key ∧
          ret = -1 ∧ map'.count = map.count ∨
        (bucket capacity puts (hash key.1 % capacity)).head?.map Prod.fst ≠ some key ∧
          ret = 0 ∧ map'.count = map.count + 1) := by
  simp only [umapPut]
  cases linked_head : map.entries.getD (umapKeyToIndex map key) none with
  | none =>
      rw [represents.empty linked_head] at null ⊢
      rw [null (by simp)]
      exact ⟨_, _, rfl, represents_first represents linked_head, .inr ⟨by simp, rfl, rfl⟩⟩
  | some head =>
      obtain ⟨first, rest, later, found, linked, holding, -⟩ := represents.first linked_head
      have inside := (List.getElem?_eq_some_iff.mp found).1
      have found' : (map.heap ++ [(⟨key, value, fresh⟩ : UserMapEntry V)])[head]? = some first := by
        rw [List.getElem?_append_left inside, found]
      rw [holding] at null ⊢
      by_cases same : first.key = key
      · refine ⟨_, -1, ?_, represents_refused fresh represents linked_head found same, .inl ⟨?_, rfl, rfl⟩⟩
        · simp only [found', Option.bind_eq_bind, Option.bind_some, same, if_true]
        · rw [← same]
          rfl
      · have other : ((first.key, first.value) :: later).head?.map Prod.fst ≠ some key := by simpa using same
        cases null other
        have linked' := Represents.allocated linked ⟨key, value, none⟩
        have short := linked'.length_le fun a link => UserMap.lt_of_links
        have walked := Chain.last_eq linked' short
        have ends := List.getLast?_eq_some_getLast (List.cons_ne_nil head rest)
        obtain ⟨init, split⟩ := List.getLast?_eq_some_iff.mp ends
        rw [ends] at walked
        refine ⟨_, 0, ?_, represents_appended represents linked_head found same linked split,
          .inr ⟨other, rfl, rfl⟩⟩
        simp only [found', Option.bind_eq_bind, Option.bind_some, same, if_false, walked]
        rfl

theorem represents_umapPut {map : UserMap V} (represents : Represents capacity map puts)
    (key : Token) (value : V) :
    ∃ map' ret, umapPut none map key value = some (map', ret) ∧
      Represents capacity map' (puts ++ [(key, value)]) := by
  obtain ⟨map', ret, called, kept, -⟩ := umapPut_returns represents key value fun _ => rfl
  exact ⟨map', ret, called, kept⟩

/-- The calls of a whole sequence succeed, and the table holds them. -/
theorem represents_umapPutAll {map : UserMap V} (represents : Represents capacity map puts)
    (more : List (Token × V)) :
    ∃ map', umapPutAll map more = some map' ∧ Represents capacity map' (puts ++ more) := by
  induction more generalizing map puts with
  | nil => exact ⟨map, rfl, by rw [List.append_nil]; exact represents⟩
  | cons put more ih =>
      obtain ⟨next, ret, called, kept⟩ := represents_umapPut represents put.1 put.2
      obtain ⟨map', all, represents'⟩ := ih kept
      refine ⟨map', ?_, ?_⟩
      · rw [umapPutAll, called]
        exact all
      · rw [List.append_assoc] at represents'
        exact represents'

/-- The search along a chain finds a cell when the bucket has the key. -/
theorem Represents.find_isSome {map : UserMap V} {addrs : List Nat} {entries : List (Token × V)}
    (holds : addrs.map map.pair = entries.map some) :
    (addrs.find? (map.hasKey key)).isSome = true ↔ key ∈ entries.map Prod.fst := by
  have pairs : ∀ a, map.hasKey key a = true ↔ ∃ value, map.pair a = some (key, value) := fun a => by
    cases found : map.heap[a]? with
    | none => simp [UserMap.hasKey, UserMap.pair, found]
    | some entry => simp [UserMap.hasKey, UserMap.pair, found]
  rw [List.find?_isSome]
  constructor
  · rintro ⟨a, mem, hit⟩
    obtain ⟨value, pair⟩ := (pairs a).mp hit
    have listed : some (key, value) ∈ entries.map some := by
      rw [← holds, ← pair]
      exact List.mem_map_of_mem mem
    obtain ⟨_, member, eq⟩ := List.mem_map.mp listed
    exact List.mem_map.mpr ⟨_, member, congrArg Prod.fst (Option.some.inj eq)⟩
  · intro mem
    obtain ⟨⟨key', value⟩, member, rfl⟩ := List.mem_map.mp mem
    have listed : some (key', value) ∈ addrs.map map.pair := by
      rw [holds]
      exact List.mem_map_of_mem member
    obtain ⟨a, mem', pair⟩ := List.mem_map.mp listed
    exact ⟨a, mem', (pairs a).mpr ⟨value, pair⟩⟩

/-- What a lookup returns: for a key of the bucket, the value of the first entry of
the bucket. -/
theorem umapGet_eq {map : UserMap V} (represents : Represents capacity map puts) (key : Token) :
    umapGet map key =
      some (if key ∈ (bucket capacity puts (hash key.1 % capacity)).map Prod.fst then
        (bucket capacity puts (hash key.1 % capacity)).head?.map Prod.snd else none) := by
  unfold umapGet
  cases linked_head : map.entries.getD (umapKeyToIndex map key) none with
  | none =>
      simp [represents.empty linked_head]
  | some head =>
      obtain ⟨first, rest, later, found, linked, holding, rest_holds⟩ := represents.first linked_head
      have holds : (head :: rest).map map.pair = ((first.key, first.value) :: later).map some := by
        rw [List.map_cons, List.map_cons, UserMap.pair, found, rest_holds]
        rfl
      rw [holding]
      by_cases same : first.key = key
      · simp [found, same]
      · have short := linked.length_le fun a link => UserMap.lt_of_links
        have walked : Chain.search map.links (map.hasKey key) map.heap.length (some head) = _ :=
          Chain.search_eq linked short
        have hits := @Represents.find_isSome V key map _ _ holds
        simp only [found, walked, Option.bind_eq_bind, Option.bind_some, same, if_false]
        cases search : (head :: rest).find? (map.hasKey key) with
        | none =>
            rw [search] at hits
            rw [if_neg fun mem => by cases hits.mpr mem]
            rfl
        | some a =>
            rw [search] at hits
            rw [if_pos (hits.mp rfl)]
            rfl

end MiniDropbox
