/-
Stores whose entries form a tree.

A store says what stands at a path: nothing, a directory, or a leaf with some content. The root is
a directory, and so is whatever has an entry. `make` makes one directory, `makeAll` those along
a way, as far as there is none, and `remove` takes an entry away with all below it. A program
that keeps a tree elsewhere is compared with these.
-/

import Mathlib.Data.List.Infix

namespace TreeStore

variable {ν κ : Type*}

/-- What stands at a path. -/
inductive Entry (κ : Type*) where
  | dir
  | leaf (content : κ)

@[ext] structure Store (ν κ : Type*) where
  entry : List ν → Option (Entry κ)
  root : entry [] = some .dir
  parents : ∀ path name, entry (path ++ [name]) ≠ none → entry path = some .dir

/-- What becomes of a directory that is to be made. -/
inductive Made where
  | made | found | refused
  deriving DecidableEq

/-- The root alone. -/
def alone : List ν → Option (Entry κ)
  | [] => some .dir
  | _ :: _ => none

theorem alone_parents (path : List ν) (name : ν) (there : (alone (path ++ [name]) : Option (Entry κ)) ≠ none) :
    (alone path : Option (Entry κ)) = some .dir := by
  cases path with
  | nil => rfl
  | cons first rest => exact absurd rfl there

def empty : Store ν κ := ⟨alone, rfl, alone_parents⟩

section Operations

open Classical

variable (store : Store ν κ) (path : List ν) (name : ν)

/-- The entries with a new directory. -/
noncomputable def entryWith (q : List ν) : Option (Entry κ) := if q = path ++ [name] then some .dir else store.entry q

/-- The entries without those from a path on. -/
noncomputable def entryWithout (q : List ν) : Option (Entry κ) := if path ≠ [] ∧ path <+: q then none else store.entry q

variable {store path name}

theorem entryWith_root : entryWith store path name [] = some .dir := by
  rw [entryWith, if_neg (List.append_ne_nil_of_right_ne_nil _ (List.cons_ne_nil _ _)).symm, store.root]

/-- A directory is made in a directory. -/
theorem entryWith_parents (dir : store.entry path = some .dir) (q : List ν) (n : ν)
    (there : entryWith store path name (q ++ [n]) ≠ none) : entryWith store path name q = some .dir := by
  have old : store.entry q = some .dir := by
    rw [entryWith] at there
    split_ifs at there with new
    · rw [(List.append_inj' new rfl).1, dir]
    · exact store.parents q n there
  rw [entryWith]
  split_ifs
  · rfl
  · exact old

theorem entryWithout_root : entryWithout store path [] = some .dir := by
  rw [entryWithout, if_neg, store.root]
  rintro ⟨named, along⟩
  exact named (List.prefix_nil.mp along)

theorem entryWithout_parents (q : List ν) (n : ν) (there : entryWithout store path (q ++ [n]) ≠ none) :
    entryWithout store path q = some .dir := by
  by_cases below : path ≠ [] ∧ path <+: q ++ [n]
  · rw [entryWithout, if_pos below] at there
    exact absurd rfl there
  · rw [entryWithout, if_neg below] at there
    rw [entryWithout, if_neg, store.parents q n there]
    rintro ⟨named, along⟩
    exact below ⟨named, along.trans (List.prefix_append _ _)⟩

variable (store path name) (legal : ν → Prop)

/-- Make a directory, unless something stands there; its name has to be a legal one. -/
noncomputable def make : Store ν κ × Made :=
  if store.entry (path ++ [name]) ≠ none then (store, .found)
  else if dir : store.entry path = some .dir ∧ legal name then
    (⟨entryWith store path name, entryWith_root, entryWith_parents dir.1⟩, .made)
  else (store, .refused)

variable {store path name legal} in
/-- A legal name is never refused in a directory. -/
theorem make_ne_refused {next : Store ν κ} (dir : store.entry path = some .dir) (good : legal name) :
    make store path name legal ≠ (next, .refused) := by
  unfold make
  split_ifs with there allowed
  · intro same
    cases (Prod.mk.inj same).2
  · intro same
    cases (Prod.mk.inj same).2
  · exact absurd ⟨dir, good⟩ allowed

/-- Make the directories along a way; a name that is refused ends it. -/
noncomputable def makeAll : Store ν κ → List ν → List ν → Store ν κ × Bool
  | store, _, [] => (store, true)
  | store, path, name :: rest =>
      match make store path name legal with
      | (store, .refused) => (store, false)
      | (store, _) => makeAll store (path ++ [name]) rest

/-- Take an entry away with all below it. The root stays. -/
noncomputable def remove : Store ν κ := ⟨entryWithout store path, entryWithout_root, entryWithout_parents⟩

variable {store path name legal} {q rest : List ν}

/-! ### What has an entry afterwards -/

theorem entry_of_make (there : (make store path name legal).1.entry q ≠ none) : store.entry q ≠ none ∨ q = path ++ [name] := by
  unfold make at there
  split_ifs at there with found allowed
  · exact .inl there
  · change entryWith store path name q ≠ none at there
    rw [entryWith] at there
    split_ifs at there with new
    · exact .inr new
    · exact .inl there
  · exact .inl there

theorem entry_of_makeAll (there : (makeAll legal store path rest).1.entry q ≠ none) :
    store.entry q ≠ none ∨ ∃ made, made ≠ [] ∧ made <+: rest ∧ q = path ++ made := by
  induction rest generalizing store path with
  | nil => exact .inl there
  | cons name rest ih =>
      have one := @entry_of_make _ _ store path name legal q
      have here : store.entry q ≠ none ∨ q = path ++ [name] → store.entry q ≠ none ∨ ∃ made, made ≠ [] ∧ made <+: name :: rest ∧ q = path ++ made := by
        rintro (old | rfl)
        · exact .inl old
        · exact .inr ⟨[name], List.cons_ne_nil _ _, ⟨rest, rfl⟩, rfl⟩
      have further : ∀ store', makeAll legal store' (path ++ [name]) rest = makeAll legal store path (name :: rest) →
          (store'.entry q ≠ none → store.entry q ≠ none ∨ q = path ++ [name]) →
          store.entry q ≠ none ∨ ∃ made, made ≠ [] ∧ made <+: name :: rest ∧ q = path ++ made := by
        intro store' same made
        rw [← same] at there
        rcases ih there with old | ⟨more, -, along, rfl⟩
        · exact here (made old)
        · exact .inr ⟨name :: more, List.cons_ne_nil _ _, List.cons_prefix_cons.mpr ⟨rfl, along⟩, by simp⟩
      cases outcome : make store path name legal with
      | mk store' result =>
          rw [outcome] at one
          cases result with
          | refused =>
              rw [makeAll, outcome] at there
              exact here (one there)
          | made => exact further store' (by rw [makeAll, outcome]) one
          | found => exact further store' (by rw [makeAll, outcome]) one

theorem entry_of_remove (there : (remove store path).entry q ≠ none) : store.entry q ≠ none := by
  change entryWithout store path q ≠ none at there
  rw [entryWithout] at there
  split_ifs at there
  · exact absurd rfl there
  · exact there

end Operations

end TreeStore
