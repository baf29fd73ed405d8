/-
Tables whose entries have keys.

A table is a list; `place` is the first place of a key and `under` the entries that have
it. In a table with distinct keys an entry that is changed in place stays the only one
under its key (`modified`), one that is erased leaves none (`erased`), and a new one with
a missing key is found at the end (`added`). None of these touches the other keys
(`Apart`).
-/

import Mathlib.Data.List.Nodup

namespace Keyed

variable {α κ : Type} [DecidableEq κ] (key : α → κ)

/-- No two entries have the same key. -/
def Distinct (l : List α) : Prop := (l.map key).Nodup

/-- The first place of a key. -/
def place (l : List α) (k : κ) : Option Nat := l.findIdx? fun x => key x = k

/-- The entries with a key. -/
def under (l : List α) (k : κ) : List α := l.filter fun x => key x = k

/-- The entries with other keys are the same. -/
def Apart (k : κ) (l l' : List α) : Prop := ∀ k' ≠ k, under key l' k' = under key l k'

variable {key} {l l' l'' : List α} {k : κ} {i : Nat}

theorem Apart.refl : Apart key k l l := fun _ _ => rfl

theorem Apart.trans (first : Apart key k l l') (second : Apart key k l' l'') : Apart key k l l'' :=
  fun k' other => (second k' other).trans (first k' other)

theorem under_append : under key (l ++ l') k = under key l k ++ under key l' k := List.filter_append _ _

theorem under_eq_nil_iff : under key l k = [] ↔ ∀ y ∈ l, key y ≠ k := by
  simp [under]

theorem place_eq_none_iff : place key l k = none ↔ ∀ y ∈ l, key y ≠ k := by
  simp [place]

theorem under_cons_of_eq {x : α} (same : key x = k) : under key (x :: l) k = x :: under key l k :=
  List.filter_cons_of_pos (decide_eq_true same)

theorem under_cons_of_ne {x : α} (other : key x ≠ k) : under key (x :: l) k = under key l k :=
  List.filter_cons_of_neg (by simpa using other)

/-- Where a key is found, its entry stands behind entries with other keys. -/
theorem split_of_place (found : place key l k = some i) :
    ∃ before x behind, l = before ++ x :: behind ∧ before.length = i ∧ key x = k ∧ ∀ y ∈ before, key y ≠ k := by
  obtain ⟨inside, here, first⟩ := List.findIdx?_eq_some_iff_getElem.mp found
  refine ⟨l.take i, l[i], l.drop (i + 1), ?_, List.length_take_of_le (Nat.le_of_lt inside), of_decide_eq_true here, ?_⟩
  · rw [List.getElem_cons_drop, List.take_append_drop]
  · intro y hy
    obtain ⟨j, within, rfl⟩ := List.mem_take_iff_getElem.mp hy
    have below : j < i := Nat.lt_of_lt_of_le within (Nat.min_le_left _ _)
    simpa using first j below

theorem place_split {before behind : List α} {x : α} (same : key x = k) (apart : ∀ y ∈ before, key y ≠ k) :
    place key (before ++ x :: behind) k = some before.length := by
  have nowhere : before.findIdx? (fun y => decide (key y = k)) = none := by
    simpa using apart
  simp [place, List.findIdx?_append, List.findIdx?_cons, nowhere, same]

omit [DecidableEq κ] in
theorem Distinct.behind {before behind : List α} {x : α} (distinct : Distinct key (before ++ x :: behind)) :
    ∀ y ∈ behind, key y ≠ key x := by
  intro y hy same
  rw [Distinct, List.map_append, List.map_cons] at distinct
  have fresh := (List.nodup_cons.mp (List.nodup_append.mp distinct).2.1).1
  exact fresh (same ▸ List.mem_map_of_mem hy)

/-- The only entry with a key is found under it. -/
theorem place_of_under {x : α} (alone : under key l k = [x]) : ∃ i, place key l k = some i ∧ l[i]? = some x := by
  have mem : x ∈ under key l k := by rw [alone]; exact List.mem_singleton_self x
  obtain ⟨here, same⟩ := List.mem_filter.mp mem
  cases found : place key l k with
  | none => exact absurd (of_decide_eq_true same) (place_eq_none_iff.mp found x here)
  | some i =>
      obtain ⟨before, y, behind, rfl, rfl, rfl, apart⟩ := split_of_place found
      rw [under_append, under_eq_nil_iff.mpr apart, under_cons_of_eq rfl, List.nil_append] at alone
      refine ⟨_, rfl, ?_⟩
      rw [List.getElem?_append_right (Nat.le_refl _), Nat.sub_self, List.getElem?_cons_zero, (List.cons.inj alone).1]

theorem modify_split {before behind : List α} {x : α} (f : α → α) :
    (before ++ x :: behind).modify before.length f = before ++ f x :: behind := by
  induction before with
  | nil => rfl
  | cons y before ih => rw [List.cons_append, List.length_cons, List.modify_succ_cons, ih, List.cons_append]

theorem eraseIdx_split {before behind : List α} {x : α} :
    (before ++ x :: behind).eraseIdx before.length = before ++ behind := by
  rw [List.eraseIdx_append_of_length_le (Nat.le_refl _), Nat.sub_self, List.eraseIdx_cons_zero]

/-- A change in place that keeps the key. -/
theorem modified {f : α → α} (distinct : Distinct key l) (found : place key l k = some i)
    (keeps : ∀ x, key (f x) = key x) :
    Distinct key (l.modify i f) ∧ Apart key k l (l.modify i f) ∧
      ∃ x ∈ l, place key (l.modify i f) k = some i ∧ (l.modify i f)[i]? = some (f x) ∧
        under key (l.modify i f) k = [f x] := by
  obtain ⟨before, x, behind, rfl, rfl, rfl, apart⟩ := split_of_place found
  rw [modify_split]
  have nothing : under key before (key x) = [] := under_eq_nil_iff.mpr apart
  have rest : under key behind (key x) = [] := under_eq_nil_iff.mpr distinct.behind
  refine ⟨?_, ?_, x, List.mem_append_right _ List.mem_cons_self, place_split (keeps x) apart, ?_, ?_⟩
  · simpa [Distinct, keeps] using distinct
  · intro k' other
    rw [under_append, under_append, under_cons_of_ne (Ne.symm other),
      under_cons_of_ne fun same => other (same.symm.trans (keeps x))]
  · rw [List.getElem?_append_right (Nat.le_refl _), Nat.sub_self, List.getElem?_cons_zero]
  · rw [under_append, nothing, under_cons_of_eq (keeps x), rest, List.nil_append]

/-- An entry that is erased. -/
theorem erased (distinct : Distinct key l) (found : place key l k = some i) :
    Distinct key (l.eraseIdx i) ∧ Apart key k l (l.eraseIdx i) ∧ under key (l.eraseIdx i) k = [] := by
  obtain ⟨before, x, behind, rfl, rfl, rfl, apart⟩ := split_of_place found
  rw [eraseIdx_split]
  refine ⟨?_, ?_, ?_⟩
  · refine distinct.sublist (List.Sublist.map key ?_)
    exact (List.Sublist.refl before).append (List.sublist_cons_self x behind)
  · intro k' other
    rw [under_append, under_append, under_cons_of_ne (Ne.symm other)]
  · rw [under_append, under_eq_nil_iff.mpr apart, under_eq_nil_iff.mpr distinct.behind, List.append_nil]

/-- A new entry at the end. -/
theorem added {x : α} (distinct : Distinct key l) (missing : place key l (key x) = none) :
    Distinct key (l ++ [x]) ∧ Apart key (key x) l (l ++ [x]) ∧ place key (l ++ [x]) (key x) = some l.length := by
  have apart := place_eq_none_iff.mp missing
  refine ⟨?_, ?_, place_split rfl apart⟩
  · rw [Distinct, List.map_append, List.nodup_append]
    refine ⟨distinct, List.nodup_singleton _, ?_⟩
    intro a ha b hb
    obtain ⟨y, hy, rfl⟩ := List.mem_map.mp ha
    rw [List.mem_singleton.mp hb]
    exact apart y hy
  · intro k' other
    rw [under_append, under_cons_of_ne (Ne.symm other)]
    exact List.append_nil _

end Keyed
