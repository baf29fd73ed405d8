/-
Writing into a sequence at an offset, the way a file is written.

`splice fill file pos data` overwrites `file` from `pos` on with `data`. The
sequence grows when the data reach beyond its end, and a gap between the old end
and `pos` reads as `fill`. An empty write changes nothing, whatever the offset.

* `splice_splice` — two writes, the second where the first one ended, are one
  write of the concatenation.
* `splice_eq_iff` — the result is a given target exactly when the data are the
  target's at their place and the old sequence already agreed with it below and
  beyond them.
* `splice_take` — data of a target written into its front part make a longer one.
-/

import Mathlib.Data.List.Basic

namespace Splice

variable {α : Type*} {fill : α} {file data more target : List α} {pos i : Nat}

/-- Overwrite `file` from `pos` on with `data`, filling a gap with `fill`. -/
def splice (fill : α) (file : List α) (pos : Nat) (data : List α) : List α :=
  if data.isEmpty then file
  else (file ++ List.replicate (pos - file.length) fill).take pos ++ data ++
    file.drop (pos + data.length)

@[simp] theorem splice_nil (fill : α) (file : List α) (pos : Nat) :
    splice fill file pos [] = file := rfl

theorem splice_of_ne_nil (nonempty : data ≠ []) : splice fill file pos data =
    (file ++ List.replicate (pos - file.length) fill).take pos ++ data ++
      file.drop (pos + data.length) := by
  simp [splice, nonempty]

/-- A nonempty write reads back position by position: the old content or the
filling below it, the data inside, the old content beyond. -/
theorem getElem?_splice (nonempty : data ≠ []) (i : Nat) :
    (splice fill file pos data)[i]? =
      if i < pos then some (file.getD i fill)
      else if i < pos + data.length then data[i - pos]? else file[i]? := by
  have padded : ((file ++ List.replicate (pos - file.length) fill).take pos).length = pos := by
    simp only [List.length_take, List.length_append, List.length_replicate]
    omega
  rw [splice_of_ne_nil nonempty, List.append_assoc, List.getElem?_append, padded]
  split_ifs with below inside
  · rw [List.getElem?_take_of_lt below, List.getElem?_append, List.getD_eq_getElem?_getD]
    split_ifs with old
    · simp [old]
    · rw [List.getElem?_replicate_of_lt (by omega), List.getElem?_eq_none (by omega)]
      rfl
  · rw [List.getElem?_append_left (by omega)]
  · rw [List.getElem?_append_right (by omega), List.getElem?_drop]
    congr 1
    omega

/-- A nonempty write reaches as far as the old sequence or the data. -/
theorem length_splice (nonempty : data ≠ []) :
    (splice fill file pos data).length = max file.length (pos + data.length) := by
  have positive := List.length_pos_iff.mpr nonempty
  simp only [splice_of_ne_nil nonempty, List.length_append, List.length_take, List.length_replicate,
    List.length_drop]
  omega

/-- A write that starts where the previous one ended extends it. -/
theorem splice_splice (fill : α) (file data more : List α) (pos : Nat) :
    splice fill (splice fill file pos data) (pos + data.length) more =
      splice fill file pos (data ++ more) := by
  by_cases first : data = []
  · subst first
    simp
  by_cases second : more = []
  · subst second
    simp
  apply List.ext_getElem?
  intro i
  have whole : data ++ more ≠ [] := by simp [first]
  rw [getElem?_splice second, getElem?_splice first, getElem?_splice whole,
    List.getD_eq_getElem?_getD, getElem?_splice first, List.length_append, List.getElem?_append]
  by_cases below : i < pos
  · simp [below, show i < pos + data.length by omega]
  · by_cases inside : i < pos + data.length
    · have mem : i - pos < data.length := by omega
      simp [below, inside, mem, show i < pos + (data.length + more.length) by omega]
    · have beyond : ¬ i - pos < data.length := by omega
      simp only [below, inside, beyond, if_false]
      simp only [show i - pos - data.length = i - (pos + data.length) by omega,
        show pos + (data.length + more.length) = pos + data.length + more.length by omega]

/-- A nonempty write yields a target exactly when the data are the target's at that
place, and the old sequence is no longer than the target, agrees with it below `pos`
(a gap counting as filled) and is equal to it beyond the data. -/
theorem splice_eq_iff (nonempty : data ≠ []) : splice fill file pos data = target ↔
    (target.drop pos).take data.length = data ∧ (∀ i < pos, file.getD i fill = target.getD i fill) ∧
      file.length ≤ target.length ∧
        file.drop (pos + data.length) = target.drop (pos + data.length) := by
  have positive := List.length_pos_iff.mpr nonempty
  constructor
  · rintro rfl
    have beyond : ∀ i, pos + data.length ≤ i → (splice fill file pos data)[i]? = file[i]? := by
      intro i past
      rw [getElem?_splice nonempty, if_neg (by omega), if_neg (by omega)]
    have inside : ∀ i < data.length, (splice fill file pos data)[pos + i]? = data[i]? := by
      intro i small
      rw [getElem?_splice nonempty, if_neg (by omega), if_pos (by omega), Nat.add_sub_cancel_left]
    refine ⟨?_, fun i below => ?_, ?_, ?_⟩
    · apply List.ext_getElem?
      intro i
      by_cases small : i < data.length
      · rw [List.getElem?_take_of_lt small, List.getElem?_drop, inside i small]
      · have short := List.length_take_le data.length ((splice fill file pos data).drop pos)
        rw [List.getElem?_eq_none (by omega), List.getElem?_eq_none (by omega)]
    · rw [List.getD_eq_getElem?_getD (l := splice _ _ _ _), getElem?_splice nonempty, if_pos below,
        Option.getD_some]
    · by_contra longer
      have last := beyond (file.length - 1)
      have := inside (data.length - 1) (by omega)
      rw [List.getElem?_eq_getElem (l := data) (by omega)] at this
      have room := (List.getElem?_eq_some_iff.mp this).1
      rw [List.getElem?_eq_none (by omega), List.getElem?_eq_getElem (by omega)] at last
      exact absurd (last (by omega)) (by simp)
    · apply List.ext_getElem?
      intro i
      rw [List.getElem?_drop, List.getElem?_drop, beyond _ (by omega)]
  · rintro ⟨here, below, length_le, tail⟩
    have room : pos + data.length ≤ target.length := by
      have := congrArg List.length here
      rw [List.length_take, List.length_drop] at this
      omega
    apply List.ext_getElem?
    intro i
    rw [getElem?_splice nonempty]
    split_ifs with low inside
    · rw [below i low, List.getD_eq_getElem?_getD, List.getElem?_eq_getElem (by omega)]
      rfl
    · rw [← here, List.getElem?_take_of_lt (by omega), List.getElem?_drop, Nat.add_sub_cancel' (by omega)]
    · have shifted := congrArg (·[i - (pos + data.length)]?) tail
      simpa only [List.getElem?_drop, Nat.add_sub_cancel' (Nat.le_of_not_lt inside)] using shifted

/-- Writing what is there already changes nothing. -/
theorem splice_of_prefix (here : data <+: file.drop pos) : splice fill file pos data = file := by
  by_cases nothing : data = []
  · rw [nothing, splice_nil]
  · rw [splice_eq_iff nothing]
    exact ⟨(List.prefix_iff_eq_take.mp here).symm, fun _ _ => rfl, Nat.le_refl _, rfl⟩

/-- Writing data of a target at their place extends what is there of the target. -/
theorem splice_take {len : Nat} (within : pos ≤ len) (own : data <+: target.drop pos) :
    splice fill (target.take len) pos data = target.take (max len (pos + data.length)) := by
  by_cases nothing : data = []
  · rw [nothing, splice_nil, List.length_nil, Nat.add_zero, Nat.max_eq_left within]
  have room : pos + data.length ≤ target.length := by
    have positive := List.length_pos_iff.mpr nothing
    have inside := own.length_le
    rw [List.length_drop] at inside
    omega
  apply List.ext_getElem?
  intro i
  rw [getElem?_splice nothing]
  split_ifs with below inside
  · rw [List.getD_eq_getElem?_getD, List.getElem?_take_of_lt (by omega), List.getElem?_take_of_lt (by omega),
      List.getElem?_eq_getElem (by omega), Option.getD_some]
  · obtain ⟨rest, split⟩ := own
    have front : (data ++ rest)[i - pos]? = data[i - pos]? := List.getElem?_append_left (by omega)
    rw [List.getElem?_take_of_lt (by omega), ← front, split, List.getElem?_drop, Nat.add_sub_cancel' (by omega)]
  · rw [List.getElem?_take, List.getElem?_take]
    split_ifs
    · rfl
    · omega
    · omega
    · rfl

/-- Data taken from the target at their place: the first condition holds, and beyond them
means beyond `stop`. -/
theorem splice_segment_eq_iff {stop : Nat} (start : pos < stop) (fits : pos < target.length) :
    splice fill file pos ((target.take stop).drop pos) = target ↔
      (∀ i < pos, file.getD i fill = target.getD i fill) ∧ file.length ≤ target.length ∧
        file.drop stop = target.drop stop := by
  have width : pos + ((target.take stop).drop pos).length = min stop target.length := by
    rw [List.length_drop, List.length_take]
    omega
  have nonempty : (target.take stop).drop pos ≠ [] := by
    intro empty
    rw [empty, List.length_nil] at width
    omega
  have own : (target.drop pos).take ((target.take stop).drop pos).length =
      (target.take stop).drop pos := by
    rw [List.drop_take, List.length_take, List.take_eq_take_min (l := target.drop pos) (i := stop - pos)]
  rw [splice_eq_iff nonempty, width]
  by_cases past : stop ≤ target.length
  · rw [Nat.min_eq_left past]
    simp only [own, true_and]
  · rw [Nat.min_eq_right (by omega)]
    have ends : file.length ≤ target.length →
        (file.drop target.length = target.drop target.length ∧ file.drop stop = target.drop stop) := by
      intro length_le
      refine ⟨?_, ?_⟩
      · rw [List.drop_of_length_le length_le, List.drop_of_length_le (Nat.le_refl _)]
      · rw [List.drop_of_length_le (by omega), List.drop_of_length_le (by omega)]
    grind

end Splice
