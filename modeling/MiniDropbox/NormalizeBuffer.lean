/-
The buffer of `normalize_path` (`util.c`).

`normalizePath` keeps the output as a list. Here it is the memory `out` points to and the
index `i`, and every index that is read or written is recorded. The loop runs over the
characters of the input as the source does.

* `normalizeBuffer_path` — the buffer ends up holding `normalizePath path`.
* `normalizeBuffer_bounds` — the indices that are read have been written, and those that
  are written lie in the `strlen(path) + 2` bytes allocated.
-/

import MiniDropbox.Lib.Slots
import MiniDropbox.Path

namespace MiniDropbox

/-- The output: the memory, the index, each index read with the value of `i` then, and the
indices written. -/
structure NormBuffer where
  out : Nat → Byte
  i : Nat
  reads : List (Int × Nat)
  writes : List Nat

namespace NormBuffer

/-- `out[i++] = c` -/
def put (b : NormBuffer) (c : Byte) : NormBuffer :=
  { b with out := Function.update b.out b.i c, i := b.i + 1, writes := b.writes ++ [b.i] }

/-- `memcpy(out + i, start, len); i += len` -/
def putAll (b : NormBuffer) (s : List Byte) : NormBuffer := s.foldl put b

/-- `out[i - back]` is read. -/
def look (b : NormBuffer) (back : Nat) : NormBuffer :=
  { b with reads := b.reads ++ [((b.i : Int) - back, b.i)] }

/-- `while (i > floor && out[i - 1] != '/') i--;` from the index `i` on. -/
def rewindTo (floor : Nat) (b : NormBuffer) : Nat → NormBuffer
  | 0 => { b with i := 0 }
  | i + 1 =>
      let here := { b with i := i + 1 }
      if floor < i + 1 then
        if b.out i ≠ slash then rewindTo floor (here.look 1) i else here.look 1
      else here

/-- One component of an absolute path that is `..`. -/
def upAbsolute (b : NormBuffer) : NormBuffer := if b.i > 1 then b.rewindTo 1 (b.i - 1) else b

/-- The test `out[i - 1] == '.' && (i < 2 || out[i - 2] == '/')`, behind `i > 0`. -/
def endsInDot (b : NormBuffer) : Bool × NormBuffer :=
  if b.out (b.i - 1) = dot then
    if b.i < 2 then (true, b.look 1) else (b.out (b.i - 2) = slash, (b.look 1).look 2)
  else (false, b.look 1)

/-- The separator that is written when something is there already. -/
def separate (b : NormBuffer) : NormBuffer := if b.i > 0 then b.put slash else b

/-- One component of a relative path that is `..`. -/
def upRelative (b : NormBuffer) : NormBuffer :=
  if b.i > 0 then
    let test := b.endsInDot
    if test.1 then test.2.separate.putAll [dot, dot]
    else
      let back := test.2.rewindTo 0 (b.i - 1)
      if back.i > 0 then { back with i := back.i - 1 } else back
  else b.separate.putAll [dot, dot]

/-- Any other component. -/
def name (b : NormBuffer) (comp : List Byte) : NormBuffer :=
  if b.i > 0 then
    if b.out (b.i - 1) ≠ slash then ((b.look 1).put slash).putAll comp else (b.look 1).putAll comp
  else b.putAll comp

/-- One component of the input. -/
def step (isAbsolute : Bool) (b : NormBuffer) (comp : CStr) : NormBuffer :=
  if comp = [dot] then b
  else if comp = [dot, dot] then if isAbsolute then b.upAbsolute else b.upRelative
  else b.name comp

/-- The loop over the input: a slash is skipped, and a component is scanned to its end. -/
def run (isAbsolute : Bool) : Nat → CStr → NormBuffer → NormBuffer
  | 0, _, b => b
  | _ + 1, [], b => b
  | fuel + 1, c :: p, b =>
      if c = slash then run isAbsolute fuel p b
      else run isAbsolute fuel ((c :: p).dropWhile (· ≠ slash)) (b.step isAbsolute ((c :: p).takeWhile (· ≠ slash)))

end NormBuffer

/-- Mirrors `normalize_path`, on the memory `malloc` returns. -/
def normalizeBuffer (memory : Nat → Byte) (path : CStr) : NormBuffer :=
  let isAbsolute := path.head? == some slash
  let b : NormBuffer := ⟨memory, 0, [], []⟩
  let b := (if isAbsolute then b.put slash else b).run isAbsolute path.length path
  let b := if b.i = 0 then b.put dot else b
  { b.put 0 with i := b.i }

/-! ### The bounds of one component -/

namespace NormBuffer

/-- Each index read lies below `i` and is not negative; the indices written lie below
`limit`. -/
structure Within (limit : Nat) (b : NormBuffer) : Prop where
  reads : ∀ r ∈ b.reads, 0 ≤ r.1 ∧ r.1 < r.2
  writes : ∀ w ∈ b.writes, w < limit

variable {b : NormBuffer} {limit : Nat} {s comp : List Byte}

@[simp] theorem i_put (b : NormBuffer) (c : Byte) : (b.put c).i = b.i + 1 := rfl

@[simp] theorem i_look (b : NormBuffer) (back : Nat) : (b.look back).i = b.i := rfl

theorem Within.put (within : b.Within limit) (room : b.i < limit) (c : Byte) : (b.put c).Within limit where
  reads := within.reads
  writes w mem := by
    rcases List.mem_append.mp mem with old | new
    · exact within.writes w old
    · rw [List.mem_singleton.mp new]
      exact room

theorem i_putAll (s : List Byte) (b : NormBuffer) : (b.putAll s).i = b.i + s.length := by
  induction s generalizing b with
  | nil => rfl
  | cons c s ih =>
      rw [putAll, List.foldl_cons, ← putAll, ih, put, List.length_cons]
      exact Nat.add_right_comm _ _ _

theorem Within.putAll (within : b.Within limit) (room : b.i + s.length ≤ limit) : (b.putAll s).Within limit := by
  induction s generalizing b with
  | nil => exact within
  | cons c s ih =>
      rw [List.length_cons] at room
      exact ih (within.put (by omega) c) (by rw [i_put]; omega)

theorem Within.look (within : b.Within limit) {back : Nat} (positive : 0 < back) (enough : back ≤ b.i) :
    (b.look back).Within limit where
  reads r mem := by
    rcases List.mem_append.mp mem with old | new
    · exact within.reads r old
    · rw [List.mem_singleton.mp new]
      constructor <;> dsimp only <;> omega
  writes := within.writes

theorem Within.at_index (within : b.Within limit) (i : Nat) : ({ b with i := i } : NormBuffer).Within limit :=
  ⟨within.reads, within.writes⟩

theorem i_rewindTo_le (floor i : Nat) (b : NormBuffer) : (b.rewindTo floor i).i ≤ i := by
  induction i generalizing b with
  | zero => exact Nat.le_refl 0
  | succ i ih =>
      rw [NormBuffer.rewindTo]
      split_ifs
      · exact Nat.le_succ_of_le (ih _)
      · exact Nat.le_refl _
      · exact Nat.le_refl _

theorem Within.rewindTo (within : b.Within limit) (floor i : Nat) : (b.rewindTo floor i).Within limit := by
  induction i generalizing b with
  | zero => exact within.at_index 0
  | succ i ih =>
      have here := within.at_index (i + 1)
      have looked := here.look Nat.one_pos (Nat.succ_le_succ (Nat.zero_le i))
      rw [NormBuffer.rewindTo]
      split_ifs with more other
      · exact ih looked
      · exact looked
      · exact here

theorem Within.endsInDot (within : b.Within limit) (some_ : b.i > 0) :
    b.endsInDot.2.Within limit ∧ b.endsInDot.2.i = b.i := by
  unfold NormBuffer.endsInDot
  have one := within.look Nat.one_pos some_
  split_ifs with ends short
  · exact ⟨one, rfl⟩
  · exact ⟨one.look Nat.two_pos (Nat.le_of_not_lt short), rfl⟩
  · exact ⟨one, rfl⟩

theorem Within.separate (within : b.Within limit) (room : b.i < limit) :
    b.separate.Within limit ∧ b.separate.i ≤ b.i + 1 := by
  unfold NormBuffer.separate
  split_ifs with some_
  · exact ⟨within.put room slash, Nat.le_refl _⟩
  · exact ⟨within, Nat.le_succ _⟩

/-- Two dots behind a separator. -/
theorem Within.dots (within : b.Within limit) (room : b.i + 3 ≤ limit) :
    (b.separate.putAll [dot, dot]).Within limit ∧ (b.separate.putAll [dot, dot]).i ≤ b.i + 3 := by
  obtain ⟨inside, higher⟩ := within.separate (by omega)
  have two : [dot, dot].length = 2 := rfl
  rw [i_putAll, two]
  exact ⟨inside.putAll (by rw [two]; omega), Nat.add_le_add_right higher 2⟩

/-- A component writes no further than its own length and a separator. -/
theorem Within.step (within : b.Within limit) (isAbsolute : Bool) (room : b.i + (comp.length + 1) ≤ limit) :
    (b.step isAbsolute comp).Within limit ∧ (b.step isAbsolute comp).i ≤ b.i + (comp.length + 1) := by
  unfold NormBuffer.step
  split_ifs with here up absolute
  · exact ⟨within, Nat.le_add_right _ _⟩
  · unfold upAbsolute
    split_ifs with some_
    · have lower := i_rewindTo_le 1 (b.i - 1) b
      exact ⟨within.rewindTo 1 (b.i - 1), by omega⟩
    · exact ⟨within, Nat.le_add_right _ _⟩
  · rw [up] at room ⊢
    simp only [List.length_cons, List.length_nil] at room ⊢
    unfold upRelative
    split_ifs with some_
    · obtain ⟨tested, same⟩ := within.endsInDot some_
      dsimp only
      split_ifs with keeps low
      · obtain ⟨inside, higher⟩ := tested.dots (by omega)
        exact ⟨inside, same ▸ higher⟩
      · have lower := i_rewindTo_le 0 (b.i - 1) b.endsInDot.2
        exact ⟨(tested.rewindTo 0 (b.i - 1)).at_index _, by dsimp only; omega⟩
      · have lower := i_rewindTo_le 0 (b.i - 1) b.endsInDot.2
        exact ⟨tested.rewindTo 0 (b.i - 1), by omega⟩
    · exact within.dots room
  · unfold NormBuffer.name
    split_ifs with some_ other
    · have looked := within.look Nat.one_pos some_
      have sep := looked.put (by rw [i_look]; omega) slash
      exact ⟨sep.putAll (by rw [i_put, i_look]; omega), by rw [i_putAll, i_put, i_look]; omega⟩
    · have looked := within.look Nat.one_pos some_
      exact ⟨looked.putAll (by rw [i_look]; omega), by rw [i_putAll, i_look]; omega⟩
    · exact ⟨within.putAll (by omega), by rw [i_putAll]; omega⟩

/-! ### What the buffer holds -/

/-- The bytes below `i` are those of a list. -/
def Holds (b : NormBuffer) (l : CStr) : Prop := Slots.held b.out 0 b.i = l

variable {l : CStr}

theorem Holds.length (holds : b.Holds l) : b.i = l.length := by
  rw [← holds, Slots.length_held]

theorem Holds.out (holds : b.Holds l) (k : Nat) (below : k < b.i) : l[k]? = some (b.out k) := by
  rw [← holds, Slots.getElem?_held, if_pos below, Nat.zero_add]

theorem Holds.put (holds : b.Holds l) (c : Byte) : (b.put c).Holds (l ++ [c]) := by
  rw [Holds, ← holds]
  exact Slots.held_snoc b.out c b.i

theorem Holds.putAll (holds : b.Holds l) (s : List Byte) : (b.putAll s).Holds (l ++ s) := by
  induction s generalizing b l with
  | nil =>
      rw [List.append_nil]
      exact holds
  | cons c s ih =>
      have longer := ih (holds.put c)
      rwa [List.append_assoc, List.singleton_append] at longer

theorem Holds.look (holds : b.Holds l) (back : Nat) : (b.look back).Holds l := holds

/-- Going back to an index drops what is behind it. -/
theorem Holds.at_index (holds : b.Holds l) {i : Nat} (low : i ≤ b.i) : ({ b with i := i } : NormBuffer).Holds (l.take i) := by
  apply List.ext_getElem?
  intro k
  rw [← holds, List.getElem?_take, Slots.getElem?_held, Slots.getElem?_held]
  by_cases below : k < i
  · rw [if_pos below, if_pos below, if_pos (by omega)]
  · rw [if_neg below, if_neg below]

theorem out_rewindTo (floor i : Nat) (b : NormBuffer) : (b.rewindTo floor i).out = b.out := by
  induction i generalizing b with
  | zero => rfl
  | succ i ih =>
      rw [NormBuffer.rewindTo]
      split_ifs
      · exact ih _
      · rfl
      · rfl

/-- The index goes back as far as it does on the list. -/
theorem i_rewindTo {floor i : Nat} (same : ∀ k < i, l[k]? = some (b.out k)) :
    (b.rewindTo floor i).i = rewind floor l i := by
  induction i generalizing b with
  | zero => rfl
  | succ i ih =>
      have here := same i (Nat.lt_succ_self i)
      rw [NormBuffer.rewindTo, rewind]
      by_cases more : floor < i + 1
      · by_cases other : b.out i ≠ slash
        · rw [if_pos more, if_pos other, if_pos ⟨more, by rw [here]; simpa using other⟩]
          exact ih fun k below => same k (Nat.lt_succ_of_lt below)
        · rw [if_pos more, if_neg other, if_neg fun both => both.2 (by rw [here, not_not.mp other])]
          rfl
      · rw [if_neg more, if_neg fun both => more both.1]

theorem Holds.rewindTo (holds : b.Holds l) (floor : Nat) {i : Nat} (low : i ≤ b.i) :
    (b.rewindTo floor i).Holds (l.take (rewind floor l i)) := by
  have index := @i_rewindTo b l floor i fun k below => holds.out k (Nat.lt_of_lt_of_le below low)
  have lower := i_rewindTo_le floor i b
  rw [← index, Holds, out_rewindTo]
  exact holds.at_index (Nat.le_trans lower low)

theorem Holds.endsInDot (holds : b.Holds l) (some_ : b.i > 0) :
    b.endsInDot.1 = MiniDropbox.endsInDot l ∧ b.endsInDot.2.Holds l ∧ b.endsInDot.2.i = b.i := by
  have last := holds.out _ (Nat.sub_lt some_ Nat.one_pos)
  have size := holds.length
  rw [size] at last some_
  unfold NormBuffer.endsInDot MiniDropbox.endsInDot
  rw [size, last]
  split_ifs with ends short
  · simp [ends, short, holds.look, size]
  · have second := holds.out (b.i - 2) (by omega)
    rw [size] at second
    refine ⟨?_, (holds.look 1).look 2, size⟩
    simp only [ends, short, second]
    rfl
  · simp [ends, holds.look, size]

theorem Holds.separate (holds : b.Holds l) :
    b.separate.Holds (if l.length > 0 then l ++ [slash] else l) := by
  unfold NormBuffer.separate
  rw [holds.length]
  split_ifs
  · exact holds.put slash
  · exact holds

theorem Holds.upAbsolute (holds : b.Holds l) :
    b.upAbsolute.Holds (if l.length > 1 then l.take (rewind 1 l (l.length - 1)) else l) := by
  unfold NormBuffer.upAbsolute
  rw [holds.length]
  split_ifs
  · exact holds.rewindTo 1 (by rw [holds.length]; exact Nat.sub_le _ _)
  · exact holds

theorem Holds.upRelative (holds : b.Holds l) : b.upRelative.Holds
    (if l.length > 0 ∧ ¬ MiniDropbox.endsInDot l then
      l.take (if rewind 0 l (l.length - 1) > 0 then rewind 0 l (l.length - 1) - 1 else rewind 0 l (l.length - 1))
    else (if l.length > 0 then l ++ [slash] else l) ++ [dot, dot]) := by
  have size := holds.length
  unfold NormBuffer.upRelative
  by_cases some_ : b.i > 0
  · obtain ⟨test, kept, index⟩ := holds.endsInDot some_
    rw [if_pos some_]
    dsimp only
    by_cases keeps : MiniDropbox.endsInDot l = true
    · rw [test, if_pos keeps, if_neg fun both => both.2 keeps]
      exact kept.separate.putAll [dot, dot]
    · have going : l.length > 0 ∧ ¬ MiniDropbox.endsInDot l = true := ⟨by rw [← size]; exact some_, keeps⟩
      have low : b.i - 1 ≤ b.endsInDot.2.i := by
        rw [index]
        exact Nat.sub_le _ _
      have back := kept.rewindTo 0 low
      have place := @i_rewindTo _ l 0 (b.i - 1) fun k below => kept.out k (Nat.lt_of_lt_of_le below low)
      rw [test, if_neg keeps, if_pos going, size] at *
      rw [place]
      split_ifs with more
      · have lower := back.at_index (Nat.le_trans (Nat.sub_le _ 1) (Nat.le_of_eq place.symm))
        rw [List.take_take, Nat.min_eq_left (Nat.sub_le _ _)] at lower
        exact lower
      · exact back
  · have nothing : ¬ l.length > 0 := by rw [← size]; exact some_
    rw [if_neg some_, if_neg fun both => nothing both.1]
    exact holds.separate.putAll [dot, dot]

theorem Holds.name (holds : b.Holds l) (comp : CStr) : (b.name comp).Holds
    ((if l.length > 0 ∧ l[l.length - 1]? ≠ some slash then l ++ [slash] else l) ++ comp) := by
  have size := holds.length
  unfold NormBuffer.name
  by_cases some_ : b.i > 0
  · have last := holds.out _ (Nat.sub_lt some_ Nat.one_pos)
    rw [size] at last some_ ⊢
    rw [if_pos some_, last]
    by_cases other : b.out (l.length - 1) ≠ slash
    · rw [if_pos other, if_pos ⟨some_, by simpa using other⟩]
      exact ((holds.look 1).put slash).putAll comp
    · rw [if_neg other, if_neg fun both => both.2 (by rw [not_not.mp other])]
      exact (holds.look 1).putAll comp
  · rw [if_neg some_, if_neg fun both => some_ (by rw [size]; exact both.1)]
    exact holds.putAll comp

/-- A component does to the buffer what it does to the list. -/
theorem Holds.step (holds : b.Holds l) (isAbsolute : Bool) (comp : CStr) :
    (b.step isAbsolute comp).Holds (normalizeStep isAbsolute l comp) := by
  unfold NormBuffer.step normalizeStep
  by_cases here : comp = [dot]
  · rw [if_pos here, if_pos here]
    exact holds
  · rw [if_neg here, if_neg here]
    by_cases up : comp = [dot, dot]
    · rw [if_pos up, if_pos up]
      cases isAbsolute with
      | true => exact holds.upAbsolute
      | false => exact holds.upRelative
    · rw [if_neg up, if_neg up]
      exact holds.name comp

/-! ### The whole input -/

/-- The loop over the characters takes the components one after the other. -/
theorem run_eq (isAbsolute : Bool) {fuel : Nat} {p : CStr} (enough : p.length ≤ fuel) :
    b.run isAbsolute fuel p = (components p).foldl (NormBuffer.step isAbsolute) b := by
  induction fuel generalizing b p with
  | zero =>
      rw [List.length_eq_zero_iff.mp (Nat.le_zero.mp enough)]
      rfl
  | succ fuel ih =>
      cases p with
      | nil => rfl
      | cons c p =>
          have shorter : p.length ≤ fuel := Nat.le_of_succ_le_succ enough
          rw [NormBuffer.run]
          by_cases skipped : c = slash
          · subst skipped
            have rest : components (slash :: p) = components p := Lexical.pieces_append [] p
            rw [if_pos rfl, ih shorter, rest]
          · have split : components (c :: p) = _ := Lexical.pieces_takeWhile skipped
            have less : ((c :: p).dropWhile (· ≠ slash)).length ≤ fuel := by
              rw [List.dropWhile_cons_of_pos (by simpa using skipped)]
              exact Nat.le_trans (List.dropWhile_sublist _).length_le shorter
            rw [if_neg skipped, ih less, split, List.foldl_cons]
            rfl

theorem Within.foldl (within : b.Within limit) (isAbsolute : Bool) {comps : List CStr}
    (room : b.i + (Lexical.joined slash comps).length ≤ limit) :
    (comps.foldl (NormBuffer.step isAbsolute) b).Within limit ∧
      (comps.foldl (NormBuffer.step isAbsolute) b).i ≤ b.i + (Lexical.joined slash comps).length := by
  induction comps generalizing b with
  | nil => exact ⟨within, Nat.le_add_right _ _⟩
  | cons comp comps ih =>
      rw [Lexical.joined_cons, List.length_cons, List.length_append] at room ⊢
      obtain ⟨inside, index⟩ := @Within.step b limit comp within isAbsolute (by omega)
      obtain ⟨rest, last⟩ := ih inside (by omega)
      exact ⟨rest, by rw [List.foldl_cons]; omega⟩

theorem Holds.foldl (holds : b.Holds l) (isAbsolute : Bool) (comps : List CStr) :
    (comps.foldl (NormBuffer.step isAbsolute) b).Holds (comps.foldl (normalizeStep isAbsolute) l) := by
  induction comps generalizing b l with
  | nil => exact holds
  | cons comp comps ih => exact ih (holds.step isAbsolute comp)

end NormBuffer

/-- The buffer ends up holding the normalised path. -/
theorem normalizeBuffer_path (memory : Nat → Byte) (path : CStr) :
    (normalizeBuffer memory path).Holds (normalizePath path) := by
  have start : (if path.head? == some slash then (⟨memory, 0, [], []⟩ : NormBuffer).put slash
      else ⟨memory, 0, [], []⟩).Holds (if path.head? == some slash then [slash] else []) := by
    have empty : (⟨memory, 0, [], []⟩ : NormBuffer).Holds [] := rfl
    split_ifs
    · exact empty.put slash
    · exact empty
  have done := start.foldl (path.head? == some slash) (components path)
  unfold normalizeBuffer normalizePath
  dsimp only
  rw [NormBuffer.run_eq _ (Nat.le_refl _)]
  generalize (components path).foldl (NormBuffer.step _) _ = b at done
  generalize (components path).foldl (normalizeStep _) _ = l at done
  have empty : b.i = 0 ↔ l = [] := by rw [done.length, List.length_eq_zero_iff]
  have last : ∀ {b : NormBuffer} {l : CStr}, b.Holds l → ({ b.put 0 with i := b.i } : NormBuffer).Holds l := by
    intro b l holds
    have ended := (holds.put 0).at_index (Nat.le_succ b.i)
    rwa [List.take_append_of_le_length (Nat.le_of_eq holds.length), List.take_of_length_le
      (Nat.le_of_eq holds.length.symm)] at ended
  by_cases nothing : b.i = 0
  · rw [if_pos nothing, if_pos (empty.mp nothing)]
    have dotted := done.put dot
    rw [empty.mp nothing] at dotted
    exact last dotted
  · rw [if_neg nothing, if_neg fun none => nothing (empty.mpr none)]
    exact last done

/-- Every index that is read is not negative and lies below `i`; every index that is
written lies in the bytes allocated, and in the range of `int`. -/
theorem normalizeBuffer_bounds (memory : Nat → Byte) (path : CStr) (short : path.length < 2 ^ 31 - 2) :
    (∀ r ∈ (normalizeBuffer memory path).reads, 0 ≤ r.1 ∧ r.1 < r.2) ∧
      ∀ w ∈ (normalizeBuffer memory path).writes, w < path.length + 2 ∧ w < 2 ^ 31 := by
  have cost := length_components path
  have start : (if path.head? == some slash then (⟨memory, 0, [], []⟩ : NormBuffer).put slash
      else ⟨memory, 0, [], []⟩).Within (path.length + 2) ∧
      (if path.head? == some slash then (⟨memory, 0, [], []⟩ : NormBuffer).put slash
        else ⟨memory, 0, [], []⟩).i = if path.head? == some slash then 1 else 0 := by
    have empty : (⟨memory, 0, [], []⟩ : NormBuffer).Within (path.length + 2) :=
      ⟨List.forall_mem_nil _, List.forall_mem_nil _⟩
    split_ifs
    · exact ⟨empty.put (Nat.succ_pos _) slash, rfl⟩
    · exact ⟨empty, rfl⟩
  have inside : (normalizeBuffer memory path).Within (path.length + 2) := by
    unfold normalizeBuffer
    dsimp only
    rw [NormBuffer.run_eq _ (Nat.le_refl _)]
    have room := Nat.le_trans (Nat.add_le_add_right (Nat.le_of_eq start.2) _) (Nat.le_succ_of_le cost)
    obtain ⟨done, index⟩ := start.1.foldl (path.head? == some slash) room
    rw [start.2] at index
    generalize (components path).foldl (NormBuffer.step _) _ = b at done index
    have last : ∀ {b : NormBuffer}, b.Within (path.length + 2) → b.i < path.length + 2 →
        ({ b.put 0 with i := b.i } : NormBuffer).Within (path.length + 2) :=
      fun within room => (within.put room 0).at_index _
    split_ifs with nothing
    · exact last (done.put (by omega) dot) (by rw [NormBuffer.i_put]; omega)
    · exact last done (by omega)
  exact ⟨inside.reads, fun w mem => ⟨inside.writes w mem, by have := inside.writes w mem; omega⟩⟩

/-- A path with a root, an empty component and a `..`. -/
theorem normalizeBuffer_bounds_short : (cstr "/a//../b").length < 2 ^ 31 - 2 ∧
    (∀ r ∈ (normalizeBuffer (fun _ => 0) (cstr "/a//../b")).reads, 0 ≤ r.1 ∧ r.1 < r.2) ∧
      ∀ w ∈ (normalizeBuffer (fun _ => 0) (cstr "/a//../b")).writes,
        w < (cstr "/a//../b").length + 2 ∧ w < 2 ^ 31 :=
  ⟨by decide, normalizeBuffer_bounds _ _ (by decide)⟩

end MiniDropbox
