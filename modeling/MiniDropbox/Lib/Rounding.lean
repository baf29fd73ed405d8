/-
Rounding a natural number to a binary floating-point format.

`nearest p n` rounds `n` to `p` significant bits, ties to even: what converting
an integer to a binary format with a `p`-bit significand gives, as long as the
exponent range is not exceeded. `ulp p n` is the spacing of the format at `n`.

The results are about quotients by a divisor that the spacing divides at least
twice, the case of a block size that is a power of two. Then rounding can move a
quotient in two places only: just below a multiple the floor gains one
(`nearest_div`), and just above one the ceiling loses one (`ceil_nearest_div`).
-/

import Mathlib.Tactic.Ring
import Mathlib.Tactic.Linarith
import Mathlib.Data.Nat.Log

namespace Rounding

variable {p d n : Nat}

/-- The spacing of the format at `n`: one until `n` needs more than `p` bits. -/
def ulp (p n : Nat) : Nat := 2 ^ (n.log2 + 1 - p)

/-- `n` rounded to `p` significant bits, ties to even. -/
def nearest (p n : Nat) : Nat :=
  if 2 * (n % ulp p n) < ulp p n ∨ 2 * (n % ulp p n) = ulp p n ∧ n / ulp p n % 2 = 0 then
    n / ulp p n * ulp p n
  else (n / ulp p n + 1) * ulp p n

theorem ulp_pos (p n : Nat) : 0 < ulp p n := Nat.two_pow_pos _

/-- Below `2 ^ bits` the spacing times any larger power of two divides a power
of two that leaves room for it. -/
theorem two_mul_ulp_dvd {bits k : Nat} (small : n < 2 ^ bits) (room : bits + 1 ≤ p + k)
    (hp : 0 < p) (hk : 0 < k) : 2 * ulp p n ∣ 2 ^ k := by
  have width : n.log2 + 1 - p + 1 ≤ k := by
    by_cases zero : n = 0
    · subst zero
      simp only [Nat.log2_zero]
      omega
    · have := (Nat.log2_lt zero).mpr small
      omega
  calc 2 * ulp p n = 2 ^ (n.log2 + 1 - p + 1) := by rw [ulp, Nat.pow_succ, Nat.mul_comm]
    _ ∣ 2 ^ k := Nat.pow_dvd_pow 2 width

/-- The spacing of a number that fits the significand. -/
theorem ulp_eq_one (small : n < 2 ^ p) (pos : 0 < p) : ulp p n = 1 := by
  by_cases zero : n = 0
  · subst zero
    simp only [ulp, Nat.log2_zero]
    rw [show 0 + 1 - p = 0 by omega, Nat.pow_zero]
  · have := (Nat.log2_lt zero).mpr small
    rw [ulp, show n.log2 + 1 - p = 0 by omega, Nat.pow_zero]

/-- A number that fits the significand is not changed. -/
theorem nearest_eq_self (small : n < 2 ^ p) (pos : 0 < p) : nearest p n = n := by
  simp [nearest, ulp_eq_one small pos, Nat.mod_one]

/-- Rounding at most doubles a number. -/
theorem nearest_le (pos : 0 < p) : nearest p n ≤ 2 * n := by
  by_cases zero : n = 0
  · subst zero
    rw [nearest_eq_self (Nat.two_pow_pos p) pos]
  · have spacing : ulp p n ≤ n := calc
      ulp p n ≤ 2 ^ n.log2 := Nat.pow_le_pow_right (by decide) (by omega)
      _ ≤ n := Nat.log2_self_le zero
    have below : n / ulp p n * ulp p n ≤ n := Nat.div_mul_le_self n _
    unfold nearest
    split_ifs
    · omega
    · rw [Nat.add_mul, Nat.one_mul]
      omega

/-- The coordinates of `n` in units of the spacing: `m` whole divisors, `q`
further spacings and a remainder `r` below one spacing. -/
private theorem coordinates {u D : Nat} (hu : 0 < u) (hD : 0 < D) (n : Nat) :
    ∃ m q r, q < D ∧ r < u ∧ n = u * (D * m + q) + r := by
  refine ⟨n / u / D, n / u % D, n % u, Nat.mod_lt _ hD, Nat.mod_lt _ hu, ?_⟩
  rw [Nat.div_add_mod, Nat.div_add_mod]

/-- Reading the coordinates back: quotients and remainders of `n` by the divisor
and by the spacing. -/
private theorem read_coordinates {u D m q r : Nat} (hq : q < D) (hr : r < u) :
    (u * (D * m + q) + r) / (u * D) = m ∧ (u * (D * m + q) + r) % (u * D) = u * q + r ∧
      (u * (D * m + q) + r) / u = D * m + q ∧ (u * (D * m + q) + r) % u = r := by
  have hu : 0 < u := by omega
  have low : u * q + r < u * D := by
    calc u * q + r < u * q + u := by omega
      _ = u * (q + 1) := by ring
      _ ≤ u * D := Nat.mul_le_mul_left u hq
  have split : u * (D * m + q) + r = u * q + r + u * D * m := by ring
  refine ⟨?_, ?_, ?_, ?_⟩
  · rw [split, Nat.add_mul_div_left _ _ (by omega), Nat.div_eq_of_lt low, Nat.zero_add]
  · rw [split, Nat.add_mul_mod_self_left, Nat.mod_eq_of_lt low]
  · rw [Nat.mul_add_div hu, Nat.div_eq_of_lt hr, Nat.add_zero]
  · rw [Nat.mul_add_mod, Nat.mod_eq_of_lt hr]

/-- The coordinates of a number for a divisor that is an even multiple of the spacing. -/
private theorem fine_coordinates (hd : 0 < d) (fine : 2 * ulp p n ∣ d) : ∃ k m q r, d = ulp p n * (2 * k) ∧ 0 < k ∧
    q < 2 * k ∧ r < ulp p n ∧ n = ulp p n * (2 * k * m + q) + r := by
  obtain ⟨k, hk⟩ := fine
  have hdk : d = ulp p n * (2 * k) := by rw [hk]; ring
  have hk0 : 0 < k := Nat.pos_of_ne_zero (by rintro rfl; simp [hdk] at hd)
  obtain ⟨m, q, r, hq, hr, hn⟩ := coordinates (ulp_pos p n) (show 0 < 2 * k by omega) n
  exact ⟨k, m, q, r, hdk, hk0, hq, hr, hn⟩

/-- Half a spacing below the next multiple of the divisor, in coordinates. -/
private theorem near_top_iff {u k q r : Nat} (hq : q < 2 * k) (hr : r < u) :
    2 * (u * (2 * k) - (u * q + r)) ≤ u ↔ q + 1 = 2 * k ∧ u ≤ 2 * r := by
  by_cases last : q + 1 = 2 * k
  · have : u * (2 * k) = u * q + u := by rw [← last]; ring
    omega
  · have : u * (q + 2) ≤ u * (2 * k) := Nat.mul_le_mul_left u (by omega)
    have : u * (q + 2) = u * q + 2 * u := by ring
    omega

/-- At most half a spacing above a multiple of the divisor, in coordinates. -/
private theorem near_bottom_iff {u q r : Nat} (hr : r < u) :
    2 * (u * q + r) ≤ u ↔ q = 0 ∧ 2 * r ≤ u := by
  cases q with
  | zero => simp
  | succ q =>
      have : u * (q + 1) = u * q + u := by ring
      omega

/-- Rounding moves the floor of a quotient only within half a spacing below the
next multiple, where it adds one. -/
theorem nearest_div (hd : 0 < d) (fine : 2 * ulp p n ∣ d) :
    nearest p n / d = if 2 * (d - n % d) ≤ ulp p n then n / d + 1 else n / d := by
  have hu := ulp_pos p n
  obtain ⟨k, m, q, r, hdk, hk0, hq, hr, hn⟩ := fine_coordinates hd fine
  obtain ⟨h1, h2, h3, h4⟩ := read_coordinates (m := m) hq hr
  rw [nearest]
  generalize ulp p n = u at *
  subst hn
  simp only [hdk, h1, h2, h3, h4, near_top_iff hq hr]
  have even : (2 * k * m + q) % 2 = q % 2 := by rw [Nat.mul_assoc, Nat.mul_add_mod]
  rw [even]
  have pieces : ∀ v, v * u / (u * (2 * k)) = v / (2 * k) := by
    intro v
    rw [Nat.mul_comm v u, Nat.mul_div_mul_left _ _ hu]
  split_ifs with down top top
  · omega
  · rw [pieces, Nat.mul_add_div (by omega), Nat.div_eq_of_lt hq, Nat.add_zero]
  · rw [pieces, show 2 * k * m + q + 1 = 2 * k * (m + 1) by rw [Nat.mul_add]; omega,
      Nat.mul_div_cancel_left _ (by omega)]
  · rw [pieces, Nat.add_assoc, Nat.mul_add_div (by omega), Nat.div_eq_of_lt (by omega),
      Nat.add_zero]

/-- Rounding moves the ceiling of a quotient only within half a spacing above a
multiple, where it subtracts one. -/
theorem ceil_nearest_div (hd : 0 < d) (fine : 2 * ulp p n ∣ d) :
    (nearest p n + (d - 1)) / d = if 2 * (n % d) ≤ ulp p n then n / d else n / d + 1 := by
  have hu := ulp_pos p n
  obtain ⟨k, m, q, r, hdk, hk0, hq, hr, hn⟩ := fine_coordinates hd fine
  obtain ⟨h1, h2, h3, h4⟩ := read_coordinates (m := m) hq hr
  rw [nearest]
  generalize ulp p n = u at *
  subst hn
  simp only [hdk, h1, h2, h3, h4, near_bottom_iff hr]
  have even : (2 * k * m + q) % 2 = q % 2 := by rw [Nat.mul_assoc, Nat.mul_add_mod]
  rw [even]
  have hd0 : 0 < u * (2 * k) := Nat.mul_pos hu (by omega)
  -- The ceiling of a multiple of the spacing lies strictly between two multiples of `d`.
  have ceil : ∀ v w, u * (2 * k) * w < v * u + u * (2 * k) → v * u ≤ u * (2 * k) * w →
      (v * u + (u * (2 * k) - 1)) / (u * (2 * k)) = w := by
    intro v w low high
    apply Nat.div_eq_of_lt_le
    · rw [Nat.mul_comm]; omega
    · rw [Nat.mul_comm w.succ, Nat.mul_succ]; omega
  have expand : u * (2 * k) * m = 2 * k * m * u := by ring
  have expand' : u * (2 * k) * (m + 1) = 2 * k * m * u + u * (2 * k) := by ring
  split_ifs with down bottom bottom
  · apply ceil
    · rw [bottom.1, expand, Nat.add_zero]; omega
    · rw [bottom.1, expand, Nat.add_zero]
  · have hq1 : 1 ≤ q := by
      by_contra zero
      exact bottom ⟨by omega, by omega⟩
    have : 1 * u ≤ q * u := Nat.mul_le_mul_right u hq1
    have : q * u ≤ 2 * k * u := Nat.mul_le_mul_right u hq.le
    have : 2 * k * u = u * (2 * k) := Nat.mul_comm _ _
    apply ceil
    · rw [expand', Nat.add_mul]; omega
    · rw [expand', Nat.add_mul]; omega
  · omega
  · have : (q + 1) * u ≤ 2 * k * u := Nat.mul_le_mul_right u hq
    have : 2 * k * u = u * (2 * k) := Nat.mul_comm _ _
    have : (q + 1) * u = q * u + u := by ring
    apply ceil
    · rw [expand', Nat.add_assoc, Nat.add_mul]; omega
    · rw [expand', Nat.add_assoc, Nat.add_mul]; omega

end Rounding
