/-
Rounding of rationals to a binary significand, ties to even.

`roundTo p q` is the value with a `p`-bit significand that is nearest to `q`,
the even one of two equally near ones.  Exponents are not bounded, so there is
neither overflow nor underflow.

* `roundTo_intCast` — integers that fit into the significand are exact.
-/
import Mathlib

namespace Rounding

/-- The integer nearest to `q`; of two equally near ones the even one. -/
def roundEven (q : ℚ) : ℤ :=
  if q - ⌊q⌋ < 1 / 2 then ⌊q⌋
  else if 1 / 2 < q - ⌊q⌋ then ⌊q⌋ + 1
  else if ⌊q⌋ % 2 = 0 then ⌊q⌋ else ⌊q⌋ + 1

theorem roundEven_intCast (n : ℤ) : roundEven (n : ℚ) = n := by
  rw [roundEven, if_pos (by simp), Int.floor_intCast]

theorem roundEven_bounds (q : ℚ) : ⌊q⌋ ≤ roundEven q ∧ roundEven q ≤ ⌊q⌋ + 1 := by
  rw [roundEven]
  split_ifs
  · omega
  · omega
  · omega
  · omega

/-- The exponent of the last place of a `p`-bit significand for `q`. -/
def lastPlace (p : ℕ) (q : ℚ) : ℤ := Int.log 2 |q| - (p - 1)

/-- Round `q` to a `p`-bit significand. -/
def roundTo (p : ℕ) (q : ℚ) : ℚ :=
  if q = 0 then 0 else roundEven (q / 2 ^ lastPlace p q) * 2 ^ lastPlace p q

theorem lastPlace_intCast_nonpos {p : ℕ} {n : ℤ} (hn : n ≠ 0) (h : |n| < 2 ^ p) :
    lastPlace p (n : ℚ) ≤ 0 := by
  have hpos : (0 : ℚ) < |(n : ℚ)| := by simpa using hn
  have hlog : Int.log 2 |(n : ℚ)| < p := by
    have hb : ((2 : ℕ) : ℚ) ^ Int.log 2 |(n : ℚ)| ≤ |(n : ℚ)| :=
      Int.zpow_log_le_self (by norm_num) hpos
    have hlt : |(n : ℚ)| < (2 : ℚ) ^ (p : ℤ) := by
      rw [zpow_natCast]
      exact_mod_cast h
    have hlt' : (2 : ℚ) ^ Int.log 2 |(n : ℚ)| < (2 : ℚ) ^ (p : ℤ) :=
      lt_of_le_of_lt (by simpa using hb) hlt
    exact (zpow_lt_zpow_iff_right₀ (by norm_num)).mp hlt'
  rw [lastPlace]
  omega

theorem roundTo_intCast {p : ℕ} {n : ℤ} (h : |n| < 2 ^ p) : roundTo p (n : ℚ) = n := by
  rw [roundTo]
  by_cases hn : n = 0
  · simp [hn]
  rw [if_neg (by exact_mod_cast hn)]
  obtain ⟨e, he⟩ : ∃ e : ℕ, lastPlace p (n : ℚ) = -(e : ℤ) :=
    ⟨(-lastPlace p (n : ℚ)).toNat, by have := lastPlace_intCast_nonpos hn h; omega⟩
  -- scaled by a nonnegative power of two the integer stays one
  have hscaled : (n : ℚ) / 2 ^ lastPlace p (n : ℚ) = ((n * 2 ^ e : ℤ) : ℚ) := by
    rw [he, zpow_neg, zpow_natCast]
    push_cast
    field_simp
  rw [hscaled, roundEven_intCast, he, zpow_neg, zpow_natCast]
  push_cast
  field_simp

theorem roundTo_natCast {p n : ℕ} (h : n < 2 ^ p) : roundTo p (n : ℚ) = n := by
  have hn : |(n : ℤ)| < 2 ^ p := by simpa using by exact_mod_cast h
  exact_mod_cast roundTo_intCast hn

end Rounding
