import Mathlib.Algebra.Group.Nat.Defs
import Mathlib.Data.Nat.Log

/-!
# Natural numbers through a binary64

A natural number converted to `double`, and the product of such a number with
1.5, are rounded to a significand of 53 bits, to nearest and ties to even;
rounding does not depend on the scale, so it is a function on naturals. The
result converted back to an integer type is truncated.

`round_error` bounds the error from below by one part in 2^53, and
`le_timesThreeHalves` is what growth policies rest on: multiplying by 1.5 in
binary64 and truncating never loses against the number itself.
-/

namespace Keel.Double

/-- Rounding to a 53-bit significand, to nearest, ties to even. -/
def round (n : Nat) : Nat :=
  if n < 2 ^ 53 then n
  else
    let e := Nat.log2 n - 52
    if 2 * (n % 2 ^ e) < 2 ^ e ∨ (2 * (n % 2 ^ e) = 2 ^ e ∧ n / 2 ^ e % 2 = 0) then
      n / 2 ^ e * 2 ^ e
    else (n / 2 ^ e + 1) * 2 ^ e

/-- `static_cast<size_t>(n * 1.5)`: the product 3n/2 is rounded at twice its
scale and halved, which truncates. -/
def timesThreeHalves (n : Nat) : Nat := round (3 * round n) / 2

/-- Small numbers are exact. -/
theorem round_of_lt {n : Nat} (h : n < 2 ^ 53) : round n = n := by
  rw [round, if_pos h]

/-- The unit in the last place is at most twice one part in 2^53. -/
theorem ulp_le {n : Nat} (h : 2 ^ 53 ≤ n) : 2 ^ (Nat.log2 n - 52) ≤ 2 * (n / 2 ^ 53) := by
  have hn : n ≠ 0 := by omega
  have hlog : 53 ≤ Nat.log2 n := (Nat.le_log2 hn).mpr h
  obtain ⟨d, hd⟩ := Nat.exists_eq_add_of_le hlog
  have hle : 2 ^ d ≤ n / 2 ^ 53 := by
    rw [Nat.le_div_iff_mul_le (Nat.two_pow_pos 53), ← Nat.pow_add, Nat.add_comm, ← hd]
    exact Nat.log2_self_le hn
  rw [show Nat.log2 n - 52 = d + 1 by omega, Nat.pow_succ]
  omega

/-- Rounding loses at most one part in 2^53. -/
theorem round_error (n : Nat) : n ≤ round n + n / 2 ^ 53 := by
  by_cases h : n < 2 ^ 53
  · rw [round_of_lt h]
    exact Nat.le_add_right n _
  · have hulp := ulp_le (Nat.le_of_not_lt h)
    have hdiv := Nat.div_add_mod' n (2 ^ (Nat.log2 n - 52))
    have hmod := Nat.mod_lt n (Nat.two_pow_pos (Nat.log2 n - 52))
    rw [round, if_neg h]
    dsimp only
    split
    · omega
    · rw [Nat.add_mul, Nat.one_mul]
      omega

/-- Growth by 1.5 in binary64 does not shrink. -/
theorem le_timesThreeHalves (n : Nat) : n ≤ timesThreeHalves n := by
  have h₁ := round_error n
  have h₂ := round_error (3 * round n)
  unfold timesThreeHalves
  omega

/-- It gains at least one, from 2 on. -/
theorem lt_timesThreeHalves {n : Nat} (h : 2 ≤ n) : n < timesThreeHalves n := by
  have h₁ := round_error n
  have h₂ := round_error (3 * round n)
  unfold timesThreeHalves
  omega

/-- Below 2^54 rounding adds at most one. -/
theorem round_le {n : Nat} (h : n < 2 ^ 54) : round n ≤ n + 1 := by
  by_cases hsmall : n < 2 ^ 53
  · rw [round_of_lt hsmall]
    exact Nat.le_succ n
  · have hn : n ≠ 0 := by omega
    have hlog : Nat.log2 n = 53 :=
      (Nat.log2_eq_iff hn).mpr ⟨Nat.le_of_not_lt hsmall, h⟩
    rw [round, if_neg hsmall, hlog]
    dsimp only
    split <;> omega

/-- Growth by 1.5 in binary64 is exact up to one half, as long as the product has 54 bits. -/
theorem timesThreeHalves_le {n : Nat} (h : 3 * n < 2 ^ 54) :
    2 * timesThreeHalves n ≤ 3 * n + 1 := by
  have hround : round n = n := round_of_lt (by omega)
  have hle := round_le h
  rw [timesThreeHalves, hround]
  omega

end Keel.Double
