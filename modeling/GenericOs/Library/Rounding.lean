import Mathlib.Algebra.Order.Ring.Nat
import Mathlib.Algebra.Ring.Divisibility.Basic
import Mathlib.Data.Nat.Log

/-! # Natural numbers in a binary floating-point format -/

namespace Rounding

variable {bits n k : ℕ}

/-- What one step in the last of `bits` significant bits of `n` is worth. -/
def ulp (bits n : ℕ) : ℕ := 2 ^ (Nat.log2 n + 1 - bits)

/-- `n` with `bits` significant bits, rounded to the nearest, ties to even. -/
def round (bits n : ℕ) : ℕ :=
  let unit := ulp bits n
  let q := n / unit
  let r := n % unit
  if 2 * r < unit ∨ (2 * r = unit ∧ q % 2 = 0) then q * unit else (q + 1) * unit

theorem ulp_pos : 0 < ulp bits n := Nat.two_pow_pos _

theorem ulp_le (hbits : 0 < bits) (hn : n ≠ 0) : ulp bits n ≤ n := by
  unfold ulp
  have hpow : 2 ^ (Nat.log2 n + 1 - bits) ≤ 2 ^ Nat.log2 n := Nat.pow_le_pow_right (by decide) (by omega)
  exact hpow.trans (Nat.log2_self_le hn)

theorem round_zero : round bits 0 = 0 := by
  simp [round, ulp_pos]

theorem round_cases (bits n : ℕ) : round bits n = n / ulp bits n * ulp bits n ∨
    round bits n = (n / ulp bits n + 1) * ulp bits n := by
  unfold round
  simp only
  split
  · exact Or.inl rfl
  · exact Or.inr rfl

theorem round_pos (hbits : 0 < bits) (hn : n ≠ 0) : 0 < round bits n := by
  have hq : 0 < n / ulp bits n := Nat.div_pos (ulp_le hbits hn) ulp_pos
  rcases round_cases bits n with h | h
  · rw [h]
    exact Nat.mul_pos hq ulp_pos
  · rw [h]
    exact Nat.mul_pos (by omega) ulp_pos

theorem ulp_dvd (hbits : 0 < bits) (hn : n < 2 ^ k) : ulp bits n ∣ 2 ^ k := by
  apply Nat.pow_dvd_pow
  rcases Nat.eq_zero_or_pos n with rfl | hpos
  · rw [Nat.log2_zero]
    omega
  · have hlog : Nat.log2 n < k := (Nat.log2_lt (by omega)).mpr hn
    omega

/-- A power of two has one significant bit, so no number below it is rounded beyond it. -/
theorem round_le (hbits : 0 < bits) (hn : n < 2 ^ k) : round bits n ≤ 2 ^ k := by
  have hdown : n / ulp bits n * ulp bits n ≤ n := Nat.div_mul_le_self ..
  rcases round_cases bits n with h | h
  · omega
  · obtain ⟨c, hc⟩ := ulp_dvd hbits hn
    have hq : n / ulp bits n < c := Nat.div_lt_of_lt_mul (hc ▸ hn)
    rw [h, hc, Nat.mul_comm]
    exact Nat.mul_le_mul_left _ hq

end Rounding
