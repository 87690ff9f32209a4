import Mathlib
import Reckoner.Value.Power

/-!
Integer powers are exact. Zero and the bases of magnitude one have small powers whatever the
exponent is; those of every other base outgrow 64 bits before the exponent reaches 64, so that
nothing is lost by not computing the others. With a negative exponent a power is the quotient of one
by the power with the opposite exponent, truncated.
-/

namespace Reckoner.Value

variable {b e : ℤ} {n : ℕ}

theorem fits_iff : fits b = true ↔ -2 ^ 63 ≤ b ∧ b < 2 ^ 63 := by
  have hmin : Int64.minValue.toInt = -2 ^ 63 := by decide
  have hmax : Int64.maxValue.toInt = 2 ^ 63 - 1 := by decide
  rw [fits, decide_eq_true_eq, hmin, hmax, Int.le_sub_one_iff]

theorem toInt_ofInt_of_fits (h : fits b = true) : (Int64.ofInt b).toInt = b := by
  obtain ⟨hlow, hhigh⟩ := fits_iff.1 h
  exact Int64.toInt_ofInt_of_le hlow hhigh

/-- A base of magnitude two or more outgrows 64 bits. -/
theorem not_fits_pow (hb : 2 ≤ b.natAbs) (hn : 64 ≤ n) : ¬ fits (b ^ n) = true := by
  have hlarge : 2 ^ 64 ≤ (b ^ n).natAbs :=
    calc 2 ^ 64 ≤ 2 ^ n := Nat.pow_le_pow_right two_pos hn
      _ ≤ b.natAbs ^ n := Nat.pow_le_pow_left hb n
      _ = (b ^ n).natAbs := (Int.natAbs_pow b n).symm
  rw [fits_iff]
  omega

/-- Its powers with negative exponents are proper fractions. -/
theorem tdiv_one_pow (hb : 2 ≤ b.natAbs) (hn : n ≠ 0) : Int.tdiv 1 (b ^ n) = 0 := by
  have hlarge : 1 < (b ^ n).natAbs := Int.natAbs_pow b n ▸ Nat.one_lt_pow hn hb
  rw [← Int.natAbs_eq_zero, Int.natAbs_tdiv]
  exact Nat.div_eq_of_lt hlarge

/-- The sign of a power of minus one is told by the exponent, whatever its own sign. -/
theorem neg_one_pow_natAbs (e : ℤ) : (-1 : ℤ) ^ e.natAbs = if e % 2 = 0 then 1 else -1 := by
  split
  · next heven => exact Even.neg_one_pow (by rw [Nat.even_iff]; omega)
  · next hodd => exact Odd.neg_one_pow (by rw [Nat.odd_iff]; omega)

theorem small_or_large (b : ℤ) : b = 0 ∨ b = 1 ∨ b = -1 ∨ 2 ≤ b.natAbs := by omega

variable {base exponent : Int64}

/-- A power that is no fraction is given if it fits. -/
theorem integerPower_of_nonneg (he : 0 ≤ exponent.toInt) :
    (integerPower base exponent).map Int64.toInt =
      if fits (base.toInt ^ exponent.toInt.natAbs) then .ok (base.toInt ^ exponent.toInt.natAbs)
      else .error (.numeric .realTooBigForInteger) := by
  unfold integerPower
  generalize base.toInt = b at *
  generalize exponent.toInt = e at *
  have hnat : e.toNat = e.natAbs := by omega
  dsimp only
  rw [if_neg (not_lt.2 he), hnat]
  obtain rfl | rfl | rfl | hb := small_or_large b
  · have hpow : (0 : ℤ) ^ e.natAbs = if e = 0 then 1 else 0 := by
      simp only [zero_pow_eq, Int.natAbs_eq_zero]
    rw [if_pos rfl, hpow]
    split <;> rfl
  · rw [if_neg (by decide), if_pos rfl, one_pow]
    rfl
  · rw [if_neg (by decide), if_neg (by decide), if_pos rfl, neg_one_pow_natAbs]
    split <;> rfl
  · rw [if_neg (by omega), if_neg (by omega), if_neg (by omega)]
    change Except.map Int64.toInt
      (if e < 64 ∧ fits (b ^ e.natAbs) then .ok (Int64.ofInt (b ^ e.natAbs)) else _) = _
    by_cases hfits : fits (b ^ e.natAbs) = true
    · have hsmall : e < 64 := by
        by_contra hlarge
        exact not_fits_pow hb (by omega) hfits
      rw [if_pos ⟨hsmall, hfits⟩, if_pos hfits, Except.map, toInt_ofInt_of_fits hfits]
    · rw [if_neg fun h => hfits h.2, if_neg hfits, Except.map]

/-- A fraction is truncated. -/
theorem integerPower_of_neg (he : exponent.toInt < 0) :
    (integerPower base exponent).map Int64.toInt =
      if base.toInt = 0 then .error (.numeric .zeroToNegativePower)
      else .ok (Int.tdiv 1 (base.toInt ^ exponent.toInt.natAbs)) := by
  unfold integerPower
  generalize base.toInt = b at *
  generalize exponent.toInt = e at *
  dsimp only
  rw [if_pos he]
  obtain rfl | rfl | rfl | hb := small_or_large b
  · rfl
  · rw [if_neg (by decide), if_pos rfl, if_neg (by decide), one_pow]
    rfl
  · rw [neg_one_pow_natAbs]
    by_cases heven : e % 2 = 0
    · simp only [if_pos heven]
      rfl
    · simp only [if_neg heven]
      rfl
  · rw [if_neg (by omega), if_neg (by omega), if_neg (by omega), if_neg (by omega),
      tdiv_one_pow hb (by omega)]
    rfl

/-- A power of 64-bit integers is the power of the integers where that is no fraction and fits into
64 bits, and it is refused where it does not fit. Where it is a fraction it is truncated towards
zero, and it is refused where there is none. It never wraps around. -/
theorem integerPower_eq (base exponent : Int64) :
    (integerPower base exponent).map Int64.toInt =
      if 0 ≤ exponent.toInt then
        if -2 ^ 63 ≤ base.toInt ^ exponent.toInt.natAbs ∧
            base.toInt ^ exponent.toInt.natAbs < 2 ^ 63 then
          .ok (base.toInt ^ exponent.toInt.natAbs)
        else .error (.numeric .realTooBigForInteger)
      else if base.toInt = 0 then .error (.numeric .zeroToNegativePower)
      else .ok (Int.tdiv 1 (base.toInt ^ exponent.toInt.natAbs)) := by
  split
  · next he => rw [integerPower_of_nonneg he, if_congr fits_iff rfl rfl]
  · next he => exact integerPower_of_neg (not_le.1 he)

/-- The least integer is a power, and so is the one of nothing at all. -/
example : integerPower (-2) 63 = .ok Int64.minValue ∧ integerPower 0 0 = .ok 1 := by decide

end Reckoner.Value
