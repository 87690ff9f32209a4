import Reckoner.Decimal.Shortest
import Reckoner.Proofs.Double.Scientific

/-!
The shortest digits of a double round to it. Comparisons are exact, so a decimal is accepted just if
it rounds to the double, and only what is accepted is taken. When nothing shorter is, the digits of
the exact value are taken.
-/

namespace Reckoner.Decimal

open Double (RoundsTo gapBelow)

/-- Both sides of a comparison are multiplied with the same number, which makes them natural. -/
theorem exists_compareScaled (a : ℕ) (i : ℤ) (b : ℕ) (j : ℤ) :
    ∃ (left right : ℕ) (factor : ℚ), compareScaled a i b j = compare left right ∧ 0 < factor ∧
      (left : ℚ) = a * 10 ^ i * factor ∧ (right : ℚ) = b * 2 ^ j * factor := by
  have htoNat {base : ℚ} (hbase : base ≠ 0) (k : ℤ) :
      base ^ k.toNat = base ^ k * base ^ (-k).toNat := by
    rw [← zpow_natCast, ← zpow_natCast, ← zpow_add₀ hbase]
    congr 1
    omega
  refine ⟨_, _, 10 ^ (-i).toNat * 2 ^ (-j).toNat, rfl, by positivity, ?_, ?_⟩
  · simp only [Nat.pow_eq]
    push_cast
    rw [htoNat (by norm_num) i]
    ring
  · simp only [Nat.pow_eq]
    push_cast
    rw [htoNat (by norm_num) j]
    ring

section Compare

variable {a b : ℕ} {i j : ℤ}

theorem compareScaled_eq_lt : compareScaled a i b j = .lt ↔ (a * 10 ^ i : ℚ) < b * 2 ^ j := by
  obtain ⟨left, right, factor, hcompare, hpos, hleft, hright⟩ := exists_compareScaled a i b j
  rw [hcompare, Nat.compare_eq_lt, ← mul_lt_mul_iff_left₀ hpos, ← hleft, ← hright, Nat.cast_lt]

theorem compareScaled_eq_gt : compareScaled a i b j = .gt ↔ (b * 2 ^ j : ℚ) < a * 10 ^ i := by
  obtain ⟨left, right, factor, hcompare, hpos, hleft, hright⟩ := exists_compareScaled a i b j
  rw [hcompare, Nat.compare_eq_gt, ← mul_lt_mul_iff_left₀ hpos, ← hleft, ← hright, Nat.cast_lt]

theorem compareScaled_eq_eq : compareScaled a i b j = .eq ↔ (a * 10 ^ i : ℚ) = b * 2 ^ j := by
  obtain ⟨left, right, factor, hcompare, hpos, hleft, hright⟩ := exists_compareScaled a i b j
  rw [hcompare, Nat.compare_eq_eq, ← mul_left_inj' hpos.ne', ← hleft, ← hright, Nat.cast_inj]

end Compare

namespace Scaled

def value (d : Scaled) : ℚ := d.digits * 10 ^ d.exponent

end Scaled

namespace Binary

variable {mantissa : ℕ} {exponent : ℤ} {d : Scaled}

theorem quarter (n : ℚ) (exponent : ℤ) : 4 * n * 2 ^ (exponent - 2) = n * 2 ^ exponent := by
  rw [zpow_sub₀ two_ne_zero]
  ring

/-- A decimal is accepted just if it rounds to the double. -/
theorem accepts_iff (hpos : 0 < mantissa) :
    (ofParts mantissa exponent).accepts d = true ↔ RoundsTo d.value mantissa exponent := by
  have hlow : (((if (ofParts mantissa exponent).narrowBelow then 4 * mantissa - 1
      else 4 * mantissa - 2 : ℕ) : ℚ) * 2 ^ (exponent - 2)) =
        (mantissa - gapBelow mantissa exponent) * 2 ^ exponent := by
    rw [← quarter (mantissa - gapBelow mantissa exponent)]
    congr 1
    have hnarrow : (ofParts mantissa exponent).narrowBelow = true ↔
        mantissa = 2 ^ 52 ∧ -1074 < exponent := by
      simp [ofParts, Nat.pow_eq]
    simp only [hnarrow, gapBelow]
    split_ifs
    · rw [Nat.cast_sub (by omega)]
      push_cast
      ring
    · rw [Nat.cast_sub (by omega)]
      push_cast
      ring
  have hhigh : (((4 * mantissa + 2 : ℕ) : ℚ) * 2 ^ (exponent - 2)) =
      (mantissa + 1 / 2) * 2 ^ exponent := by
    rw [← quarter (mantissa + 1 / 2)]
    congr 1
    push_cast
    ring
  have hiff : (ofParts mantissa exponent).accepts d = true ↔
      ((mantissa - gapBelow mantissa exponent) * 2 ^ exponent < d.value ∨
        mantissa % 2 = 0 ∧ d.value = (mantissa - gapBelow mantissa exponent) * 2 ^ exponent) ∧
      (d.value < (mantissa + 1 / 2) * 2 ^ exponent ∨
        mantissa % 2 = 0 ∧ d.value = (mantissa + 1 / 2) * 2 ^ exponent) := by
    simp only [accepts, Bool.and_eq_true, Bool.or_eq_true, beq_iff_eq, compareScaled_eq_lt,
      compareScaled_eq_gt, compareScaled_eq_eq]
    rw [← hlow, ← hhigh]
    rfl
  rw [hiff]
  exact ⟨fun h => ⟨h.1, h.2⟩, fun h => ⟨h.low, h.high⟩⟩

theorem accepts_of_onGrid {x : Binary} {e : ℤ} (h : x.onGrid e = some d) : x.accepts d = true := by
  simp only [onGrid] at h
  split at h
  · next hlower hupper => split at h <;> cases h <;> assumption
  · cases h
    assumption
  · cases h
    assumption
  · cases h

theorem value_exact (mantissa : ℕ) (exponent : ℤ) :
    (ofParts mantissa exponent).exact.value = mantissa * 2 ^ exponent := by
  by_cases h : 0 ≤ exponent
  · have hexact : (ofParts mantissa exponent).exact = ⟨mantissa * 2 ^ exponent.toNat, 0⟩ := if_pos h
    rw [hexact, Scaled.value]
    push_cast
    rw [← zpow_natCast, Int.toNat_of_nonneg h, mul_one]
  · have hexact : (ofParts mantissa exponent).exact =
        ⟨mantissa * 5 ^ (-exponent).toNat, exponent⟩ := if_neg h
    rw [hexact, Scaled.value]
    push_cast
    rw [mul_assoc, ← zpow_natCast, Int.toNat_of_nonneg (by omega), zpow_neg,
      show (10 : ℚ) = 5 * 2 by norm_num, mul_zpow, inv_mul_cancel_left₀ (by positivity)]

/-- The shortest digits round to the double. -/
theorem roundsTo_shortest (hpos : 0 < mantissa) :
    RoundsTo (ofParts mantissa exponent).shortest.value mantissa exponent := by
  simp only [shortest]
  cases hfound : (List.range 17).findSome? fun (n : ℕ) =>
      (ofParts mantissa exponent).onGrid ((ofParts mantissa exponent).magnitude - n - 1) with
  | none =>
    rw [Option.getD_none, value_exact]
    exact Double.roundsTo_self mantissa exponent
  | some d =>
    obtain ⟨n, -, hgrid⟩ := List.exists_of_findSome?_eq_some hfound
    exact (accepts_iff hpos).1 (accepts_of_onGrid hgrid)

end Binary

end Reckoner.Decimal
