import Mathlib

/-!
Rounding to a double. A number is cut to a mantissa of 53 bits, and of the bits that are dropped it
is remembered whether they are less than a half, a half, or more. So the mantissa is the nearest
one, and of two that are equally near the even one. The numbers that round to a double are those
between the midpoints to its neighbours.
-/

namespace Reckoner.Double

open Float.Model Float.Model.UnpackedFloat

/-- A mantissa with what is remembered of the bits behind it stands for a number. -/
def StandsFor (em : ExtendedMantissa) (y : ℚ) : Prop :=
  match em.roundBit, em.stickyBit with
  | false, false => y = em.mantissa
  | false, true => em.mantissa < y ∧ y < em.mantissa + 1 / 2
  | true, false => y = em.mantissa + 1 / 2
  | true, true => em.mantissa + 1 / 2 < y ∧ y < em.mantissa + 1

structure IsNearest (n : ℕ) (y : ℚ) : Prop where
  low : n - 1 / 2 < y ∨ n % 2 = 0 ∧ y = n - 1 / 2
  high : y < n + 1 / 2 ∨ n % 2 = 0 ∧ y = n + 1 / 2

section Nearest

variable {em : ExtendedMantissa} {y : ℚ}

theorem StandsFor.le (h : StandsFor em y) : em.mantissa ≤ y := by
  obtain ⟨m, r, s⟩ := em
  cases r <;> cases s <;> simp only [StandsFor] at h ⊢ <;> linarith

theorem StandsFor.lt (h : StandsFor em y) : y < em.mantissa + 1 := by
  obtain ⟨m, r, s⟩ := em
  cases r <;> cases s <;> simp only [StandsFor] at h ⊢ <;> linarith

/-- The bit that is dropped becomes the one that is remembered. -/
theorem StandsFor.shiftRightOne (h : StandsFor em y) : StandsFor em.shiftRightOne (y / 2) := by
  obtain ⟨m, r, s⟩ := em
  have hdiv : ((m % 2 : ℕ) : ℚ) + 2 * ((m / 2 : ℕ) : ℚ) = m := by exact_mod_cast Nat.mod_add_div m 2
  obtain hmod | hmod := Nat.mod_two_eq_zero_or_one m <;> rw [hmod] at hdiv <;> push_cast at hdiv <;>
    cases r <;> cases s <;>
    simp only [StandsFor, ExtendedMantissa.shiftRightOne, hmod, bne_self_eq_false, Bool.or_false,
      Bool.or_true, Bool.or_self, show (1 != 0) = true from rfl] at h ⊢ <;>
    first | linarith | constructor <;> linarith

theorem StandsFor.shiftRight (h : StandsFor em y) (n : ℕ) :
    StandsFor (em >>> n) (y / 2 ^ n) := by
  change StandsFor (n.repeat ExtendedMantissa.shiftRightOne em) _
  induction n with
  | zero => simpa [Nat.repeat] using h
  | succ n ih =>
    rw [Nat.repeat, pow_succ, ← div_div]
    exact ih.shiftRightOne

theorem StandsFor.isNearest (h : StandsFor em y) : IsNearest em.roundedMantissa y := by
  obtain ⟨m, r, s⟩ := em
  cases r <;> cases s <;>
    simp only [StandsFor, ExtendedMantissa.roundedMantissa, ExtendedMantissa.accuracy,
      Accuracy.roundToNearestEven] at h ⊢
  · exact ⟨.inl (by linarith), .inl (by linarith)⟩
  · exact ⟨.inl (by linarith), .inl (by linarith)⟩
  · -- halfway, and the even one is taken
    obtain hmod | hmod := Nat.mod_two_eq_zero_or_one m
    · exact ⟨.inl (by rw [hmod]; push_cast; linarith), .inr ⟨by omega, by rw [hmod]; simpa using h⟩⟩
    · refine ⟨.inr ⟨by omega, ?_⟩, .inl ?_⟩ <;> rw [hmod] <;> push_cast <;> linarith
  · exact ⟨.inl (by push_cast; linarith), .inl (by push_cast; linarith)⟩

theorem IsNearest.unique {n n' : ℕ} (h : IsNearest n y) (h' : IsNearest n' y) : n = n' := by
  -- Between two next to each other the number is halfway, and only one of them is even.
  have hlt {a b : ℕ} (ha : IsNearest a y) (hb : IsNearest b y) : ¬ a < b := by
    intro hab
    have hle : (a : ℚ) + 1 ≤ b := by exact_mod_cast hab
    obtain hhigh | ⟨heven, hhigh⟩ := ha.high <;> obtain hlow | ⟨heven', hlow⟩ := hb.low
    · linarith
    · linarith
    · linarith
    · have hb : (b : ℚ) = (a + 1 : ℕ) := by push_cast; linarith
      have hsucc : b = a + 1 := by exact_mod_cast hb
      omega
  exact Nat.le_antisymm (Nat.le_of_not_lt (hlt h' h)) (Nat.le_of_not_lt (hlt h h'))

end Nearest

/-- The exponent with which a number is rounded: a mantissa of 53 bits, unless the exponent would be
too small. -/
structure IsTarget (target : ℤ) (v : ℚ) : Prop where
  min : -1074 ≤ target
  lt : v < 2 ^ (target + 53)
  le : target = -1074 ∨ 2 ^ (target + 52) ≤ v

theorem targetExponent_eq (mantissa : ℕ) (exponent : ℤ) :
    Format.binary64.targetExponent (totalExponent mantissa exponent) =
      max (mantissa.log2 + exponent - 52) (-1074) := by
  simp only [Format.targetExponent, totalExponent, Format.mantissaBits, Format.minExponent]
  norm_num
  omega

theorem isTarget_targetExponent {mantissa : ℕ} {exponent : ℤ} {y : ℚ} (hle : mantissa ≤ y)
    (hlt : y < mantissa + 1)
    (htarget : exponent ≤ Format.binary64.targetExponent (totalExponent mantissa exponent)) :
    IsTarget (Format.binary64.targetExponent (totalExponent mantissa exponent))
      (y * 2 ^ exponent) := by
  rw [targetExponent_eq] at htarget ⊢
  have hpow : (0 : ℚ) < 2 ^ exponent := by positivity
  refine ⟨le_max_right _ _, ?_, ?_⟩
  · have hlog : y < 2 ^ ((mantissa.log2 : ℤ) + 1) := by
      have hnat : (mantissa : ℚ) + 1 ≤ 2 ^ (mantissa.log2 + 1) := by
        exact_mod_cast (Nat.lt_log2_self : mantissa < _)
      have hcast : (2 : ℚ) ^ ((mantissa.log2 : ℤ) + 1) = 2 ^ (mantissa.log2 + 1) := by norm_cast
      rw [hcast]
      linarith
    calc y * 2 ^ exponent < 2 ^ ((mantissa.log2 : ℤ) + 1) * 2 ^ exponent :=
          mul_lt_mul_of_pos_right hlog hpow
      _ = 2 ^ ((mantissa.log2 : ℤ) + 1 + exponent) := (zpow_add₀ two_ne_zero _ _).symm
      _ ≤ _ := zpow_le_zpow_right₀ one_le_two (by omega)
  · obtain hmin | hmax := max_choice ((mantissa.log2 : ℤ) + exponent - 52) (-1074)
    · right
      rw [hmin] at htarget ⊢
      have hne : mantissa ≠ 0 := by
        rintro rfl
        simp at htarget
      have hnat : (2 : ℚ) ^ mantissa.log2 ≤ mantissa := by exact_mod_cast Nat.log2_self_le hne
      calc (2 : ℚ) ^ ((mantissa.log2 : ℤ) + exponent - 52 + 52)
          = 2 ^ mantissa.log2 * 2 ^ exponent := by
            rw [← zpow_natCast, ← zpow_add₀ two_ne_zero]
            congr 1
            omega
        _ ≤ y * 2 ^ exponent := mul_le_mul_of_nonneg_right (hnat.trans hle) hpow.le
    · exact .inl hmax

structure IsCanonical (mantissa : ℕ) (exponent : ℤ) : Prop where
  lt : mantissa < 2 ^ 53
  min : -1074 ≤ exponent
  max : exponent ≤ 971
  normal : exponent = -1074 ∨ 2 ^ 52 ≤ mantissa

/-- How far below a double the midpoint is to the next one. It is half as far where the exponent
changes. -/
def gapBelow (mantissa : ℕ) (exponent : ℤ) : ℚ :=
  if mantissa = 2 ^ 52 ∧ -1074 < exponent then 1 / 4 else 1 / 2

/-- The number rounds to the double: it is nearer to it than to any other, or halfway, and the
mantissa is even. -/
structure RoundsTo (v : ℚ) (mantissa : ℕ) (exponent : ℤ) : Prop where
  low : (mantissa - gapBelow mantissa exponent) * 2 ^ exponent < v ∨
    mantissa % 2 = 0 ∧ v = (mantissa - gapBelow mantissa exponent) * 2 ^ exponent
  high : v < (mantissa + 1 / 2) * 2 ^ exponent ∨
    mantissa % 2 = 0 ∧ v = (mantissa + 1 / 2) * 2 ^ exponent

section Rounded

variable {m R : ℕ} {q T : ℤ} {v : ℚ}

theorem gapBelow_le (m : ℕ) (q : ℤ) : gapBelow m q ≤ 1 / 2 := by
  unfold gapBelow
  split <;> norm_num

theorem RoundsTo.le (h : RoundsTo v m q) : (m - gapBelow m q) * 2 ^ q ≤ v := by
  obtain hlow | ⟨-, hlow⟩ := h.low
  · exact hlow.le
  · exact hlow.ge

theorem RoundsTo.ge (h : RoundsTo v m q) : v ≤ (m + 1 / 2) * 2 ^ q := by
  obtain hhigh | ⟨-, hhigh⟩ := h.high
  · exact hhigh.le
  · exact hhigh.le

/-- Where the exponents agree the mantissa is the nearest one. -/
theorem RoundsTo.isNearest (h : RoundsTo v m q) : IsNearest m (v / 2 ^ q) := by
  have hpow : (0 : ℚ) < 2 ^ q := by positivity
  constructor
  · obtain hlow | ⟨heven, hlow⟩ := h.low
    · have hlt := (lt_div_iff₀ hpow).2 hlow
      have hgap := gapBelow_le m q
      exact .inl (by linarith)
    · have heq := (eq_div_iff hpow.ne').2 hlow.symm
      rw [← heq]
      unfold gapBelow
      split
      · exact .inl (by norm_num)
      · exact .inr ⟨heven, rfl⟩
  · obtain hhigh | ⟨heven, hhigh⟩ := h.high
    · exact .inl ((div_lt_iff₀ hpow).2 hhigh)
    · exact .inr ⟨heven, (div_eq_iff hpow.ne').2 hhigh⟩

/-- What rounds to a double is not cut at a larger exponent. -/
theorem IsTarget.le_of_roundsTo (ht : IsTarget T v) (hm : IsCanonical m q) (h : RoundsTo v m q) :
    T ≤ q := by
  by_contra hlt
  have hpow : (0 : ℚ) < 2 ^ q := by positivity
  have hmantissa : (m : ℚ) + 1 ≤ 2 ^ 53 := by exact_mod_cast hm.lt
  have hle := ht.le.resolve_left (by have := hm.min; omega)
  have hbound : (2 : ℚ) ^ (T + 52) < 2 ^ (q + 53) :=
    calc (2 : ℚ) ^ (T + 52) ≤ v := hle
      _ ≤ (m + 1 / 2) * 2 ^ q := h.ge
      _ < 2 ^ 53 * 2 ^ q := mul_lt_mul_of_pos_right (by linarith) hpow
      _ = 2 ^ (q + 53) := by rw [zpow_add₀ two_ne_zero, mul_comm]; rfl
  have hexponents := (zpow_lt_zpow_iff_right₀ one_lt_two).1 hbound
  omega

/-- Where the target exponent is below that of the double, the double is a power of two. -/
theorem IsTarget.mantissa_eq_of_lt (ht : IsTarget T v) (hm : IsCanonical m q)
    (h : RoundsTo v m q) (hlt : T < q) : m = 2 ^ 52 := by
  have hnormal := hm.normal.resolve_left (by have := ht.min; omega)
  have hbound : (m - gapBelow m q) * 2 ^ q < 2 ^ 52 * 2 ^ q :=
    calc (m - gapBelow m q) * 2 ^ q ≤ v := h.le
      _ < 2 ^ (T + 53) := ht.lt
      _ ≤ 2 ^ (q + 52) := zpow_le_zpow_right₀ one_le_two (by omega)
      _ = 2 ^ 52 * 2 ^ q := by rw [zpow_add₀ two_ne_zero, mul_comm]; rfl
  have hgap := gapBelow_le m q
  have hless : (m : ℚ) < (2 ^ 52 + 1 : ℕ) := by
    have := lt_of_mul_lt_mul_right hbound (by positivity)
    push_cast
    linarith
  have := Nat.cast_lt.1 hless
  omega

/-- If it is cut at a smaller one, it is next to a change of the exponent, and is rounded up to
it. -/
theorem IsTarget.eq_of_lt (ht : IsTarget T v) (hm : IsCanonical m q) (h : RoundsTo v m q)
    (hlt : T < q) : T + 1 = q ∧ m = 2 ^ 52 ∧ IsNearest (2 ^ 53) (v / 2 ^ T) := by
  have hpow : (0 : ℚ) < 2 ^ q := by positivity
  have hmantissa := ht.mantissa_eq_of_lt hm h hlt
  have hgap : gapBelow m q = 1 / 4 := if_pos ⟨hmantissa, by have := ht.min; omega⟩
  have hle := h.le
  have hlow := h.low
  rw [hgap, hmantissa] at hle hlow
  push_cast at hle hlow
  have hexponent : T + 1 = q := by
    have hlarge : (2 : ℚ) ^ (q + 51) < 2 ^ (T + 53) :=
      calc (2 : ℚ) ^ (q + 51) = 2 ^ 51 * 2 ^ q := by rw [zpow_add₀ two_ne_zero, mul_comm]; rfl
        _ ≤ (2 ^ 52 - 1 / 4) * 2 ^ q := mul_le_mul_of_nonneg_right (by norm_num) hpow.le
        _ ≤ v := hle
        _ < 2 ^ (T + 53) := ht.lt
    have hexponents := (zpow_lt_zpow_iff_right₀ one_lt_two).1 hlarge
    omega
  have hpowT : (0 : ℚ) < 2 ^ T := by positivity
  have hdouble : (2 : ℚ) ^ q = 2 * 2 ^ T := by
    rw [← hexponent, zpow_add₀ two_ne_zero, zpow_one, mul_comm]
  refine ⟨hexponent, hmantissa, ?_, .inl ?_⟩
  · rw [hdouble] at hlow
    push_cast
    obtain hlow | ⟨-, hlow⟩ := hlow
    · exact .inl ((lt_div_iff₀ hpowT).2 (by linarith))
    · exact .inr ⟨by norm_num, (div_eq_iff hpowT.ne').2 (by linarith)⟩
  · have hless := ht.lt
    rw [zpow_add₀ two_ne_zero, mul_comm] at hless
    have hquotient := (div_lt_iff₀ hpowT).2 hless
    push_cast
    norm_num at hquotient ⊢
    linarith

end Rounded

theorem shiftToExponent_eq {mantissa : ℕ} {exponent target : ℤ} (accuracy : Accuracy)
    (h : exponent ≤ target) :
    shiftToExponent mantissa exponent accuracy target =
      (ExtendedMantissa.ofMantissaAndAccuracy mantissa accuracy >>> (target - exponent).toNat,
        target) := by
  have hsum : exponent + (target - exponent).toNat = target := by omega
  simp only [shiftToExponent, hsum]

/-- A mantissa that was rounded is cut again only if it has become too large. -/
theorem shiftToTargetExponent_of_lt {mantissa : ℕ} {exponent : ℤ} (hlt : mantissa < 2 ^ 53)
    (hmin : -1074 ≤ exponent) :
    shiftToTargetExponent Format.binary64 mantissa exponent .exact =
      (⟨mantissa, false, false⟩, exponent) := by
  have hlog : mantissa.log2 ≤ 52 := by
    by_cases hzero : mantissa = 0
    · simp [hzero]
    · exact Nat.le_of_lt_succ ((Nat.log2_lt hzero).2 hlt)
  have hshift : (Format.binary64.targetExponent (totalExponent mantissa exponent) -
      exponent).toNat = 0 := by
    rw [targetExponent_eq]
    omega
  simp [shiftToTargetExponent, shiftToExponent, hshift, HShiftRight.hShiftRight, Nat.repeat,
    ExtendedMantissa.ofMantissaAndAccuracy]

theorem shiftToTargetExponent_two_pow {exponent : ℤ} (hmin : -1074 ≤ exponent) :
    shiftToTargetExponent Format.binary64 (2 ^ 53) exponent .exact =
      (⟨2 ^ 52, false, false⟩, exponent + 1) := by
  have htarget : Format.binary64.targetExponent (totalExponent (2 ^ 53) exponent) =
      exponent + 1 := by
    rw [targetExponent_eq, Nat.log2_two_pow]
    omega
  rw [shiftToTargetExponent, htarget, shiftToExponent_eq _ (by omega)]
  simp [HShiftRight.hShiftRight, Nat.repeat, ExtendedMantissa.ofMantissaAndAccuracy,
    ExtendedMantissa.shiftRightOne]

section Cut

variable {mantissa : ℕ} {exponent : ℤ} {accuracy : Accuracy} {y : ℚ}

/-- What is left of a number when it is cut to the bits of a double, as long as it has no fewer. -/
theorem exists_shiftToTargetExponent
    (hy : StandsFor (ExtendedMantissa.ofMantissaAndAccuracy mantissa accuracy) y)
    (htarget : exponent ≤ Format.binary64.targetExponent (totalExponent mantissa exponent)) :
    ∃ em target, shiftToTargetExponent Format.binary64 mantissa exponent accuracy = (em, target) ∧
      IsTarget target (y * 2 ^ exponent) ∧ StandsFor em (y * 2 ^ exponent / 2 ^ target) := by
  refine ⟨_, _, shiftToExponent_eq accuracy htarget, ?_, ?_⟩
  · have hmantissa : (ExtendedMantissa.ofMantissaAndAccuracy mantissa accuracy).mantissa =
        mantissa := by
      fun_cases ExtendedMantissa.ofMantissaAndAccuracy mantissa accuracy <;> rfl
    have hle := hy.le
    have hlt := hy.lt
    rw [hmantissa] at hle hlt
    exact isTarget_targetExponent hle hlt htarget
  · generalize
      Format.binary64.targetExponent (totalExponent mantissa exponent) = target at htarget ⊢
    have hcut := hy.shiftRight (target - exponent).toNat
    have hquotient : y / 2 ^ (target - exponent).toNat = y * 2 ^ exponent / 2 ^ target := by
      rw [← zpow_natCast, Int.toNat_of_nonneg (by omega), zpow_sub₀ two_ne_zero]
      field_simp
    rwa [hquotient] at hcut

/-- A number rounds to the double it is known to round to, whatever mantissa it is given by. -/
theorem roundWithAccuracy_of_roundsTo {m : ℕ} {q : ℤ} (sign : Sign)
    (hy : StandsFor (ExtendedMantissa.ofMantissaAndAccuracy mantissa accuracy) y)
    (htarget : exponent ≤ Format.binary64.targetExponent (totalExponent mantissa exponent))
    (hm : IsCanonical m q) (h : RoundsTo (y * 2 ^ exponent) m q) (hpos : 0 < m) :
    roundWithAccuracy Format.binary64 sign mantissa exponent accuracy =
      .finite sign m q hpos := by
  obtain ⟨em, target, hcut, ht, hem⟩ := exists_shiftToTargetExponent hy htarget
  have hnearest := hem.isNearest
  obtain hlt | rfl := lt_or_eq_of_le (ht.le_of_roundsTo hm h)
  · -- the mantissa becomes too large by rounding, and is cut again
    obtain ⟨rfl, rfl, hpower⟩ := ht.eq_of_lt hm h hlt
    have hrounded := hnearest.unique hpower
    simp only [roundWithAccuracy, hcut, hrounded, shiftToTargetExponent_two_pow ht.min]
    exact dif_neg hpos.ne'
  · have hrounded := hnearest.unique h.isNearest
    simp only [roundWithAccuracy, hcut, hrounded, shiftToTargetExponent_of_lt hm.lt hm.min]
    exact dif_neg hpos.ne'

end Cut

end Reckoner.Double
