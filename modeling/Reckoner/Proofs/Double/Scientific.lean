import Reckoner.Proofs.Double.Parts

/-!
Decimal numbers as doubles. Products and quotients of doubles are exact before they are rounded, and
a decimal number is the product or the quotient of two that are exact: so it becomes the double that
it rounds to.
-/

namespace Reckoner.Double

open Float.Model Float.Model.UnpackedFloat

theorem roundsTo_self (mantissa : ℕ) (exponent : ℤ) :
    RoundsTo (mantissa * 2 ^ exponent) mantissa exponent := by
  have hpow : (0 : ℚ) < 2 ^ exponent := by positivity
  have hgap : 0 < gapBelow mantissa exponent := by
    unfold gapBelow
    split <;> norm_num
  exact ⟨.inl (mul_lt_mul_of_pos_right (by linarith) hpow),
    .inl (mul_lt_mul_of_pos_right (by linarith) hpow)⟩

theorem standsFor_exact (mantissa : ℕ) :
    StandsFor (ExtendedMantissa.ofMantissaAndAccuracy mantissa .exact) mantissa := rfl

def IsMagnitude (v : ℚ) : Prop :=
  ∃ (n : ℕ) (e : ℤ), n < 2 ^ 53 ∧ -1074 ≤ e ∧ e ≤ 971 ∧ v = n * 2 ^ e

section Exact

variable {n m : ℕ} {q e : ℤ}

theorem log2_mul_two_pow (hn : 0 < n) (k : ℕ) : (n * 2 ^ k).log2 = n.log2 + k := by
  induction k with
  | zero => simp
  | succ k ih =>
    have hne : n * 2 ^ k ≠ 0 := by positivity
    rw [pow_succ, ← mul_assoc, mul_comm _ 2, Nat.log2_two_mul hne, ih, Nat.add_assoc]

/-- Bits are added to a mantissa that has too few of them. -/
theorem exists_round_eq (hn : 0 < n) (e : ℤ) (sign : Sign) :
    ∃ k : ℕ, round Format.binary64 sign n e =
        roundWithAccuracy Format.binary64 sign (n * 2 ^ k) (e - k) .exact ∧
      e - k ≤ Format.binary64.targetExponent (totalExponent (n * 2 ^ k) (e - k)) := by
  refine ⟨_, by rw [UnpackedFloat.round, decreaseExponent, Nat.shiftLeft_eq], ?_⟩
  generalize hk : (e - Format.binary64.targetExponent (totalExponent n e)).toNat = k
  rw [targetExponent_eq] at hk ⊢
  rw [log2_mul_two_pow hn]
  omega

theorem value_shifted (n k : ℕ) (e : ℤ) : ((n * 2 ^ k : ℕ) : ℚ) * 2 ^ (e - k) = n * 2 ^ e := by
  rw [zpow_sub₀ two_ne_zero, zpow_natCast]
  push_cast
  field_simp

theorem round_of_roundsTo (sign : Sign) (hn : 0 < n) (hm : IsCanonical m q) (hpos : 0 < m)
    (h : RoundsTo (n * 2 ^ e) m q) :
    round Format.binary64 sign n e = .finite sign m q hpos := by
  obtain ⟨k, hround, htarget⟩ := exists_round_eq hn e sign
  rw [hround]
  exact roundWithAccuracy_of_roundsTo sign (standsFor_exact _) htarget hm
    (by rwa [value_shifted]) hpos

/-- A magnitude has a mantissa with all the bits that its exponent leaves room for. -/
theorem IsMagnitude.exists_isCanonical {v : ℚ} (h : IsMagnitude v) (hv : v ≠ 0) :
    ∃ m q, IsCanonical m q ∧ 0 < m ∧ (m * 2 ^ q : ℚ) = v := by
  obtain ⟨n, e, hlt, hmin, hmax, rfl⟩ := h
  have hn : 0 < n := Nat.pos_of_ne_zero fun hzero => hv (by simp [hzero])
  have hlog : n.log2 ≤ 52 := Nat.le_of_lt_succ ((Nat.log2_lt hn.ne').2 hlt)
  generalize hk : min (52 - n.log2) (e + 1074).toNat = k
  have hbits := log2_mul_two_pow hn k
  have hpos : 0 < n * 2 ^ k := by positivity
  refine ⟨n * 2 ^ k, e - k, ⟨?_, by omega, by omega, ?_⟩, hpos, value_shifted n k e⟩
  · exact (Nat.log2_lt hpos.ne').1 (by omega)
  · by_cases hleast : (e + 1074).toNat = k
    · left
      omega
    · right
      exact (Nat.le_log2 hpos.ne').1 (by omega)

theorem isMagnitude_zero : IsMagnitude 0 :=
  ⟨0, 0, by norm_num, by norm_num, by norm_num, by norm_num⟩

end Exact

section Arithmetic

variable {m m₁ m₂ : ℕ} {q e₁ e₂ : ℤ}

/-- A product with enough bits is rounded once. -/
theorem mul_of_roundsTo (h₁ : 0 < m₁) (h₂ : 0 < m₂) (hbits : 2 ^ 52 ≤ m₁ * m₂)
    (hm : IsCanonical m q) (hpos : 0 < m)
    (h : RoundsTo (m₁ * 2 ^ e₁ * (m₂ * 2 ^ e₂)) m q) :
    UnpackedFloat.mul Format.binary64 (.finite .positive m₁ e₁ h₁) (.finite .positive m₂ e₂ h₂) =
      .finite .positive m q hpos := by
  have hlog : 52 ≤ (m₁ * m₂).log2 := (Nat.le_log2 (by positivity)).2 hbits
  have hvalue : (m₁ * 2 ^ e₁ * (m₂ * 2 ^ e₂) : ℚ) = (m₁ * m₂ : ℕ) * 2 ^ (e₁ + e₂) := by
    rw [zpow_add₀ two_ne_zero]
    push_cast
    ring
  rw [hvalue] at h
  have htarget : e₁ + e₂ ≤ Format.binary64.targetExponent (totalExponent (m₁ * m₂) (e₁ + e₂)) := by
    rw [targetExponent_eq]
    omega
  exact roundWithAccuracy_of_roundsTo _ (standsFor_exact _) htarget hm h hpos

/-- What is left of a division tells where the quotient lies. -/
theorem standsFor_div (a : ℕ) {b : ℕ} (hb : 0 < b) :
    StandsFor (ExtendedMantissa.ofMantissaAndAccuracy (a / b) (accuracyOfFraction (a % b) b))
      (a / b) := by
  have hb' : (0 : ℚ) < b := by exact_mod_cast hb
  have hvalue : (a / b : ℚ) = (a / b : ℕ) + (a % b : ℕ) / b := by
    have hdiv : (a : ℚ) = b * (a / b : ℕ) + (a % b : ℕ) := by
      exact_mod_cast (Nat.div_add_mod a b).symm
    rw [eq_comm, eq_div_iff hb'.ne', add_mul, div_mul_cancel₀ _ hb'.ne', mul_comm]
    exact hdiv.symm
  have hlt : ((a % b : ℕ) : ℚ) / b < 1 := (div_lt_one hb').2 (by exact_mod_cast Nat.mod_lt a hb)
  rw [hvalue]
  unfold accuracyOfFraction
  split
  · next hzero => simp [hzero, standsFor_exact]
  · next hne =>
    have hpos : (0 : ℚ) < ((a % b : ℕ) : ℚ) / b :=
      div_pos (by exact_mod_cast Nat.pos_of_ne_zero hne) hb'
    generalize a / b = n at *
    generalize a % b = r at *
    cases hcompare : compare (2 * r) b with
    | lt =>
      have hless : (2 * r : ℚ) < b := by exact_mod_cast Nat.compare_eq_lt.1 hcompare
      have hhalf : (r : ℚ) / b < 1 / 2 := (div_lt_iff₀ hb').2 (by linarith)
      change (n : ℚ) < n + r / b ∧ (n + r / b : ℚ) < n + 1 / 2
      constructor <;> linarith
    | gt =>
      have hmore : (b : ℚ) < 2 * r := by exact_mod_cast Nat.compare_eq_gt.1 hcompare
      have hhalf : (1 / 2 : ℚ) < r / b := (lt_div_iff₀ hb').2 (by linarith)
      change (n + 1 / 2 : ℚ) < n + r / b ∧ (n + r / b : ℚ) < n + 1
      constructor <;> linarith
    | eq =>
      have heq : (2 * r : ℚ) = b := by exact_mod_cast Nat.compare_eq_eq.1 hcompare
      have hhalf : (r : ℚ) / b = 1 / 2 := (div_eq_iff hb'.ne').2 (by linarith)
      change (n + r / b : ℚ) = n + 1 / 2
      rw [hhalf]

/-- The quotient is cut no shorter than a double. -/
theorem le_targetExponent_div (h₁ : 0 < m₁) (h₂ : 0 < m₂) {t : ℤ} (hle : t ≤ e₁ - e₂)
    (ht : t ≤ Format.binary64.targetExponent (totalExponent m₁ e₁ - totalExponent m₂ e₂)) :
    t ≤ Format.binary64.targetExponent
      (totalExponent (m₁ * 2 ^ (e₁ - e₂ - t).toNat / m₂) t) := by
  rw [targetExponent_eq]
  by_cases hmin : t ≤ -1074
  · omega
  · have hbits : m₂.log2 + 53 ≤ m₁.log2 + (e₁ - e₂ - t).toNat := by
      simp only [Format.targetExponent, totalExponent, Format.mantissaBits,
        Format.minExponent] at ht
      norm_num at ht
      omega
    have hlarge : 2 ^ 52 ≤ m₁ * 2 ^ (e₁ - e₂ - t).toNat / m₂ := by
      rw [Nat.le_div_iff_mul_le h₂]
      calc 2 ^ 52 * m₂ ≤ 2 ^ 52 * 2 ^ (m₂.log2 + 1) := Nat.mul_le_mul_left _ Nat.lt_log2_self.le
        _ = 2 ^ (m₂.log2 + 53) := by rw [← pow_add]; congr 1; omega
        _ ≤ 2 ^ (m₁.log2 + (e₁ - e₂ - t).toNat) := Nat.pow_le_pow_right two_pos hbits
        _ = 2 ^ m₁.log2 * 2 ^ (e₁ - e₂ - t).toNat := pow_add _ _ _
        _ ≤ m₁ * 2 ^ (e₁ - e₂ - t).toNat := Nat.mul_le_mul_right _ (Nat.log2_self_le h₁.ne')
    have hlog := (Nat.le_log2 (by omega)).2 hlarge
    omega

theorem div_of_roundsTo (h₁ : 0 < m₁) (h₂ : 0 < m₂) (hm : IsCanonical m q) (hpos : 0 < m)
    (h : RoundsTo (m₁ * 2 ^ e₁ / (m₂ * 2 ^ e₂)) m q) :
    UnpackedFloat.div Format.binary64 (.finite .positive m₁ e₁ h₁) (.finite .positive m₂ e₂ h₂) =
      .finite .positive m q hpos := by
  simp only [UnpackedFloat.div, divCore, Nat.shiftLeft_eq]
  generalize ht : min (e₁ - e₂)
    (Format.binary64.targetExponent (totalExponent m₁ e₁ - totalExponent m₂ e₂)) = t
  have hle : t ≤ e₁ - e₂ := by omega
  have hvalue : (m₁ * 2 ^ e₁ / (m₂ * 2 ^ e₂) : ℚ) =
      (m₁ * 2 ^ (e₁ - e₂ - t).toNat : ℕ) / m₂ * 2 ^ t := by
    have hpow : (2 : ℚ) ^ (e₁ - e₂ - t).toNat * 2 ^ t = 2 ^ e₁ / 2 ^ e₂ := by
      rw [← zpow_natCast, Int.toNat_of_nonneg (by omega), ← zpow_add₀ two_ne_zero,
        ← zpow_sub₀ two_ne_zero, sub_add_cancel]
    push_cast
    rw [mul_div_mul_comm, ← hpow]
    ring
  rw [hvalue] at h
  exact roundWithAccuracy_of_roundsTo _ (standsFor_div _ h₂)
    (le_targetExponent_div h₁ h₂ hle (by omega)) hm h hpos

end Arithmetic

section Bounds

variable {m : ℕ} {q : ℤ} {v : ℚ}

/-- What rounds to a finite double is no larger than these are. -/
theorem RoundsTo.lt_two_pow (h : RoundsTo v m q) (hm : IsCanonical m q) : v < 2 ^ (1024 : ℤ) := by
  have hmantissa : (m : ℚ) + 1 ≤ 2 ^ 53 := by exact_mod_cast hm.lt
  have hpow : (0 : ℚ) < 2 ^ q := by positivity
  calc v ≤ (m + 1 / 2) * 2 ^ q := h.ge
    _ < 2 ^ 53 * 2 ^ q := mul_lt_mul_of_pos_right (by linarith) hpow
    _ = 2 ^ (53 + q) := by rw [zpow_add₀ two_ne_zero]; rfl
    _ ≤ 2 ^ (1024 : ℤ) := zpow_le_zpow_right₀ one_le_two (by have := hm.max; omega)

/-- What rounds to a positive double is not much smaller than the least of these. -/
theorem RoundsTo.two_pow_le (h : RoundsTo v m q) (hm : IsCanonical m q) (hpos : 0 < m) :
    2 ^ (-1075 : ℤ) ≤ v := by
  have hmantissa : (1 : ℚ) ≤ m := by exact_mod_cast hpos
  have hgap := gapBelow_le m q
  have hpow : (0 : ℚ) < 2 ^ q := by positivity
  calc (2 : ℚ) ^ (-1075 : ℤ) = 1 / 2 * 2 ^ (-1074 : ℤ) := by
        rw [one_div, ← zpow_neg_one, ← zpow_add₀ two_ne_zero]
        norm_num
    _ ≤ 1 / 2 * 2 ^ q :=
        mul_le_mul_of_nonneg_left (zpow_le_zpow_right₀ one_le_two hm.min) (by norm_num)
    _ ≤ (m - gapBelow m q) * 2 ^ q := mul_le_mul_of_nonneg_right (by linarith) hpow.le
    _ ≤ v := h.le

variable {digits : ℕ} {e : ℤ}

theorem digits_ne_zero (h : RoundsTo (digits * 10 ^ e) m q) (hm : IsCanonical m q)
    (hpos : 0 < m) : digits ≠ 0 := by
  rintro rfl
  have hle := h.two_pow_le hm hpos
  simp only [Nat.cast_zero, zero_mul] at hle
  exact absurd hle (not_le.2 (by positivity))

/-- The decimal exponent of what rounds to a finite double is not too large, -/
theorem exponent_le (hdigits : digits ≠ 0) (h : RoundsTo (digits * 10 ^ e) m q)
    (hm : IsCanonical m q) : e ≤ 2 ^ 11 := by
  by_contra hlt
  have hone : (1 : ℚ) ≤ digits := by exact_mod_cast Nat.pos_of_ne_zero hdigits
  have hpow : (0 : ℚ) < 10 ^ e := by positivity
  have hlarge : (2 : ℚ) ^ (1024 : ℤ) ≤ digits * 10 ^ e :=
    calc (2 : ℚ) ^ (1024 : ℤ) ≤ 2 ^ e := zpow_le_zpow_right₀ one_le_two (by omega)
      _ ≤ 10 ^ e := zpow_le_zpow_left₀ (by omega) (by norm_num) (by norm_num)
      _ = 1 * 10 ^ e := (one_mul _).symm
      _ ≤ digits * 10 ^ e := mul_le_mul_of_nonneg_right hone hpow.le
  exact absurd (h.lt_two_pow hm) (not_lt.2 hlarge)

/-- and not too small for the digits. -/
theorem le_exponent (h : RoundsTo (digits * 10 ^ e) m q) (hm : IsCanonical m q) (hpos : 0 < m) :
    -(2 ^ 11 + digits.log2) ≤ e := by
  by_contra hlt
  have hlog : (digits : ℚ) < 2 ^ (digits.log2 + 1) := by exact_mod_cast Nat.lt_log2_self
  have hpow : (0 : ℚ) < 10 ^ e := by positivity
  have hsmall : (10 : ℚ) ^ e ≤ 2 ^ e := by
    have hle : (2 : ℚ) ^ (-e) ≤ 10 ^ (-e) :=
      zpow_le_zpow_left₀ (by omega) (by norm_num) (by norm_num)
    rw [zpow_neg, zpow_neg] at hle
    exact (inv_le_inv₀ (by positivity) hpow).1 hle
  have hless : (digits * 10 ^ e : ℚ) < 2 ^ (-1075 : ℤ) :=
    calc (digits * 10 ^ e : ℚ) < 2 ^ (digits.log2 + 1) * 10 ^ e := mul_lt_mul_of_pos_right hlog hpow
      _ ≤ 2 ^ (digits.log2 + 1) * 2 ^ e := mul_le_mul_of_nonneg_left hsmall (by positivity)
      _ = 2 ^ ((digits.log2 + 1 : ℕ) + e : ℤ) := by rw [zpow_add₀ two_ne_zero, zpow_natCast]
      _ ≤ 2 ^ (-1075 : ℤ) := zpow_le_zpow_right₀ one_le_two (by push_cast; omega)
  exact absurd (h.two_pow_le hm hpos) (not_le.2 hless)

end Bounds

section Decimal

variable {digits m : ℕ} {q e : ℤ}

/-- A decimal number becomes the double it rounds to. -/
theorem ofScientific_of_roundsTo (hm : IsCanonical m q) (hpos : 0 < m)
    (h : RoundsTo (digits * 10 ^ e) m q) :
    UnpackedFloat.ofScientific Format.binary64 digits e = .finite .positive m q hpos := by
  have hdigits := digits_ne_zero h hm hpos
  have hmax := exponent_le hdigits h hm
  have hmin := le_exponent h hm hpos
  have hpositive := Nat.pos_of_ne_zero hdigits
  unfold UnpackedFloat.ofScientific
  rw [dif_neg hdigits, if_neg (by change ¬ e > 2 ^ 11; omega),
    if_neg (by change ¬ e < -(2 ^ 11 + _); omega)]
  by_cases he : 0 ≤ e
  · rw [if_pos he]
    have hbits : 2 ^ 52 ≤ digits <<< Format.binary64.mantissaBits * 10 ^ e.toNat := by
      rw [Nat.shiftLeft_eq]
      calc 2 ^ 52 ≤ 1 * 2 ^ 53 * 1 := by norm_num
        _ ≤ digits * 2 ^ 53 * 10 ^ e.toNat :=
          Nat.mul_le_mul (Nat.mul_le_mul_right _ hpositive) (Nat.one_le_pow _ _ (by decide))
    have hvalue : (digits * 10 ^ e : ℚ) = (digits <<< Format.binary64.mantissaBits : ℕ) *
        2 ^ (-Format.binary64.mantissaBits : ℤ) * ((10 ^ e.toNat : ℕ) * 2 ^ (0 : ℤ)) := by
      rw [Nat.shiftLeft_eq, zpow_zero, mul_one, Nat.cast_mul, Nat.cast_pow, Nat.cast_pow,
        Nat.cast_two, Nat.cast_ofNat, mul_assoc (digits : ℚ), zpow_neg, zpow_natCast,
        mul_inv_cancel₀ (by positivity), mul_one, ← zpow_natCast, Int.toNat_of_nonneg he]
    rw [hvalue] at h
    exact mul_of_roundsTo _ _ hbits hm hpos h
  · rw [if_neg he]
    have hvalue : (digits * 10 ^ e : ℚ) =
        digits * 2 ^ (0 : ℤ) / ((10 ^ (-e).toNat : ℕ) * 2 ^ (0 : ℤ)) := by
      rw [zpow_zero, mul_one, mul_one, Nat.cast_pow, Nat.cast_ofNat, ← zpow_natCast,
        Int.toNat_of_nonneg (by omega), zpow_neg, div_inv_eq_mul]
    rw [hvalue] at h
    exact div_of_roundsTo _ _ hm hpos h

end Decimal

section Short

variable {n : ℕ}

/-- A short natural number becomes a double without being rounded. -/
theorem exists_of_toFloat (hpos : 0 < n) (hlt : n < 2 ^ 53) :
    ∃ m q, Double.of n.toUInt64.toFloat = .finite false m q ∧ 0 < m ∧ (m * 2 ^ q : ℚ) = n := by
  have hmagnitude : IsMagnitude n := ⟨n, 0, hlt, by norm_num, by norm_num, by simp⟩
  obtain ⟨m, q, hm, hpositive, hvalue⟩ := hmagnitude.exists_isCanonical (by positivity)
  refine ⟨m, q, ?_, hpositive, hvalue⟩
  have hnat : n.toUInt64.toNat = n := Nat.mod_eq_of_lt (hlt.trans (by norm_num))
  have hexact : RoundsTo (n * 2 ^ (0 : ℤ)) m q := by
    rw [zpow_zero, mul_one, ← hvalue]
    exact roundsTo_self m q
  have hgt : compare (n : ℤ) 0 = .gt := Int.compare_eq_gt.2 (by omega)
  have hround : UnpackedFloat.ofNat Format.binary64 n = .finite .positive m q hpositive := by
    simp only [UnpackedFloat.ofNat, UnpackedFloat.ofInt, UnpackedFloat.normalize, hgt,
      Int.toNat_natCast]
    exact round_of_roundsTo .positive hpos hm hpositive hexact
  have hmodel : n.toUInt64.toFloat =
      .ofModel (pack (UnpackedFloat.ofNat Format.binary64 n.toUInt64.toNat)) := rfl
  rw [hmodel, hnat, hround]
  exact of_pack false hm hpositive

def isPowerOfTen (x : Float) (power : ℕ) : Bool :=
  match Double.of x with
  | .finite false mantissa exponent =>
    decide (2 ^ 52 ≤ mantissa) &&
      mantissa * 2 ^ exponent.toNat == 10 ^ power * 2 ^ (-exponent).toNat
  | _ => false

theorem isPowerOfTen_getElem : ∀ power : Fin 23,
    isPowerOfTen (getElem Float.exactlyRepresentablePowersOfTen power.val power.isLt) power =
      true := by
  decide

theorem two_pow_toNat (exponent : ℤ) :
    (2 : ℚ) ^ exponent.toNat = 2 ^ exponent * 2 ^ (-exponent).toNat := by
  rw [← zpow_natCast, ← zpow_natCast, ← zpow_add₀ two_ne_zero]
  congr 1
  omega

theorem exists_powerOfTen {power : ℕ} (h : power < Float.exactlyRepresentablePowersOfTen.size) :
    ∃ mantissa exponent,
      Double.of Float.exactlyRepresentablePowersOfTen[power] = .finite false mantissa exponent ∧
        2 ^ 52 ≤ mantissa ∧ (mantissa * 2 ^ exponent : ℚ) = 10 ^ power := by
  have hpower := isPowerOfTen_getElem ⟨power, h⟩
  unfold isPowerOfTen at hpower
  split at hpower
  · next mantissa exponent hof =>
    rw [Bool.and_eq_true, decide_eq_true_eq, beq_iff_eq] at hpower
    refine ⟨mantissa, exponent, hof, hpower.1, ?_⟩
    have hvalue : (mantissa * 2 ^ exponent.toNat : ℚ) = 10 ^ power * 2 ^ (-exponent).toNat := by
      exact_mod_cast hpower.2
    rw [two_pow_toNat, ← mul_assoc] at hvalue
    exact mul_right_cancel₀ (by positivity) hvalue
  · cases hpower

end Short

section Read

variable {digits m m₁ m₂ : ℕ} {q e e₁ e₂ : ℤ} {x y : Float}

theorem of_mul (hx : Double.of x = .finite false m₁ e₁) (hy : Double.of y = .finite false m₂ e₂)
    (h₁ : 0 < m₁) (h₂ : 0 < m₂) (hbits : 2 ^ 52 ≤ m₁ * m₂) (hm : IsCanonical m q) (hpos : 0 < m)
    (h : RoundsTo (m₁ * 2 ^ e₁ * (m₂ * 2 ^ e₂)) m q) : Double.of (x * y) = .finite false m q := by
  have hmodel : x * y = .ofModel (pack (UnpackedFloat.mul Format.binary64 x.toModel.unpack
      y.toModel.unpack)) := rfl
  rw [hmodel, unpack_of_finite hx h₁, unpack_of_finite hy h₂, mul_of_roundsTo h₁ h₂ hbits hm hpos h]
  exact of_pack false hm hpos

theorem of_div (hx : Double.of x = .finite false m₁ e₁) (hy : Double.of y = .finite false m₂ e₂)
    (h₁ : 0 < m₁) (h₂ : 0 < m₂) (hm : IsCanonical m q) (hpos : 0 < m)
    (h : RoundsTo (m₁ * 2 ^ e₁ / (m₂ * 2 ^ e₂)) m q) : Double.of (x / y) = .finite false m q := by
  have hmodel : x / y = .ofModel (pack (UnpackedFloat.div Format.binary64 x.toModel.unpack
      y.toModel.unpack)) := rfl
  rw [hmodel, unpack_of_finite hx h₁, unpack_of_finite hy h₂, div_of_roundsTo h₁ h₂ hm hpos h]
  exact of_pack false hm hpos

theorem ten_zpow_natAbs (e : ℤ) :
    (10 : ℚ) ^ e = if e < 0 then (10 ^ e.natAbs)⁻¹ else 10 ^ e.natAbs := by
  rw [← zpow_natCast]
  split
  · rw [← zpow_neg]
    congr 1
    omega
  · congr 1
    omega

theorem ofSign_natAbs (e : ℤ) :
    (if decide (e < 0) = true then Int.negOfNat e.natAbs else Int.ofNat e.natAbs) = e := by
  rw [Int.negOfNat_eq, Int.ofNat_eq_natCast]
  split_ifs with he
  · have := of_decide_eq_true he
    omega
  · have := of_decide_eq_false (Bool.eq_false_of_not_eq_true he)
    omega

/-- A decimal number is read as the double it rounds to. Few digits with a small exponent are a
double and a power of ten, and these are multiplied or divided. -/
theorem of_ofScientific (hm : IsCanonical m q) (hpos : 0 < m)
    (h : RoundsTo (digits * 10 ^ e) m q) :
    Double.of (Float.ofScientific digits (decide (e < 0)) e.natAbs) = .finite false m q := by
  unfold Float.ofScientific
  split
  · next hshort =>
    have hdigits := Nat.pos_of_ne_zero (digits_ne_zero h hm hpos)
    obtain ⟨short, least, hx, hshortpos, hvalue⟩ := exists_of_toFloat hdigits hshort.1
    obtain ⟨ten, exponent, hy, hten, hpower⟩ := exists_powerOfTen (Nat.lt_succ_of_le hshort.2)
    rw [ten_zpow_natAbs] at h
    by_cases he : e < 0
    · rw [if_pos he, ← div_eq_mul_inv] at h
      simp only [decide_eq_true he, if_true]
      refine of_div hx hy hshortpos (by omega) hm hpos ?_
      rwa [hvalue, hpower]
    · rw [if_neg he] at h
      simp only [decide_eq_false he, Bool.false_eq_true, if_false]
      refine of_mul hx hy hshortpos (by omega) ?_ hm hpos ?_
      · exact hten.trans (Nat.le_mul_of_pos_left _ hshortpos)
      · rwa [hvalue, hpower]
  · simp only [ofSign_natAbs, Float.Model.ofScientific, ofScientific_of_roundsTo hm hpos h]
    exact of_pack false hm hpos

end Read

end Reckoner.Double
