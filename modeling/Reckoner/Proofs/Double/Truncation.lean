import Reckoner.Proofs.Double.Difference
import Reckoner.Value.Power

/-!
Truncation. A finite double of which the truncation has 64 bits is off from it by a fraction that is
a double itself, so that the check of the difference is exact. Beyond that the end of the range is
off by at least one, but for the one double that is next to the upper end, and is taken for it.
-/

namespace Reckoner.Double

def towardZero (v : ℚ) : ℤ := if 0 ≤ v then ⌊v⌋ else ⌈v⌉

def TruncatesTo (x : Float) (i : Int64) : Prop :=
  (Double.of x).value?.map towardZero = some i.toInt

/-- What is given in the place of an integer: the end of the range on the side of the double, and
zero for what is no number. -/
def limit : Double → Int64
  | .nan => 0
  | .infinity negative | .finite negative _ _ =>
    if negative then Int64.minValue else Int64.maxValue

section Truncate

variable {m : ℕ} {e : ℤ}

theorem floor_of_nonneg (he : 0 ≤ e) (m : ℕ) : (floor m e : ℚ) = m * 2 ^ e := by
  have hfloor : floor m e = m * 2 ^ e.toNat := if_pos he
  rw [hfloor, Nat.cast_mul, Nat.cast_pow, Nat.cast_two, ← zpow_natCast, Int.toNat_of_nonneg he]

/-- What is cut off are the last bits of the mantissa. -/
theorem mul_zpow_of_neg (he : e < 0) (m : ℕ) :
    (m * 2 ^ e : ℚ) = floor m e + (m % 2 ^ (-e).toNat : ℕ) * 2 ^ e := by
  have hfloor : floor m e = m / 2 ^ (-e).toNat := if_neg he.not_ge
  have hpow : (2 : ℚ) ^ e = ((2 : ℚ) ^ (-e).toNat)⁻¹ := by
    rw [← zpow_natCast, Int.toNat_of_nonneg (by omega), zpow_neg, inv_inv]
  have hsplit : (m : ℚ) = 2 ^ (-e).toNat * floor m e + (m % 2 ^ (-e).toNat : ℕ) := by
    rw [hfloor]
    exact_mod_cast (Nat.div_add_mod m (2 ^ (-e).toNat)).symm
  rw [hpow]
  nth_rewrite 1 [hsplit]
  field_simp

theorem floor_eq (m : ℕ) (e : ℤ) : (floor m e : ℤ) = ⌊(m * 2 ^ e : ℚ)⌋ := by
  obtain he | he := le_or_gt 0 e
  · rw [← floor_of_nonneg he, Int.floor_natCast]
  · have hfloor : floor m e = m / 2 ^ (-e).toNat := if_neg he.not_ge
    have hvalue : (m * 2 ^ e : ℚ) = (m : ℚ) / (2 ^ (-e).toNat : ℕ) := by
      rw [Nat.cast_pow, Nat.cast_two, ← zpow_natCast, Int.toNat_of_nonneg (by omega), zpow_neg,
        div_inv_eq_mul]
    rw [hvalue, Rat.floor_natCast_div_natCast, hfloor]
    rfl

theorem towardZero_neg (v : ℚ) : towardZero (-v) = -towardZero v := by
  unfold towardZero
  obtain hneg | rfl | hpos := lt_trichotomy v 0
  · rw [if_pos (by linarith), if_neg (by linarith), Int.floor_neg]
  · simp
  · rw [if_neg (by linarith), if_pos hpos.le, Int.ceil_neg]

theorem towardZero_signed (negative : Bool) (m : ℕ) (e : ℤ) :
    towardZero (signed negative m e) = if negative then -(floor m e : ℤ) else floor m e := by
  have hnonneg : (0 : ℚ) ≤ m * 2 ^ e := by positivity
  have hfloor : towardZero (m * 2 ^ e) = floor m e := by
    rw [towardZero, if_pos hnonneg, floor_eq]
  unfold signed
  cases negative with
  | false => exact hfloor
  | true =>
    simp only [if_true, neg_mul]
    rw [towardZero_neg, hfloor]

theorem truncate?_eq (d : Double) : d.truncate? = d.value?.map towardZero := by
  cases d with
  | nan | infinity => rfl
  | finite negative m e =>
    rw [value?, Option.map_some, towardZero_signed]
    cases negative <;> rfl

variable {x : Float} {i : Int64}

theorem truncatesTo_iff : TruncatesTo x i ↔ (Double.of x).truncate? = some i.toInt := by
  rw [TruncatesTo, truncate?_eq]

theorem clamp_toInt (i : Int64) : clamp i.toInt = i := by
  rw [clamp, min_eq_left i.toInt_le, max_eq_right i.minValue_le_toInt, Int64.ofInt_toInt]

theorem toInteger_of_truncatesTo (h : TruncatesTo x i) : toInteger x = i := by
  rw [truncatesTo_iff] at h
  unfold toInteger
  split
  · next hof => rw [hof] at h; cases h
  · next hof => rw [hof] at h; cases h
  · next hof => rw [hof] at h; cases h
  · rw [h, Option.getD_some, clamp_toInt]

theorem least_or_greatest {t : ℤ} (h : ∀ i : Int64, t ≠ i.toInt) : t < -2 ^ 63 ∨ 2 ^ 63 ≤ t := by
  by_contra! hrange
  exact h (Int64.ofInt t) (Int64.toInt_ofInt_of_le hrange.1 hrange.2).symm

theorem clamp_of_lt {t : ℤ} (h : t < -2 ^ 63) : clamp t = Int64.minValue := by
  have hmin : Int64.minValue.toInt = -2 ^ 63 := by decide
  rw [clamp, max_eq_left ((min_le_left _ _).trans (by omega)), Int64.ofInt_toInt]

theorem clamp_of_le {t : ℤ} (h : 2 ^ 63 ≤ t) : clamp t = Int64.maxValue := by
  have hmax : Int64.maxValue.toInt = 2 ^ 63 - 1 := by decide
  rw [clamp, min_eq_right (by omega), max_eq_right (by decide), Int64.ofInt_toInt]

/-- A finite double that has no truncation of 64 bits is far from zero. -/
theorem le_floor_of_forall_not {negative : Bool} (hof : Double.of x = .finite negative m e)
    (h : ∀ i, ¬ TruncatesTo x i) :
    if negative then 2 ^ 63 < floor m e else 2 ^ 63 ≤ floor m e := by
  have hne : ∀ i : Int64, (if negative then -(floor m e : ℤ) else floor m e) ≠ i.toInt := by
    intro i heq
    refine h i ?_
    rw [TruncatesTo, hof, value?, Option.map_some, towardZero_signed, heq]
  have hrange := least_or_greatest hne
  cases negative <;> simp only [if_true, Bool.false_eq_true, if_false] at hrange ⊢ <;> omega

theorem toInteger_of_forall_not (h : ∀ i, ¬ TruncatesTo x i) :
    toInteger x = limit (Double.of x) := by
  unfold toInteger
  cases hof : Double.of x with
  | nan => rfl
  | infinity negative => cases negative <;> rfl
  | finite negative m e =>
    have hfloor := le_floor_of_forall_not hof h
    cases negative with
    | false =>
      have hlarge : 2 ^ 63 ≤ floor m e := hfloor
      exact clamp_of_le (t := floor m e) (by omega)
    | true =>
      have hlarge : 2 ^ 63 < floor m e := hfloor
      exact clamp_of_lt (t := -floor m e) (by omega)

end Truncate

section Integer

variable {n m : ℕ} {q e : ℤ} {i : Int64}

theorem of_ofNat (hm : IsCanonical m q) (hpos : 0 < m) (h : (m * 2 ^ q : ℚ) = n) :
    Double.of (Float.ofNat n) = .finite false m q := by
  refine of_ofScientific (e := 0) hm hpos ?_
  rw [zpow_zero, mul_one, ← h]
  exact roundsTo_self m q

/-- An integer that is a double becomes that double. -/
theorem exists_of_ofInteger (h : IsMagnitude |(i.toInt : ℚ)|) :
    ∃ s m q, Double.of (ofInteger i) = .finite s m q ∧ signed s m q = i.toInt := by
  unfold ofInteger
  generalize i.toInt = k at h ⊢
  obtain rfl | hne := eq_or_ne k 0
  · exact ⟨false, 0, -1074, by decide, by simp [signed]⟩
  · obtain ⟨m, q, hm, hpos, hvalue⟩ := h.exists_isCanonical (by simpa using hne)
    cases k with
    | ofNat k =>
      rw [Int.ofNat_eq_natCast, Int.cast_natCast, Nat.abs_cast] at hvalue
      exact ⟨false, m, q, of_ofNat hm hpos hvalue, hvalue⟩
    | negSucc k =>
      rw [Int.cast_negSucc, abs_neg, Nat.abs_cast] at hvalue
      refine ⟨true, m, q, of_neg (of_ofNat hm hpos hvalue) hpos, ?_⟩
      rw [signed, if_pos rfl, neg_mul, hvalue, Int.cast_negSucc]

end Integer

section Fraction

variable {m : ℕ} {e : ℤ} {x : Float} {i : Int64} {negative : Bool}

theorem floor_le_mantissa (he : e < 0) (m : ℕ) : floor m e ≤ m := by
  rw [floor, if_neg he.not_ge]
  exact Nat.div_le_self _ _

theorem isMagnitude_floor (h : IsCanonical m e) : IsMagnitude (floor m e) := by
  obtain he | he := le_or_gt 0 e
  · exact ⟨m, e, h.lt, h.min, h.max, floor_of_nonneg he m⟩
  · exact ⟨floor m e, 0, (floor_le_mantissa he m).trans_lt h.lt, by norm_num, by norm_num,
      by simp⟩

/-- What is behind the point is a double. -/
theorem isMagnitude_fraction (h : IsCanonical m e) : IsMagnitude (m * 2 ^ e - floor m e) := by
  obtain he | he := le_or_gt 0 e
  · rw [floor_of_nonneg he, sub_self]
    exact isMagnitude_zero
  · rw [mul_zpow_of_neg he, add_sub_cancel_left]
    exact ⟨_, e, (Nat.mod_le _ _).trans_lt h.lt, h.min, h.max, rfl⟩

theorem floor_le (m : ℕ) (e : ℤ) : (floor m e : ℚ) ≤ m * 2 ^ e := by
  have hle := Int.floor_le (m * 2 ^ e : ℚ)
  rwa [← floor_eq, Int.cast_natCast] at hle

theorem lt_floor_add_one (m : ℕ) (e : ℤ) : (m * 2 ^ e : ℚ) < floor m e + 1 := by
  have hlt := Int.lt_floor_add_one (m * 2 ^ e : ℚ)
  rwa [← floor_eq, Int.cast_natCast] at hlt

/-- A finite double, its truncation and what is cut off. -/
theorem exists_parts_of_truncatesTo (h : TruncatesTo x i) :
    ∃ negative m e, Double.of x = .finite negative m e ∧ |(i.toInt : ℚ)| = floor m e ∧
      |(i.toInt : ℚ) - signed negative m e| = m * 2 ^ e - floor m e := by
  unfold TruncatesTo at h
  cases hof : Double.of x with
  | nan | infinity => rw [hof] at h; cases h
  | finite negative m e =>
    rw [hof, value?, Option.map_some, towardZero_signed, Option.some.injEq] at h
    have hfraction : |(floor m e : ℚ) - m * 2 ^ e| = m * 2 ^ e - floor m e := by
      rw [abs_sub_comm, abs_of_nonneg (sub_nonneg.2 (floor_le m e))]
    refine ⟨negative, m, e, rfl, ?_⟩
    rw [← h]
    unfold signed
    cases negative with
    | false => exact ⟨by simp, by simpa using hfraction⟩
    | true =>
      rw [if_pos rfl, if_pos rfl, Int.cast_neg, Int.cast_natCast, abs_neg, Nat.abs_cast, neg_mul,
        sub_neg_eq_add, neg_add_eq_sub, abs_sub_comm]
      exact ⟨rfl, hfraction⟩

theorem of_ofInteger_limit (negative : Bool) :
    Double.of (ofInteger (if negative then Int64.minValue else Int64.maxValue)) =
      .finite negative (2 ^ 52) 11 := by
  cases negative <;> decide

theorem eq_false_of_signed_pos (h : 0 < signed negative m e) : negative = false := by
  cases negative with
  | false => rfl
  | true =>
    have hnonneg : (0 : ℚ) ≤ m * 2 ^ e := by positivity
    rw [signed, if_pos rfl, neg_mul] at h
    linarith

theorem signed_limit (negative : Bool) :
    signed negative (2 ^ 52) 11 = if negative then -2 ^ 63 else 2 ^ 63 := by
  cases negative <;> norm_num [signed]

/-- The end of the range is off by one or more, where it is off at all. -/
theorem one_le_abs_limit_sub (hof : Double.of x = .finite negative m e)
    (h : ∀ i, ¬ TruncatesTo x i) (hne : signed negative m e ≠ 2 ^ 63) :
    1 ≤ |signed negative (2 ^ 52) 11 - signed negative m e| := by
  have hfloor := le_floor_of_forall_not hof h
  have hm := isCanonical_of hof
  have he : 0 ≤ e := by
    by_contra hneg
    have hle := floor_le_mantissa (not_le.1 hneg) m
    have hlt := hm.lt
    split at hfloor <;> omega
  have hvalue := floor_of_nonneg he m
  rw [signed_limit]
  unfold signed at hne ⊢
  rw [ite_mul, neg_mul, ← hvalue] at hne ⊢
  have hlarge : 2 ^ 63 < floor m e := by
    cases negative with
    | false =>
      refine lt_of_le_of_ne hfloor fun heq => hne ?_
      rw [← heq]
      norm_num
    | true => exact hfloor
  have hcast : (2 : ℚ) ^ 63 + 1 ≤ floor m e := by exact_mod_cast hlarge
  cases negative with
  | false => rw [abs_sub_comm]; exact (le_abs_self _).trans' (by simp; linarith)
  | true => exact (le_abs_self _).trans' (by simp; linarith)

end Fraction

end Reckoner.Double

namespace Reckoner.Value

open Double

variable {x : Float} {i : Int64}

theorem narrow_eq (x : Float) :
    narrow x =
      if x.isNaN = true ∨ 1.0 ≤ (ofInteger (toInteger x) - x).abs then
        .error (.numeric .realTooBigForInteger)
      else .ok (toInteger x) := by
  simp only [narrow, ge_iff_le, Bool.or_eq_true, decide_eq_true_eq]

theorem narrow_of_truncatesTo (h : TruncatesTo x i) : narrow x = .ok i := by
  obtain ⟨negative, m, e, hof, hmagnitude, hfraction⟩ := exists_parts_of_truncatesTo h
  have hm := isCanonical_of hof
  obtain ⟨s, m', q, hof', hvalue⟩ := exists_of_ofInteger (hmagnitude ▸ isMagnitude_floor hm)
  rw [← hvalue] at hfraction
  have hnumber : ¬ x.isNaN = true := by
    rw [isNaN_iff, hof]
    nofun
  have hnear : ¬ 1.0 ≤ (ofInteger i - x).abs := by
    refine not_one_le_abs_sub hof' hof (hfraction ▸ isMagnitude_fraction hm) ?_
    rw [hfraction]
    linarith [lt_floor_add_one m e]
  rw [narrow_eq, toInteger_of_truncatesTo h, if_neg (not_or_intro hnumber hnear)]

/-- Of the doubles that have no truncation of 64 bits one is not refused. -/
theorem narrow_of_forall_not (h : ∀ i, ¬ TruncatesTo x i) :
    narrow x =
      if (Double.of x).value? = some (2 ^ 63) then .ok Int64.maxValue
      else .error (.numeric .realTooBigForInteger) := by
  rw [narrow_eq, toInteger_of_forall_not h]
  cases hof : Double.of x with
  | nan => rw [if_pos (.inl ((isNaN_iff x).2 hof)), if_neg (by simp [value?])]
  | infinity negative =>
    rw [if_pos (.inr (one_le_abs_sub_infinity (of_ofInteger_limit negative) hof)),
      if_neg (by simp [value?])]
  | finite negative m e =>
    have hlimit : Double.of (ofInteger (limit (.finite negative m e))) =
        .finite negative (2 ^ 52) 11 := of_ofInteger_limit negative
    by_cases hvalue : signed negative m e = 2 ^ 63
    · have hpos : 0 < signed negative m e := by
        rw [hvalue]
        norm_num
      obtain rfl := eq_false_of_signed_pos hpos
      have hnumber : ¬ x.isNaN = true := by
        rw [isNaN_iff, hof]
        nofun
      have hzero : |signed false (2 ^ 52) 11 - signed false m e| = 0 := by
        rw [hvalue, signed_limit, if_neg Bool.false_ne_true, sub_self, abs_zero]
      have hnear := not_one_le_abs_sub hlimit hof (hzero ▸ isMagnitude_zero)
        (hzero ▸ zero_lt_one)
      have heq : (Double.finite false m e).value? = some (2 ^ 63) := congrArg some hvalue
      rw [if_neg (not_or_intro hnumber hnear), if_pos heq]
      rfl
    · have hfar := one_le_abs_sub hlimit hof (one_le_abs_limit_sub hof h hvalue)
      have hne : (Double.finite negative m e).value? ≠ some (2 ^ 63) :=
        fun heq => hvalue (Option.some.inj heq)
      rw [if_pos (.inr hfar), if_neg hne]

end Reckoner.Value
