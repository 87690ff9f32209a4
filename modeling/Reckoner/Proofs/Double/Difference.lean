import Reckoner.Proofs.Double.Scientific

/-!
Differences of doubles. The difference of two finite doubles is a mantissa and an exponent before it
is rounded. It is exact if 53 bits suffice for that mantissa, and a difference of at least one is
rounded to no less than one.
-/

namespace Reckoner.Double

open Float.Model Float.Model.UnpackedFloat

def signed (negative : Bool) (mantissa : ℕ) (exponent : ℤ) : ℚ :=
  (if negative then -(mantissa : ℚ) else mantissa) * 2 ^ exponent

def value? : Double → Option ℚ
  | .finite negative mantissa exponent => some (signed negative mantissa exponent)
  | _ => none

section Round

variable {n : ℕ} {e T : ℤ} {v : ℚ}

/-- Rounding passes over no integer. -/
theorem IsNearest.bounds {a b : ℕ} (h : IsNearest n v) (hle : a ≤ v) (hlt : v < b) :
    a ≤ n ∧ n ≤ b := by
  have hlow : (n : ℚ) - 1 / 2 ≤ v := h.low.elim le_of_lt fun h => h.2.ge
  have hhigh : v ≤ (n : ℚ) + 1 / 2 := h.high.elim le_of_lt fun h => h.2.le
  have hlower : (a : ℚ) < (n + 1 : ℕ) := by push_cast; linarith
  have hupper : (n : ℚ) < (b + 1 : ℕ) := by push_cast; linarith
  exact ⟨Nat.le_of_lt_succ (Nat.cast_lt.1 hlower), Nat.le_of_lt_succ (Nat.cast_lt.1 hupper)⟩

theorem IsTarget.le_of_one_le (ht : IsTarget T v) (h : 1 ≤ v) : -52 ≤ T := by
  have hlt : (2 : ℚ) ^ (0 : ℤ) < 2 ^ (T + 53) := by simpa using h.trans_lt ht.lt
  have hexponents := (zpow_lt_zpow_iff_right₀ one_lt_two).1 hlt
  omega

/-- With a larger exponent than the least the mantissa has 53 bits before the point. -/
theorem IsTarget.quotient_bounds (ht : IsTarget T v) (hT : T ≠ -1074) :
    ((2 ^ 52 : ℕ) : ℚ) ≤ v / 2 ^ T ∧ v / 2 ^ T < ((2 ^ 53 : ℕ) : ℚ) := by
  have hpow : (0 : ℚ) < 2 ^ T := by positivity
  have hle := ht.le.resolve_left hT
  have hlt := ht.lt
  rw [zpow_add₀ two_ne_zero, mul_comm] at hle
  rw [zpow_add₀ two_ne_zero, mul_comm] at hlt
  exact ⟨(le_div_iff₀ hpow).2 (by exact_mod_cast hle), (div_lt_iff₀ hpow).2 (by exact_mod_cast hlt)⟩

/-- One is a double, and so nothing from one on is rounded to less. -/
theorem exists_round_of_one_le (sign : Sign) (hn : 0 < n) (h : (1 : ℚ) ≤ n * 2 ^ e) :
    ∃ m q hpos, round Format.binary64 sign n e = .finite sign m q hpos ∧
      2 ^ 52 ≤ m ∧ m < 2 ^ 53 ∧ -52 ≤ q := by
  obtain ⟨k, hround, htarget⟩ := exists_round_eq hn e sign
  obtain ⟨em, target, hcut, ht, hem⟩ :=
    exists_shiftToTargetExponent (standsFor_exact (n * 2 ^ k)) htarget
  rw [value_shifted] at ht hem
  have hleast := ht.le_of_one_le h
  obtain ⟨hle, hlt⟩ := ht.quotient_bounds (by omega)
  obtain ⟨hlower, hupper⟩ := hem.isNearest.bounds hle hlt
  obtain hless | heq := lt_or_eq_of_le hupper
  · refine ⟨em.roundedMantissa, target, by omega, ?_, hlower, hless, hleast⟩
    simp only [hround, roundWithAccuracy, hcut, shiftToTargetExponent_of_lt hless ht.min]
    exact dif_neg (by omega)
  · -- the mantissa becomes too large by rounding, and is cut again
    refine ⟨2 ^ 52, target + 1, by norm_num, ?_, le_rfl, by norm_num, by omega⟩
    simp only [hround, roundWithAccuracy, hcut, heq, shiftToTargetExponent_two_pow ht.min]
    exact dif_neg (by norm_num)

end Round

section Packed

variable {m : ℕ} {q : ℤ} {x : Float}

theorem of_pack_zero (negative : Bool) :
    Double.of (.ofModel (pack (.zero (signOf negative)))) = .finite negative 0 (-1074) := by
  cases negative <;> decide

theorem of_pack_infinity (negative : Bool) :
    Double.of (.ofModel (pack (.infinity (signOf negative)))) = .infinity negative := by
  cases negative <;> decide

/-- What is too large for a double becomes infinite. -/
theorem of_pack_of_large (negative : Bool) (hpos : 0 < m) (hlarge : 971 < q) :
    Double.of (.ofModel (pack (.finite (signOf negative) m q hpos))) = .infinity negative := by
  have hpack : UnpackedFloat.pack Format.binary64 (.finite (signOf negative) m q hpos) =
      UnpackedFloat.pack Format.binary64 (.infinity (signOf negative)) := by
    have hbias : q + (Format.binary64.exponentBias : ℤ) + (52 : ℕ) = q + 1075 := by
      rw [show (Format.binary64.exponentBias : ℤ) = 1023 by decide]
      omega
    simp only [UnpackedFloat.pack, hbias]
    exact if_pos (by omega)
  rw [← of_pack_infinity negative]
  change ofBits (UnpackedFloat.pack Format.binary64 _).toNat = _
  rw [hpack]
  rfl

theorem unpacked_zero (negative : Bool) (q : ℤ) :
    (Double.finite negative 0 q).unpacked = .zero (signOf negative) := rfl

theorem unpacked_of_pos (negative : Bool) (q : ℤ) (hpos : 0 < m) :
    (Double.finite negative m q).unpacked = .finite (signOf negative) m q hpos := dif_neg hpos.ne'

/-- A double with its sign is packed as its parts say, also when it is zero. -/
theorem of_pack_unpacked (negative : Bool) (h : IsCanonical m q) :
    Double.of (.ofModel (pack (Double.finite negative m q).unpacked)) = .finite negative m q := by
  obtain rfl | hpos := Nat.eq_zero_or_pos m
  · rw [unpacked_zero, of_pack_zero, h.normal.resolve_right (by norm_num)]
  · rw [unpacked_of_pos negative q hpos, of_pack negative h]

theorem isNaN_iff (x : Float) : x.isNaN = true ↔ Double.of x = .nan := by
  change x.toModel.unpack.isNaN = true ↔ _
  rw [unpack_eq]
  cases Double.of x with
  | nan => exact iff_of_true rfl rfl
  | infinity negative => exact iff_of_false Bool.false_ne_true nofun
  | finite negative m q =>
    refine iff_of_false ?_ nofun
    obtain rfl | hpos := Nat.eq_zero_or_pos m
    · exact Bool.false_ne_true
    · rw [unpacked_of_pos negative q hpos]
      exact Bool.false_ne_true

theorem of_abs {negative : Bool} (hx : Double.of x = .finite negative m q) :
    Double.of x.abs = .finite false m q := by
  have hmodel : x.abs = .ofModel (pack x.toModel.unpack.abs) := rfl
  have habs : (Double.finite negative m q).unpacked.abs = (Double.finite false m q).unpacked := by
    obtain rfl | hpos := Nat.eq_zero_or_pos m
    · rfl
    · rw [unpacked_of_pos _ _ hpos, unpacked_of_pos _ _ hpos]
      rfl
  rw [hmodel, unpack_eq, hx, habs, of_pack_unpacked false (isCanonical_of hx)]

theorem of_abs_infinity {negative : Bool} (hx : Double.of x = .infinity negative) :
    Double.of x.abs = .infinity false := by
  have hmodel : x.abs = .ofModel (pack x.toModel.unpack.abs) := rfl
  rw [hmodel, unpack_eq, hx]
  exact of_pack_infinity false

theorem of_one : Double.of 1.0 = .finite false (2 ^ 52) (-52) := by decide

theorem one_le_mul_zpow_iff (h : IsCanonical m q) : (1 : ℚ) ≤ m * 2 ^ q ↔ -52 ≤ q := by
  have hpow : (0 : ℚ) < 2 ^ q := by positivity
  have hone : (2 : ℚ) ^ (52 : ℤ) * 2 ^ (-52 : ℤ) = 1 := by norm_num
  constructor
  · intro hle
    by_contra hless
    have hexponent : (2 : ℚ) ^ q ≤ 2 ^ (-53 : ℤ) := zpow_le_zpow_right₀ one_le_two (by omega)
    have hmantissa : (m : ℚ) < 2 ^ 53 := by exact_mod_cast h.lt
    have hsmall : (m * 2 ^ q : ℚ) < 2 ^ 53 * 2 ^ (-53 : ℤ) :=
      mul_lt_mul_of_lt_of_le_of_nonneg_of_pos hmantissa hexponent (by positivity) (by positivity)
    norm_num at hsmall
    linarith
  · intro hle
    have hmantissa : (2 : ℚ) ^ 52 ≤ m := by exact_mod_cast h.normal.resolve_left (by omega)
    have hexponent : (2 : ℚ) ^ (-52 : ℤ) ≤ 2 ^ q := zpow_le_zpow_right₀ one_le_two hle
    calc (1 : ℚ) = 2 ^ 52 * 2 ^ (-52 : ℤ) := by norm_num
      _ ≤ m * 2 ^ q := mul_le_mul hmantissa hexponent (by positivity) (by positivity)

theorem le_iff (x y : Float) : x ≤ y ↔ (Double.of x).unpacked.le (Double.of y).unpacked = true := by
  rw [← unpack_eq, ← unpack_eq]
  exact decide_eq_true_iff

theorem one_le_abs_iff {negative : Bool} (hx : Double.of x = .finite negative m q) :
    1.0 ≤ x.abs ↔ (1 : ℚ) ≤ m * 2 ^ q := by
  have hm := isCanonical_of hx
  rw [le_iff, of_one, of_abs hx, one_le_mul_zpow_iff hm, unpacked_of_pos _ _ (by norm_num)]
  obtain rfl | hpos := Nat.eq_zero_or_pos m
  · rw [hm.normal.resolve_right (by norm_num)]
    decide
  · rw [unpacked_of_pos _ _ hpos]
    -- The mantissas matter only where the exponents agree, and there that of one is the least.
    change ((compare (-52) q).then (compare (2 ^ 52) m)).isLE = true ↔ -52 ≤ q
    obtain hless | rfl | hmore := lt_trichotomy (-52) q
    · rw [Int.compare_eq_lt.2 hless]
      exact iff_of_true rfl hless.le
    · rw [Int.compare_eq_eq.2 rfl, Ordering.eq_then, Nat.isLE_compare]
      exact iff_of_true (hm.normal.resolve_left (by norm_num)) le_rfl
    · rw [Int.compare_eq_gt.2 hmore, Ordering.gt_then]
      exact iff_of_false (by decide) hmore.not_ge

theorem one_le_abs_of_infinity {negative : Bool} (hx : Double.of x = .infinity negative) :
    1.0 ≤ x.abs := by
  rw [le_iff, of_one, of_abs_infinity hx]
  rfl

end Packed

section Subtract

variable {s₁ s₂ : Bool} {m₁ m₂ n : ℕ} {e₁ e₂ e : ℤ} {x y : Float}

theorem abs_signed (negative : Bool) (m : ℕ) (q : ℤ) : |signed negative m q| = m * 2 ^ q := by
  have hnonneg : (0 : ℚ) ≤ m * 2 ^ q := by positivity
  unfold signed
  cases negative with
  | false => exact abs_of_nonneg hnonneg
  | true => rw [if_pos rfl, neg_mul, abs_neg, abs_of_nonneg hnonneg]

theorem normalize_of_ne_zero {z : ℤ} (hz : z ≠ 0) (e : ℤ) (sign : Sign) :
    UnpackedFloat.normalize Format.binary64 z e sign =
      round Format.binary64 (signOf (decide (z < 0))) z.natAbs e := by
  unfold UnpackedFloat.normalize
  obtain hneg | hpos := lt_or_gt_of_ne hz
  · have hnat : (-z).toNat = z.natAbs := by omega
    simp only [Int.compare_eq_lt.2 hneg, decide_eq_true hneg, hnat]
    rfl
  · have hnat : z.toNat = z.natAbs := by omega
    simp only [Int.compare_eq_gt.2 hpos, decide_eq_false hpos.not_gt, hnat]
    rfl

/-- The mantissas are aligned to the smaller exponent. -/
theorem apply_shifted (negative : Bool) (m : ℕ) {t : ℤ} (ht : t ≤ e) :
    (((signOf negative).apply (m <<< (e - t).toNat : ℕ) : ℤ) : ℚ) * 2 ^ t =
      signed negative m e := by
  have hvalue := value_shifted m (e - t).toNat e
  rw [Int.toNat_of_nonneg (by omega), sub_sub_cancel] at hvalue
  unfold signed
  cases negative with
  | false => simpa [signOf, Sign.apply, Nat.shiftLeft_eq] using hvalue
  | true => simpa [signOf, Sign.apply, Nat.shiftLeft_eq] using hvalue

theorem sub_eq (x y : Float) : x - y = .ofModel (pack (UnpackedFloat.sub Format.binary64
    (Double.of x).unpacked (Double.of y).unpacked)) := by
  rw [← unpack_eq, ← unpack_eq]
  rfl

theorem signed_zero (negative : Bool) (q : ℤ) : signed negative 0 q = 0 := by simp [signed]

/-- A zero has no mantissa to be aligned, and the other double stays as it is. -/
theorem exists_of_sub_of_zero (hx : Double.of x = .finite s₁ m₁ e₁)
    (hy : Double.of y = .finite s₂ m₂ e₂) (h : m₁ = 0 ∨ m₂ = 0) :
    ∃ s m q, Double.of (x - y) = .finite s m q ∧
      (m * 2 ^ q : ℚ) = |signed s₁ m₁ e₁ - signed s₂ m₂ e₂| := by
  rw [sub_eq, hx, hy]
  obtain rfl | h₁ := Nat.eq_zero_or_pos m₁ <;> obtain rfl | h₂ := Nat.eq_zero_or_pos m₂
  · have hsub : UnpackedFloat.sub Format.binary64 (.zero (signOf s₁)) (.zero (signOf s₂)) =
        .zero (signOf (s₁ && !s₂)) := by
      cases s₁ <;> cases s₂ <;> rfl
    rw [unpacked_zero, unpacked_zero, hsub]
    exact ⟨_, 0, -1074, of_pack_zero _, by simp [signed_zero]⟩
  · have hsub : UnpackedFloat.sub Format.binary64 (.zero (signOf s₁))
        (.finite (signOf s₂) m₂ e₂ h₂) = .finite (signOf !s₂) m₂ e₂ h₂ := by
      cases s₂ <;> rfl
    rw [unpacked_zero, unpacked_of_pos s₂ e₂ h₂, hsub]
    exact ⟨_, m₂, e₂, of_pack _ (isCanonical_of hy) h₂,
      by rw [signed_zero, zero_sub, abs_neg, abs_signed]⟩
  · have hsub : UnpackedFloat.sub Format.binary64 (.finite (signOf s₁) m₁ e₁ h₁)
        (.zero (signOf s₂)) = .finite (signOf s₁) m₁ e₁ h₁ := rfl
    rw [unpacked_zero, unpacked_of_pos s₁ e₁ h₁, hsub]
    exact ⟨_, m₁, e₁, of_pack _ (isCanonical_of hx) h₁,
      by rw [signed_zero, sub_zero, abs_signed]⟩
  · omega

/-- The difference is exact, or it is a mantissa and an exponent that are rounded. -/
theorem sub_cases (hx : Double.of x = .finite s₁ m₁ e₁) (hy : Double.of y = .finite s₂ m₂ e₂) :
    (∃ s m q, Double.of (x - y) = .finite s m q ∧
        (m * 2 ^ q : ℚ) = |signed s₁ m₁ e₁ - signed s₂ m₂ e₂|) ∨
      ∃ (z : ℤ) (e : ℤ), z ≠ 0 ∧ (z * 2 ^ e : ℚ) = signed s₁ m₁ e₁ - signed s₂ m₂ e₂ ∧
        x - y = .ofModel (pack
          (round Format.binary64 (signOf (decide (z < 0))) z.natAbs e)) := by
  by_cases hzero : m₁ = 0 ∨ m₂ = 0
  · exact .inl (exists_of_sub_of_zero hx hy hzero)
  · obtain ⟨h₁, h₂⟩ := not_or.1 hzero
    rw [sub_eq, hx, hy, unpacked_of_pos s₁ e₁ (Nat.pos_of_ne_zero h₁),
      unpacked_of_pos s₂ e₂ (Nat.pos_of_ne_zero h₂)]
    simp only [UnpackedFloat.sub, decreaseExponent]
    have hvalue₁ := apply_shifted s₁ m₁ (min_le_left e₁ e₂)
    have hvalue₂ := apply_shifted s₂ m₂ (min_le_right e₁ e₂)
    generalize (signOf s₁).apply _ = z₁ at hvalue₁ ⊢
    generalize (signOf s₂).apply _ = z₂ at hvalue₂ ⊢
    have hvalue : ((z₁ - z₂ : ℤ) : ℚ) * 2 ^ min e₁ e₂ = signed s₁ m₁ e₁ - signed s₂ m₂ e₂ := by
      rw [← hvalue₁, ← hvalue₂]
      push_cast
      ring
    by_cases hz : z₁ - z₂ = 0
    · have hnormal : UnpackedFloat.normalize Format.binary64 0 (min e₁ e₂) .positive =
          .zero (signOf false) := rfl
      rw [hz, Int.cast_zero, zero_mul] at hvalue
      rw [hz, hnormal]
      exact .inl ⟨_, 0, -1074, of_pack_zero _, by rw [← hvalue]; simp⟩
    · exact .inr ⟨_, _, hz, hvalue, by rw [normalize_of_ne_zero hz]⟩

/-- A difference that is a double is not rounded. -/
theorem exists_of_sub (hx : Double.of x = .finite s₁ m₁ e₁) (hy : Double.of y = .finite s₂ m₂ e₂)
    (h : IsMagnitude |signed s₁ m₁ e₁ - signed s₂ m₂ e₂|) :
    ∃ s m q, Double.of (x - y) = .finite s m q ∧
      (m * 2 ^ q : ℚ) = |signed s₁ m₁ e₁ - signed s₂ m₂ e₂| := by
  obtain hexact | ⟨z, e, hz, hdifference, hround⟩ := sub_cases hx hy
  · exact hexact
  · have hmagnitude : (z.natAbs * 2 ^ e : ℚ) = |signed s₁ m₁ e₁ - signed s₂ m₂ e₂| := by
      rw [← hdifference, abs_mul, abs_of_pos (show (0 : ℚ) < 2 ^ e by positivity),
        Nat.cast_natAbs, Int.cast_abs]
    have hpos : 0 < z.natAbs := Int.natAbs_pos.2 hz
    have hne : (0 : ℚ) < z.natAbs * 2 ^ e := by positivity
    rw [← hmagnitude] at h ⊢
    obtain ⟨m, q, hm, hmpos, hvalue⟩ := h.exists_isCanonical hne.ne'
    have hexact : RoundsTo (z.natAbs * 2 ^ e) m q := hvalue ▸ roundsTo_self m q
    refine ⟨decide (z < 0), m, q, ?_, hvalue⟩
    rw [hround, round_of_roundsTo _ hpos hm hmpos hexact]
    exact of_pack _ hm hmpos

theorem not_one_le_abs_sub (hx : Double.of x = .finite s₁ m₁ e₁)
    (hy : Double.of y = .finite s₂ m₂ e₂) (h : IsMagnitude |signed s₁ m₁ e₁ - signed s₂ m₂ e₂|)
    (hlt : |signed s₁ m₁ e₁ - signed s₂ m₂ e₂| < 1) : ¬ 1.0 ≤ (x - y).abs := by
  obtain ⟨s, m, q, hof, hexact⟩ := exists_of_sub hx hy h
  rw [one_le_abs_iff hof, hexact]
  exact hlt.not_ge

theorem one_le_abs_sub (hx : Double.of x = .finite s₁ m₁ e₁) (hy : Double.of y = .finite s₂ m₂ e₂)
    (h : 1 ≤ |signed s₁ m₁ e₁ - signed s₂ m₂ e₂|) : 1.0 ≤ (x - y).abs := by
  obtain ⟨s, m, q, hof, hexact⟩ | ⟨z, e, hz, hdifference, hround⟩ := sub_cases hx hy
  · rwa [one_le_abs_iff hof, hexact]
  · have hmagnitude : (1 : ℚ) ≤ z.natAbs * 2 ^ e := by
      rwa [← hdifference, abs_mul, abs_of_pos (show (0 : ℚ) < 2 ^ e by positivity),
        ← Int.cast_abs, ← Nat.cast_natAbs] at h
    obtain ⟨m, q, hpos, hrounded, hnormal, hlt, hmin⟩ :=
      exists_round_of_one_le (signOf (decide (z < 0))) (Int.natAbs_pos.2 hz) hmagnitude
    rw [hrounded] at hround
    obtain hlarge | hmax := lt_or_ge 971 q
    · exact one_le_abs_of_infinity (by rw [hround, of_pack_of_large _ hpos hlarge])
    · have hm : IsCanonical m q := ⟨hlt, by omega, hmax, .inr hnormal⟩
      rw [one_le_abs_iff (by rw [hround, of_pack _ hm]), one_le_mul_zpow_iff hm]
      exact hmin

theorem one_le_abs_sub_infinity {negative : Bool} (hx : Double.of x = .finite s₁ m₁ e₁)
    (hy : Double.of y = .infinity negative) : 1.0 ≤ (x - y).abs := by
  have hsub : UnpackedFloat.sub Format.binary64 (Double.finite s₁ m₁ e₁).unpacked
      (Double.infinity negative).unpacked = .infinity (signOf !negative) := by
    obtain rfl | hpos := Nat.eq_zero_or_pos m₁
    · cases negative <;> rfl
    · rw [unpacked_of_pos s₁ e₁ hpos]
      cases negative <;> rfl
  have hof : Double.of (x - y) = .infinity !negative := by
    rw [sub_eq, hx, hy, hsub, of_pack_infinity]
  exact one_le_abs_of_infinity hof

end Subtract

end Reckoner.Double
