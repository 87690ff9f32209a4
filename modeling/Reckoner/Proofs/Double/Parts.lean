import Reckoner.Double
import Reckoner.Proofs.Double.Rounding

/-!
The parts of a finite double and its bits. The parts determine the bits, and arithmetic on doubles
takes them apart and puts them together as the parts say.
-/

namespace Reckoner.Double

open Float.Model Float.Model.UnpackedFloat

def ofFields (negative : Bool) (exponent fraction : ℕ) : Double :=
  if exponent = 2 ^ 11 - 1 then if fraction = 0 then .infinity negative else .nan
  else if exponent = 0 then .finite negative fraction (-1074)
  else .finite negative (2 ^ 52 + fraction) (exponent - 1075)

theorem ofBits_eq (bits : ℕ) :
    ofBits bits = ofFields (decide (2 ^ 63 ≤ bits)) (bits / 2 ^ 52 % 2 ^ 11) (bits % 2 ^ 52) := rfl

def exponentField (mantissa : ℕ) (exponent : ℤ) : ℕ :=
  if mantissa < 2 ^ 52 then 0 else (exponent + 1075).toNat

section Fields

variable {negative negative' : Bool} {mantissa e f : ℕ} {exponent : ℤ}

theorem ofFields_eq_finite (he : e < 2 ^ 11) (hf : f < 2 ^ 52)
    (h : ofFields negative' e f = .finite negative mantissa exponent) :
    IsCanonical mantissa exponent ∧ negative' = negative ∧
      e = exponentField mantissa exponent ∧ f = mantissa % 2 ^ 52 := by
  unfold ofFields at h
  unfold exponentField
  split_ifs at h with hmax hinfinite hzero
  · cases h
    refine ⟨⟨by omega, by omega, by omega, by omega⟩, rfl, ?_, by omega⟩
    rw [if_pos hf, hzero]
  · cases h
    refine ⟨⟨by omega, by omega, by omega, by omega⟩, rfl, ?_, by omega⟩
    rw [if_neg (by omega)]
    omega

theorem ofFields_eq_infinity (h : ofFields negative' e f = .infinity negative) :
    negative' = negative ∧ e = 2 ^ 11 - 1 ∧ f = 0 := by
  unfold ofFields at h
  split_ifs at h with hmax hinfinite
  cases h
  exact ⟨rfl, hmax, hinfinite⟩

theorem ofFields_of_isCanonical (negative : Bool) (h : IsCanonical mantissa exponent) :
    ofFields negative (exponentField mantissa exponent) (mantissa % 2 ^ 52) =
      .finite negative mantissa exponent := by
  obtain ⟨hlt, hmin, hmax, hnormal⟩ := h
  unfold ofFields exponentField
  by_cases hsmall : mantissa < 2 ^ 52
  · rw [if_pos hsmall, if_neg (by decide), if_pos rfl, Nat.mod_eq_of_lt hsmall]
    congr
    omega
  · rw [if_neg hsmall, if_neg (by omega), if_neg (by omega)]
    congr 1 <;> omega

end Fields

def signOf (negative : Bool) : Sign := if negative then .negative else .positive

theorem toNat_packComponents (sign : Sign) (exponent : BitVec 11) (fraction : BitVec 52) :
    (packComponents Format.binary64 sign exponent fraction).toNat =
      sign.toBitVec.toNat * 2 ^ 63 + exponent.toNat * 2 ^ 52 + fraction.toNat := by
  have hexponent := exponent.isLt
  have hfraction := fraction.isLt
  unfold packComponents
  rw [BitVec.toNat_append, BitVec.toNat_append, ← Nat.shiftLeft_add_eq_or_of_lt fraction.isLt,
    ← Nat.shiftLeft_add_eq_or_of_lt exponent.isLt, Nat.shiftLeft_eq, Nat.shiftLeft_eq]
  change (_ * 2 ^ 11 + _) * 2 ^ 52 + _ = _
  omega

theorem toNat_unpackSign (b : BitVec 64) :
    (@unpackSign Format.binary64 b).toNat = b.toNat / 2 ^ 63 := by
  have hb : b.toNat < 2 ^ 64 := b.isLt
  have hshift : (@unpackSign Format.binary64 b).toNat = b.toNat / 2 ^ 63 % 2 := by
    simp [unpackSign, Nat.shiftRight_eq_div_pow]
  omega

theorem toNat_unpackExponent (b : BitVec 64) :
    (@unpackExponent Format.binary64 b).toNat = b.toNat / 2 ^ 52 % 2 ^ 11 := by
  simp [unpackExponent, Nat.shiftRight_eq_div_pow]

theorem toNat_unpackMantissa (b : BitVec 64) :
    (@unpackMantissa Format.binary64 b).toNat = b.toNat % 2 ^ 52 := by
  simp [unpackMantissa]

def unpacked : Double → UnpackedFloat
  | .nan => .notANumber
  | .infinity negative => .infinity (signOf negative)
  | .finite negative mantissa exponent =>
    if h : mantissa = 0 then .zero (signOf negative)
    else .finite (signOf negative) mantissa exponent (Nat.pos_of_ne_zero h)

theorem ofBitVec_unpackSign (b : BitVec 64) :
    Sign.ofBitVec (@unpackSign Format.binary64 b) =
      signOf (decide (2 ^ 63 ≤ b.toNat)) := by
  have hsign := toNat_unpackSign b
  unfold Sign.ofBitVec signOf
  have hiff : @unpackSign Format.binary64 b = 0#1 ↔ ¬ 2 ^ 63 ≤ b.toNat := by
    rw [← BitVec.toNat_inj, hsign, BitVec.toNat_zero]
    omega
  simp only [hiff, decide_eq_true_eq, ite_not]

/-- A double is taken apart as its bits are read. -/
theorem unpack_eq (x : Float) : x.toModel.unpack = (Double.of x).unpacked := by
  obtain ⟨⟨⟨b⟩, hvalid⟩⟩ := x
  change UnpackedFloat.unpack Format.binary64 b = (ofBits b.toNat).unpacked
  have hmax : @unpackExponent Format.binary64 b = -1#11 ↔
      b.toNat / 2 ^ 52 % 2 ^ 11 = 2 ^ 11 - 1 := by
    rw [← toNat_unpackExponent, ← BitVec.toNat_inj]
    rfl
  have hleast : @unpackExponent Format.binary64 b = 0#11 ↔
      b.toNat / 2 ^ 52 % 2 ^ 11 = 0 := by
    rw [← toNat_unpackExponent, ← BitVec.toNat_inj]
    rfl
  have hnone : @unpackMantissa Format.binary64 b = 0#52 ↔ b.toNat % 2 ^ 52 = 0 := by
    rw [← toNat_unpackMantissa, ← BitVec.toNat_inj]
    rfl
  have hmantissa : (1#1 ++ @unpackMantissa Format.binary64 b).toNat =
      2 ^ 52 + b.toNat % 2 ^ 52 := by
    rw [BitVec.toNat_append, ← Nat.shiftLeft_add_eq_or_of_lt (BitVec.isLt _), toNat_unpackMantissa]
    rfl
  have hbias : ((Format.binary64.exponentBias : ℤ) + (52 : ℕ)) = 1075 := by decide
  simp only [UnpackedFloat.unpack, ofBits_eq, ofFields, ofBitVec_unpackSign, hmax, hleast, hnone,
    hmantissa, hbias, toNat_unpackExponent, toNat_unpackMantissa]
  by_cases hinfinite : b.toNat / 2 ^ 52 % 2 ^ 11 = 2 ^ 11 - 1
  · rw [if_pos hinfinite, if_pos hinfinite]
    by_cases hzero : b.toNat % 2 ^ 52 = 0
    · rw [if_pos hzero, if_pos hzero, unpacked]
    · rw [if_neg hzero, if_neg hzero, unpacked]
  · rw [if_neg hinfinite, if_neg hinfinite]
    by_cases hsmall : b.toNat / 2 ^ 52 % 2 ^ 11 = 0
    · simp only [hsmall, if_true, unpacked]
      rfl
    · rw [if_neg hsmall, if_neg hsmall, unpacked, dif_neg (by omega)]

section Finite

variable {negative : Bool} {mantissa : ℕ} {exponent : ℤ} {x y : Float}

theorem isCanonical_of (h : Double.of x = .finite negative mantissa exponent) :
    IsCanonical mantissa exponent :=
  (ofFields_eq_finite (Nat.mod_lt _ (by decide)) (Nat.mod_lt _ (by decide)) h).1

/-- Doubles with the same fields are the same. -/
theorem eq_of_fields_eq
    (hsign : decide (2 ^ 63 ≤ x.toBits.toNat) = decide (2 ^ 63 ≤ y.toBits.toNat))
    (hexponent : x.toBits.toNat / 2 ^ 52 % 2 ^ 11 = y.toBits.toNat / 2 ^ 52 % 2 ^ 11)
    (hmantissa : x.toBits.toNat % 2 ^ 52 = y.toBits.toNat % 2 ^ 52) : x = y := by
  obtain ⟨⟨⟨a⟩, ha⟩⟩ := x
  obtain ⟨⟨⟨b⟩, hb⟩⟩ := y
  change decide (2 ^ 63 ≤ a.toNat) = decide (2 ^ 63 ≤ b.toNat) at hsign
  change a.toNat / 2 ^ 52 % 2 ^ 11 = b.toNat / 2 ^ 52 % 2 ^ 11 at hexponent
  change a.toNat % 2 ^ 52 = b.toNat % 2 ^ 52 at hmantissa
  have hle : 2 ^ 63 ≤ a.toNat ↔ 2 ^ 63 ≤ b.toNat := decide_eq_decide.1 hsign
  have hlt := a.isLt
  have hlt' := b.isLt
  obtain rfl : a = b := BitVec.eq_of_toNat_eq (by omega)
  rfl

/-- The parts of a finite double determine it. -/
theorem eq_of_parts_eq (hx : Double.of x = .finite negative mantissa exponent)
    (hy : Double.of y = .finite negative mantissa exponent) : x = y := by
  obtain ⟨-, hsign, hexponent, hmantissa⟩ :=
    ofFields_eq_finite (Nat.mod_lt _ (by decide)) (Nat.mod_lt _ (by decide)) hx
  obtain ⟨-, hsign', hexponent', hmantissa'⟩ :=
    ofFields_eq_finite (Nat.mod_lt _ (by decide)) (Nat.mod_lt _ (by decide)) hy
  exact eq_of_fields_eq (hsign.trans hsign'.symm) (hexponent.trans hexponent'.symm)
    (hmantissa.trans hmantissa'.symm)

/-- There is one infinity of each sign. -/
theorem eq_of_infinity (hx : Double.of x = .infinity negative)
    (hy : Double.of y = .infinity negative) : x = y := by
  obtain ⟨hsign, hexponent, hmantissa⟩ := ofFields_eq_infinity hx
  obtain ⟨hsign', hexponent', hmantissa'⟩ := ofFields_eq_infinity hy
  exact eq_of_fields_eq (hsign.trans hsign'.symm) (hexponent.trans hexponent'.symm)
    (hmantissa.trans hmantissa'.symm)

theorem pack_eq (sign : Sign) (h : IsCanonical mantissa exponent) (hpos : 0 < mantissa) :
    UnpackedFloat.pack Format.binary64 (.finite sign mantissa exponent hpos) =
      packComponents Format.binary64 sign (BitVec.ofNat 11 (exponentField mantissa exponent))
        (BitVec.ofNat 52 mantissa) := by
  obtain ⟨hlt, hmin, hmax, hnormal⟩ := h
  have hbias : exponent + (Format.binary64.exponentBias : ℤ) + (52 : ℕ) = exponent + 1075 := by
    rw [show (Format.binary64.exponentBias : ℤ) = 1023 by decide]
    omega
  have hlog : mantissa.log2 + 1 = Format.binary64.mantissaBits ↔ ¬ mantissa < 2 ^ 52 := by
    rw [← Nat.log2_lt hpos.ne']
    have hle := (Nat.log2_lt hpos.ne').2 hlt
    change _ = 53 ↔ _
    omega
  unfold UnpackedFloat.pack
  simp only [hbias, hlog]
  rw [if_neg (by omega)]
  unfold exponentField
  by_cases hsmall : mantissa < 2 ^ 52
  · rw [if_neg (not_not.2 hsmall), if_pos hsmall]
  · rw [if_pos hsmall, if_neg hsmall]

theorem exponentField_lt (h : IsCanonical mantissa exponent) :
    exponentField mantissa exponent < 2 ^ 11 := by
  have hmax := h.max
  unfold exponentField
  split_ifs <;> omega

/-- A finite double is put together from its parts. -/
theorem of_pack (negative : Bool) (h : IsCanonical mantissa exponent) (hpos : 0 < mantissa) :
    Double.of (.ofModel (pack (.finite (signOf negative) mantissa exponent hpos))) =
      .finite negative mantissa exponent := by
  have hfield := exponentField_lt h
  change ofBits (UnpackedFloat.pack Format.binary64 _).toNat = _
  rw [pack_eq _ h, toNat_packComponents, BitVec.toNat_ofNat, BitVec.toNat_ofNat,
    Nat.mod_eq_of_lt hfield, ofBits_eq, ← ofFields_of_isCanonical negative h]
  have hsign : (signOf negative).toBitVec.toNat = negative.toNat := by cases negative <;> rfl
  have hle := negative.toNat_le
  rw [hsign]
  congr 1
  · cases negative with
    | false => exact decide_eq_false (by rw [Bool.toNat_false]; omega)
    | true => exact decide_eq_true (by rw [Bool.toNat_true]; omega)
  · omega
  · omega

theorem unpack_of_finite (hx : Double.of x = .finite false mantissa exponent)
    (hpos : 0 < mantissa) : x.toModel.unpack = .finite .positive mantissa exponent hpos := by
  rw [unpack_eq, hx, unpacked, dif_neg hpos.ne']
  rfl

theorem of_neg (hx : Double.of x = .finite false mantissa exponent) (hpos : 0 < mantissa) :
    Double.of (-x) = .finite true mantissa exponent := by
  have hmodel : -x = .ofModel (pack x.toModel.unpack.neg) := rfl
  rw [hmodel, unpack_of_finite hx hpos]
  exact of_pack true (isCanonical_of hx) hpos

end Finite

end Reckoner.Double
