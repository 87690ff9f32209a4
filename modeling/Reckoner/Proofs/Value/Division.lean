import Mathlib
import Reckoner.Machine.Run

/-!
Division by zero. An integer is divided by the integer zero in reals. Whether this is so is decided
by the kind of the divisor, before it is read as an integer: a boolean or a string that reads as
zero is divided by in integers, and that is refused. Nothing else but remainders refuses a zero.
-/

namespace Reckoner

namespace Double

open Float.Model

theorem isInf_pack (sign : UnpackedFloat.Sign) : (pack (.infinity sign)).isInf := by
  cases sign <;> rfl

/-- No division by zero has a finite result. -/
theorem isInf_or_isNaN_div_zero (x : Float) :
    (x / ofInteger 0).isInf ∨ (x / ofInteger 0).isNaN := by
  have hzero : (ofInteger 0).toModel.unpack = .zero .positive := rfl
  have hquotient : (x / ofInteger 0).toModel =
      pack (UnpackedFloat.div Format.binary64 x.toModel.unpack (.zero .positive)) :=
    congrArg (fun y => pack (UnpackedFloat.div Format.binary64 x.toModel.unpack y)) hzero
  rw [Float.isInf, Float.isNaN, hquotient]
  cases x.toModel.unpack with
  | notANumber => exact .inr rfl
  | zero sign =>
    simp only [UnpackedFloat.div]
    exact .inr rfl
  | infinity sign =>
    simp only [UnpackedFloat.div]
    exact .inl (isInf_pack _)
  | finite sign mantissa exponent h =>
    simp only [UnpackedFloat.div]
    exact .inl (isInf_pack _)

end Double

namespace Value

variable {op : Operator} {l r v : Value}

/-- Quotients are truncated, and wrap around. -/
theorem div_eq_tdiv (i j : Int64) : i / j = Int64.ofInt (i.toInt.tdiv j.toInt) := by
  rw [← Int64.toInt_inj, Int64.toInt_div, Int64.toInt_ofInt]

theorem booleanBinary_ne_numeric (op : Operator) (b c : Bool) (cause : NumericError) :
    booleanBinary op b c ≠ .error (.numeric cause) := by
  unfold booleanBinary
  split <;> nofun

theorem stringBinary_ne_numeric (op : Operator) (s t : String) (cause : NumericError) :
    stringBinary op s t ≠ .error (.numeric cause) := by
  unfold stringBinary
  split <;> nofun

theorem map_eq_error {α β : Type} {result : Except Error α} {f : α → β} {error : Error}
    (h : result.map f = .error error) : result = .error error := by
  cases result with
  | error e => exact congrArg Except.error (Except.error.inj h)
  | ok a => cases h

theorem integerPower_ne_divideByZero (i j : Int64) :
    integerPower i j ≠ .error (.numeric .divideByZero) := by
  simp only [integerPower]
  split_ifs <;> nofun

theorem realPower_ne_divideByZero (x y : Float) :
    realPower x y ≠ .error (.numeric .divideByZero) := by
  simp only [realPower]
  repeat' split
  all_goals nofun

theorem shift_ne_numeric (i j : Int64) (shifted : Int64 → Int64 → Int64) (cause : NumericError) :
    shift i j shifted ≠ .error (.numeric cause) := by
  unfold shift
  split <;> nofun

theorem integerBinary_eq_divideByZero {i j : Int64}
    (h : integerBinary op i j = .error (.numeric .divideByZero)) :
    op = .modulus ∨ op = .divide ∧ j = 0 := by
  cases op with
  | modulus => exact .inl rfl
  | divide =>
    rw [integerBinary] at h
    split at h
    · next hzero => exact .inr ⟨rfl, hzero⟩
    · cases h
  | power => exact absurd (map_eq_error h) (integerPower_ne_divideByZero i j)
  | shiftLeft | shiftRight => exact absurd h (shift_ne_numeric i j _ _)
  | _ => cases h

theorem realBinary_eq_divideByZero {x y : Float}
    (h : realBinary op x y = .error (.numeric .divideByZero)) : op = .modulus := by
  cases op with
  | modulus => rfl
  | power => exact absurd (map_eq_error h) (realPower_ne_divideByZero x y)
  | _ => cases h

/-- Operators find a zero divisor only for integers, and in remainders. -/
theorem binary_eq_divideByZero (h : binary op l r = .error (.numeric .divideByZero)) :
    op = .modulus ∨ op = .divide ∧ ∃ i, l = integer i ∧ r.toInteger? = some 0 := by
  unfold binary at h
  split at h
  · split at h
    · exact absurd h (booleanBinary_ne_numeric _ _ _ _)
    · cases h
  · split at h
    · next i _ j hread =>
      refine (integerBinary_eq_divideByZero h).imp id fun ⟨hop, hzero⟩ => ⟨hop, i, rfl, ?_⟩
      rw [hread, hzero]
    · cases h
  · split at h
    · exact .inl (realBinary_eq_divideByZero h)
    · cases h
  · split at h
    · exact absurd h (stringBinary_ne_numeric _ _ _ _)
    · cases h
  · cases h

end Value

namespace Machine

open Value

variable {op : Operator} {l r v : Value} {i j : Int64}

/-- An integer is divided in reals by reals, and by the integer zero. -/
theorem promotion_divide (i : Int64) (v : Value) :
    promotion .divide (integer i) v =
      if v.isReal ∨ v.isInteger ∧ v.toInteger? = some 0 then some { real := true } else none := by
  cases v with
  | integer k =>
    by_cases hzero : k = 0
    · subst hzero
      rfl
    · simp only [promotion, arithmetic, Bool.not_true, isString, Bool.or_self, Bool.false_eq_true,
        ↓reduceIte, isReal, isInteger, toInteger?, Option.some.injEq, hzero, and_false, or_self]
      split
      · next heq => exact absurd (integer.inj heq) hzero
      · rfl
  | boolean | real | string | null => rfl

/-- Whatever is converted for a division becomes a real. -/
theorem isReal_of_promotion_divide {kinds : Kinds} {w : Value}
    (h : promotion .divide l r = some kinds) (hconvert : l.convert kinds = some w) :
    w.isReal := by
  have hkinds : kinds = { real := true } := by
    simp only [promotion] at h
    split at h
    · cases h
    · split at h
      · exact (Option.some.inj h).symm
      · split at h <;> cases h
        rfl
  subst hkinds
  cases l with
  | boolean b => cases hconvert; rfl
  | integer i => cases hconvert; rfl
  | real x => cases hconvert; rfl
  | string s =>
    obtain ⟨x, -, rfl⟩ := Option.map_eq_some_iff.1 hconvert
    rfl
  | null => cases hconvert

/-- What is no real, nor the integer zero, is read as an integer. -/
theorem applyBinary_divide_of_none (hpromotion : promotion .divide (integer i) v = none)
    (hread : v.toInteger? = some j) :
    applyBinary .divide (integer i) v = integerBinary .divide i j := by
  simp only [applyBinary, hpromotion, Value.binary, hread]

/-- An integer divided by what reads as another number is divided in integers. -/
theorem applyBinary_divide_of_ne_zero (hreal : v.isReal = false) (hread : v.toInteger? = some j)
    (hj : j ≠ 0) : applyBinary .divide (integer i) v =
      .ok (integer (Int64.ofInt (i.toInt.tdiv j.toInt))) := by
  have hpromotion : promotion .divide (integer i) v = none := by
    simp [promotion_divide, hreal, hread, hj]
  rw [applyBinary_divide_of_none hpromotion hread, integerBinary, if_neg hj, div_eq_tdiv]

theorem applyBinary_divide_zero (i : Int64) : applyBinary .divide (integer i) (integer 0) =
    .ok (real (Double.ofInteger i / Double.ofInteger 0)) := rfl

/-- What only reads as zero is found out too late. -/
theorem applyBinary_divide_of_reads_zero (hreal : v.isReal = false) (hinteger : v.isInteger = false)
    (hread : v.toInteger? = some 0) :
    applyBinary .divide (integer i) v = .error (.numeric .divideByZero) := by
  have hpromotion : promotion .divide (integer i) v = none := by
    simp [promotion_divide, hreal, hinteger]
  rw [applyBinary_divide_of_none hpromotion hread, integerBinary, if_pos rfl]

/-- Other than remainders, only divisions of an integer by what is no number and reads as zero are
refused for a zero divisor. -/
theorem applyBinary_eq_divideByZero
    (h : applyBinary op l r = .error (.numeric .divideByZero)) :
    op = .modulus ∨ op = .divide ∧ ∃ i, l = integer i ∧ r.isReal = false ∧ r.isInteger = false ∧
      r.toInteger? = some 0 := by
  cases hpromotion : promotion op l r with
  | none =>
    simp only [applyBinary, hpromotion] at h
    refine (binary_eq_divideByZero h).imp id ?_
    rintro ⟨rfl, i, rfl, hread⟩
    rw [promotion_divide] at hpromotion
    refine ⟨rfl, i, rfl, ?_⟩
    simpa [hread] using hpromotion
  | some kinds =>
    simp only [applyBinary, hpromotion] at h
    split at h
    · next l' r' hl _ =>
      refine (binary_eq_divideByZero h).imp id ?_
      rintro ⟨rfl, i, rfl, -⟩
      cases isReal_of_promotion_divide hpromotion hl
    · cases h

end Machine

end Reckoner
