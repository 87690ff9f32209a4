import Reckoner.Proofs.Decimal.Shortest
import Reckoner.Proofs.Decimal.Written

/-!
The text of a real is read as this real. However the digits are laid out, with zeros around the
point or with an exponent, they spell the same number, and this rounds to the real it was written
for.
-/

namespace Reckoner.Decimal

open Text Token

section Digits

variable {digits more : List Char}

theorem ofDigits_eq (h : ∀ c ∈ digits, c.isDigit = true) :
    ofDigits digits = Nat.ofDigitChars 10 digits 0 := number_eq_ofDigitChars h

theorem ofDigits_append (h : ∀ c ∈ digits, c.isDigit = true)
    (hmore : ∀ c ∈ more, c.isDigit = true) :
    ofDigits (digits ++ more) = ofDigits digits * 10 ^ more.length + ofDigits more := by
  rw [ofDigits_eq (List.forall_mem_append.2 ⟨h, hmore⟩), ofDigits_eq h, ofDigits_eq hmore,
    Nat.ofDigitChars_append, Nat.ofDigitChars_eq_ofDigitChars_zero, Nat.mul_comm]

theorem isDigit_of_mem_replicate {n : ℕ} {c : Char} (h : c ∈ List.replicate n '0') :
    c.isDigit = true := by
  rw [List.eq_of_mem_replicate h]
  rfl

theorem ofDigits_replicate (n : ℕ) : ofDigits (List.replicate n '0') = 0 := by
  rw [ofDigits_eq fun _ => isDigit_of_mem_replicate, Nat.ofDigitChars_replicate_zero, Nat.mul_zero]

theorem ofDigits_append_zeros (h : ∀ c ∈ digits, c.isDigit = true) (n : ℕ) :
    ofDigits (digits ++ List.replicate n '0') = ofDigits digits * 10 ^ n := by
  rw [ofDigits_append h fun _ => isDigit_of_mem_replicate, ofDigits_replicate,
    List.length_replicate, Nat.add_zero]

theorem ofDigits_zeros_append (n : ℕ) (h : ∀ c ∈ digits, c.isDigit = true) :
    ofDigits (List.replicate n '0' ++ digits) = ofDigits digits := by
  rw [ofDigits_append (fun _ => isDigit_of_mem_replicate) h, ofDigits_replicate, Nat.zero_mul,
    Nat.zero_add]

theorem exists_stripZeros (digits : List Char) :
    ∃ n, digits = stripZeros digits ++ List.replicate n '0' := by
  refine ⟨(digits.reverse.takeWhile (· == '0')).length, ?_⟩
  have hzeros : digits.reverse.takeWhile (· == '0') =
      List.replicate (digits.reverse.takeWhile (· == '0')).length '0' :=
    List.eq_replicate_of_mem fun c hc => by simpa using List.mem_takeWhile_imp hc
  rw [← List.reverse_replicate, ← hzeros, stripZeros, ← List.reverse_append,
    List.takeWhile_append_dropWhile, List.reverse_reverse]

end Digits

namespace Numeral

def digits (n : Numeral) : List Char := n.whole ++ n.fraction.getD []

def power (n : Numeral) : ℤ := n.exponent.getD 0 - (n.fraction.getD []).length

def value (n : Numeral) : ℚ := ofDigits n.digits * 10 ^ n.power

end Numeral

def Spells (cs : List Char) (v : ℚ) : Prop :=
  ∃ numeral, Numeral.scan cs = (numeral, []) ∧ numeral.digits ≠ [] ∧ numeral.value = v

section Spells

variable {digits whole fraction : List Char}

theorem takeWhile_digits (h : ∀ c ∈ digits, c.isDigit = true) {c : Char} (hc : c.isDigit = false)
    (more : List Char) : (digits ++ c :: more).takeWhile Char.isDigit = digits := by
  rw [List.takeWhile_append_of_pos h, List.takeWhile_cons_of_neg (by simp [hc]), List.append_nil]

theorem dropWhile_digits (h : ∀ c ∈ digits, c.isDigit = true) {c : Char} (hc : c.isDigit = false)
    (more : List Char) : (digits ++ c :: more).dropWhile Char.isDigit = c :: more := by
  rw [List.dropWhile_append_of_pos h, List.dropWhile_cons_of_neg (by simp [hc])]

/-- The digits are read up to the point and behind it. -/
theorem numeralScan_point (hwhole : ∀ c ∈ whole, c.isDigit = true)
    (hfraction : ∀ c ∈ fraction, c.isDigit = true) :
    Numeral.scan (whole ++ '.' :: fraction) = (⟨whole, some fraction, none⟩, []) := by
  have htake : fraction.takeWhile Char.isDigit = fraction := List.takeWhile_eq_self_iff.2 hfraction
  have hdrop : fraction.dropWhile Char.isDigit = [] := List.dropWhile_eq_nil_iff.2 hfraction
  simp only [Numeral.scan, takeWhile_digits hwhole (c := '.') rfl,
    dropWhile_digits hwhole (c := '.') rfl, Numeral.scanFraction, htake, hdrop,
    Numeral.scanExponent]

theorem spells_point (hwhole : ∀ c ∈ whole, c.isDigit = true)
    (hfraction : ∀ c ∈ fraction, c.isDigit = true) (hne : whole ++ fraction ≠ []) :
    Spells (whole ++ '.' :: fraction)
      (ofDigits (whole ++ fraction) * 10 ^ (-fraction.length : ℤ)) := by
  refine ⟨_, numeralScan_point hwhole hfraction, hne, ?_⟩
  simp only [Numeral.value, Numeral.digits, Numeral.power, Option.getD_some, Option.getD_none,
    zero_sub]

theorem sign_integer (i : ℤ) : sign (integer i) = (decide (i < 0), natural i.natAbs) := by
  obtain ⟨d, more, hcons⟩ := List.exists_cons_of_ne_nil
    (Nat.toDigits_ne_nil (n := i.natAbs) (b := 10))
  have hd : d.isDigit = true :=
    isDigit_of_mem_natural (n := i.natAbs) (by rw [natural, hcons]; exact List.mem_cons_self ..)
  rw [integer_eq, natural, hcons]
  exact sign_signed _ (isSign_eq_false_of_isDigit hd) more

/-- With its sign, the magnitude of an integer is the integer. -/
theorem signed_ofDigits_natural (i : ℤ) :
    (if decide (i < 0) = true then -(ofDigits (natural i.natAbs) : ℤ)
      else ofDigits (natural i.natAbs)) = i := by
  rw [ofDigits, number_natural]
  split_ifs with hneg
  · have := of_decide_eq_true hneg
    omega
  · have := of_decide_eq_false (Bool.eq_false_of_not_eq_true hneg)
    omega

theorem scanExponent_integer (exponent : ℤ) :
    Numeral.scanExponent ('e' :: integer exponent) = (some exponent, []) := by
  have hdigits : ∀ c ∈ natural exponent.natAbs, c.isDigit = true :=
    fun c hc => isDigit_of_mem_natural hc
  have htake := List.takeWhile_eq_self_iff.2 hdigits
  have hdrop := List.dropWhile_eq_nil_iff.2 hdigits
  have hne : natural exponent.natAbs ≠ [] := Nat.toDigits_ne_nil
  simp only [Numeral.scanExponent, true_or, if_true, sign_integer, htake, hdrop, if_neg hne,
    signed_ofDigits_natural]

/-- One digit, the others behind a point and a power of ten. -/
theorem spells_scientific (h : ∀ c ∈ digits, c.isDigit = true) (hne : digits ≠ [])
    (exponent : ℤ) :
    Spells (Layout.scientific digits exponent)
      (ofDigits digits * 10 ^ (exponent + 1 - digits.length)) := by
  obtain ⟨d, more, rfl⟩ := List.exists_cons_of_ne_nil hne
  obtain ⟨hd, hmore⟩ := List.forall_mem_cons.1 h
  have hone : ∀ c ∈ [d], c.isDigit = true := List.forall_mem_singleton.2 hd
  cases more with
  | nil =>
    refine ⟨⟨[d], none, some exponent⟩, ?_, by simp [Numeral.digits], ?_⟩
    · have hpoint : Numeral.scanFraction ('e' :: integer exponent) =
          (none, 'e' :: integer exponent) := rfl
      change Numeral.scan ([d] ++ 'e' :: integer exponent) = _
      simp only [Numeral.scan, takeWhile_digits hone (c := 'e') rfl,
        dropWhile_digits hone (c := 'e') rfl, hpoint, scanExponent_integer]
    · simp [Numeral.value, Numeral.digits, Numeral.power]
  | cons d' more =>
    refine ⟨⟨[d], some (d' :: more), some exponent⟩, ?_, by simp [Numeral.digits], ?_⟩
    · change Numeral.scan ([d] ++ '.' :: ((d' :: more) ++ 'e' :: integer exponent)) = _
      simp only [Numeral.scan, takeWhile_digits hone (c := '.') rfl,
        dropWhile_digits hone (c := '.') rfl, Numeral.scanFraction,
        takeWhile_digits hmore (c := 'e') rfl, dropWhile_digits hmore (c := 'e') rfl,
        scanExponent_integer]
    · simp only [Numeral.value, Numeral.digits, Numeral.power, Option.getD_some, List.length_cons,
        List.singleton_append]
      congr 2
      push_cast
      ring

theorem spells_digits (h : ∀ c ∈ digits, c.isDigit = true) (hne : digits ≠ []) :
    Spells digits (ofDigits digits) := by
  refine ⟨_, Token.numeralScan_of_forall h, by simpa [Numeral.digits] using hne, ?_⟩
  simp [Numeral.value, Numeral.digits, Numeral.power]

/-- A point with a zero behind it may be left out. -/
theorem spells_kept (h : ∀ c ∈ digits, c.isDigit = true) (hne : digits ≠ []) (kept : Bool) :
    Spells (digits ++ if kept then ['.', '0'] else []) (ofDigits digits) := by
  cases kept with
  | false =>
    rw [if_neg Bool.false_ne_true, List.append_nil]
    exact spells_digits h hne
  | true =>
    have hzero : ∀ c ∈ ['0'], c.isDigit = true := by simp
    have hspells := spells_point h hzero (by simp)
    have hvalue : (ofDigits (digits ++ ['0']) * 10 ^ (-['0'].length : ℤ) : ℚ) =
        ofDigits digits := by
      rw [show ofDigits (digits ++ ['0']) = ofDigits digits * 10 ^ 1 from
        ofDigits_append_zeros h 1]
      rw [List.length_singleton, Nat.cast_one, zpow_neg_one, pow_one, Nat.cast_mul, Nat.cast_ofNat,
        mul_inv_cancel_right₀ (by norm_num)]
    rwa [hvalue] at hspells

/-- The digits with the point among them, or with zeros up to it. -/
theorem spells_place (layout : Layout) (h : ∀ c ∈ digits, c.isDigit = true) (hne : digits ≠ [])
    (point : ℤ) :
    Spells (layout.place digits point) (ofDigits digits * 10 ^ (point - digits.length)) := by
  have hzero : ∀ c ∈ ['0'], c.isDigit = true := by simp
  unfold Layout.place
  split
  · next hpoint =>
    have hfraction : ∀ c ∈ List.replicate (-point).toNat '0' ++ digits, c.isDigit = true :=
      List.forall_mem_append.2 ⟨fun _ => isDigit_of_mem_replicate, h⟩
    have hspells := spells_point hzero hfraction (by simp)
    have hdigits : ofDigits (['0'] ++ (List.replicate (-point).toNat '0' ++ digits)) =
        ofDigits digits := ofDigits_zeros_append ((-point).toNat + 1) h
    have hpower : (-(List.replicate (-point).toNat '0' ++ digits).length : ℤ) =
        point - digits.length := by
      rw [List.length_append, List.length_replicate]
      omega
    rwa [hdigits, hpower] at hspells
  · next hpoint =>
    split
    · next hle =>
      have hwhole : ∀ c ∈ digits ++ List.replicate (point.toNat - digits.length) '0',
          c.isDigit = true := List.forall_mem_append.2 ⟨h, fun _ => isDigit_of_mem_replicate⟩
      have hspells := spells_kept hwhole (by simp [hne]) layout.keepsPoint
      have hvalue : (ofDigits digits * 10 ^ (point - digits.length) : ℚ) =
          (ofDigits digits * 10 ^ (point.toNat - digits.length) : ℕ) := by
        push_cast
        rw [← zpow_natCast]
        congr 2
        omega
      rwa [hvalue, ← ofDigits_append_zeros h]
    · next hlt =>
      have hfront : ∀ c ∈ digits.take point.toNat, c.isDigit = true :=
        fun c hc => h c (List.mem_of_mem_take hc)
      have hback : ∀ c ∈ digits.drop point.toNat, c.isDigit = true :=
        fun c hc => h c (List.mem_of_mem_drop hc)
      have hspells := spells_point hfront hback (by rwa [List.take_append_drop])
      have hpower : (-(digits.drop point.toNat).length : ℤ) = point - digits.length := by
        rw [List.length_drop]
        omega
      rwa [List.take_append_drop, hpower] at hspells

end Spells

section Render

variable {mantissa : ℕ} {exponent : ℤ} {r : Float}

/-- The zeros at the end are left out, and the power of ten makes up for them. -/
theorem spells_magnitude (layout : Layout) (hm : Double.IsCanonical mantissa exponent)
    (hpos : 0 < mantissa) :
    Spells (layout.magnitude mantissa exponent)
      (Binary.ofParts mantissa exponent).shortest.value := by
  have hrounds : Double.RoundsTo (Binary.ofParts mantissa exponent).shortest.value mantissa
      exponent := Binary.roundsTo_shortest hpos
  have hnonzero := Double.digits_ne_zero hrounds hm hpos
  simp only [Layout.magnitude, if_neg hpos.ne']
  generalize (Binary.ofParts mantissa exponent).shortest = d at *
  obtain ⟨zeros, hzeros⟩ := exists_stripZeros (natural d.digits)
  generalize stripZeros (natural d.digits) = digits at *
  have hall : ∀ c ∈ digits, c.isDigit = true := fun c hc =>
    isDigit_of_mem_natural (n := d.digits) (by rw [hzeros]; exact List.mem_append_left _ hc)
  have hnumber : d.digits = ofDigits digits * 10 ^ zeros := by
    rw [← ofDigits_append_zeros hall, ← hzeros]
    exact (number_natural _).symm
  have hne : digits ≠ [] := by
    rintro rfl
    exact hnonzero (by rw [hnumber]; exact Nat.zero_mul _)
  have hlength : (natural d.digits).length = digits.length + zeros := by
    rw [hzeros, List.length_append, List.length_replicate]
  have hvalue : (ofDigits digits * 10 ^ (d.exponent + (natural d.digits).length - digits.length) :
      ℚ) = d.value := by
    rw [hlength, Scaled.value, hnumber]
    push_cast
    rw [mul_assoc, ← zpow_natCast, ← zpow_add₀ (by norm_num)]
    congr 2
    omega
  rw [← hvalue]
  split
  · have hspells := spells_scientific hall hne (d.exponent + (natural d.digits).length - 1)
    rwa [sub_add_cancel] at hspells
  · exact spells_place layout hall hne _

/-- What is scanned as a numeral begins with a digit or a point. -/
theorem exists_cons_of_scan {body : List Char} {numeral : Numeral}
    (hscan : Numeral.scan body = (numeral, [])) (hne : numeral.digits ≠ []) :
    ∃ c more, body = c :: more ∧ isNumeral c = true ∧ isSign c = false := by
  cases body with
  | nil =>
    rw [Numeral.scan] at hscan
    cases hscan
    exact absurd rfl hne
  | cons c more =>
    refine ⟨c, more, rfl, ?_⟩
    by_cases hdigit : c.isDigit = true
    · exact ⟨isNumeral_of_isDigit hdigit, isSign_eq_false_of_isDigit hdigit⟩
    · by_cases hpoint : c = '.'
      · rw [hpoint]
        exact ⟨rfl, rfl⟩
      · have hfraction : Numeral.scanFraction (c :: more) = (none, c :: more) := by
          simp [Numeral.scanFraction, hpoint]
        simp only [Numeral.scan, List.takeWhile_cons_of_neg hdigit,
          List.dropWhile_cons_of_neg hdigit, hfraction, Prod.mk.injEq] at hscan
        rw [← hscan.1] at hne
        exact absurd rfl hne

/-- A number with its sign is read as a real with this sign. -/
theorem readReal_signed {body : List Char} {numeral : Numeral}
    (hscan : Numeral.scan body = (numeral, [])) (hne : numeral.digits ≠ []) (negative : Bool) :
    readReal (Layout.render.signed negative body) =
      some (if negative then
          -Float.ofScientific (ofDigits numeral.digits) (decide (numeral.power < 0))
            numeral.power.natAbs
        else Float.ofScientific (ofDigits numeral.digits) (decide (numeral.power < 0))
          numeral.power.natAbs) := by
  obtain ⟨c, more, rfl, hnumeral, hsign⟩ := exists_cons_of_scan hscan hne
  simp only [readReal, sign_signed negative hsign, word?_eq_none hnumeral, hscan, if_true]
  exact if_neg hne

/-- A zero keeps its sign. -/
theorem exists_readReal_zero (layout : Layout) (exponent : ℤ) (negative : Bool) :
    ∃ zero, readReal (Layout.render.signed negative (layout.magnitude 0 exponent)) = some zero ∧
      Double.of zero = .finite negative 0 (-1074) := by
  rw [Layout.magnitude, if_pos rfl]
  cases layout.keepsPoint with
  | true =>
    cases negative with
    | false => exact ⟨Float.ofScientific 0 true 1, rfl, by decide⟩
    | true => exact ⟨-Float.ofScientific 0 true 1, rfl, by decide⟩
  | false =>
    cases negative with
    | false => exact ⟨Float.ofScientific 0 false 0, rfl, by decide⟩
    | true => exact ⟨-Float.ofScientific 0 false 0, rfl, by decide⟩

/-- What is written for a finite real is read as this real, however it is laid out. -/
theorem readReal_render (layout : Layout) (h : (Double.of r).IsFinite) :
    readReal (layout.render r) = some r := by
  obtain ⟨negative, mantissa, exponent, hr⟩ := h
  have hm := Double.isCanonical_of hr
  have hrender : layout.render r =
      Layout.render.signed negative (layout.magnitude mantissa exponent) := by
    rw [Layout.render, hr]
  rw [hrender]
  obtain rfl | hpos := Nat.eq_zero_or_pos mantissa
  · obtain ⟨zero, hread, hzero⟩ := exists_readReal_zero layout exponent negative
    obtain rfl : exponent = -1074 := hm.normal.resolve_right (by decide)
    exact hread.trans (congrArg some (Double.eq_of_parts_eq hzero hr))
  · obtain ⟨numeral, hscan, hne, hvalue⟩ := spells_magnitude layout hm hpos
    rw [readReal_signed hscan hne]
    have hrounds : Double.RoundsTo (Binary.ofParts mantissa exponent).shortest.value mantissa
        exponent := Binary.roundsTo_shortest hpos
    rw [← hvalue] at hrounds
    have hread := Double.of_ofScientific hm hpos hrounds
    cases negative with
    | false => exact congrArg some (Double.eq_of_parts_eq hread hr)
    | true => exact congrArg some (Double.eq_of_parts_eq (Double.of_neg hread hpos) hr)

end Render

end Reckoner.Decimal
