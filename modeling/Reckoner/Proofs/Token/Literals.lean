import Mathlib
import Reckoner.Proofs.Decimal.Written
import Reckoner.Proofs.Text.Offset
import Reckoner.Proofs.Token.Bytes

/-!
What numeric literals denote. How literals are written is said here without reading them, and the
reader is then shown to find the longest literal at the front of a text, with its number.
-/

namespace Reckoner

open Text Decimal Token

namespace Literal

inductive Signs : Bool → List Char → Prop where
  | none : Signs false []
  | plus : Signs false ['+']
  | minus : Signs true ['-']

inductive Fraction : Option (List Char) → List Char → Prop where
  | none : Fraction none []
  | some {digits : List Char} (hdigits : ∀ c ∈ digits, c.isDigit = true) :
      Fraction (some digits) ('.' :: digits)

inductive Exponent : Option Int → List Char → Prop where
  | none : Exponent none []
  | some {e : Char} {negative : Bool} {signs digits : List Char} (he : e = 'e' ∨ e = 'E')
      (hsigns : Signs negative signs) (hne : digits ≠ [])
      (hdigits : ∀ c ∈ digits, c.isDigit = true) :
      Exponent
        (some (if negative then -(Decimal.ofDigits digits : Int) else Decimal.ofDigits digits))
        (e :: (signs ++ digits))

def IsEnding (letters : List Char) : Prop :=
  letters = [] ∨ ∃ c, isSuffix c = true ∧ letters = [c]

def ofMagnitude (negative : Bool) (n : Nat) : Literal :=
  if (n : Int) ≤ Int64.maxValue.toInt then
    integer (Int64.ofInt (if negative then -(n : Int) else n))
  else
    let x := Float.ofScientific n false 0
    real (if negative then -x else x)

/-- A literal behind its sign: how it is written, and what it is read as. Octal digits too large for
an integer are read in base ten, which is another number. -/
inductive Spells (negative : Bool) : List Char → Literal → Prop where
  | hex {x : Char} {digits : List Char} (hx : x = 'x' ∨ x = 'X') (hne : digits ≠ [])
      (hdigits : ∀ c ∈ digits, Escape.isHex c = true) (hfits : Escape.number 16 digits < 2 ^ 64) :
      Spells negative ('0' :: x :: digits) (integer (Int64.ofInt
        (if negative then -(Escape.number 16 digits : Int) else Escape.number 16 digits)))
  | octal {digits letters : List Char} (hne : digits ≠ [])
      (hdigits : ∀ c ∈ digits, Escape.isOctal c = true) (hletters : IsEnding letters) :
      Spells negative ('0' :: digits ++ letters) (ofMagnitude negative
        (if (Escape.number 8 digits : Int) ≤ Int64.maxValue.toInt then Escape.number 8 digits
          else Decimal.ofDigits digits))
  | decimal {digits letters : List Char} (hne : digits ≠ [])
      (hdigits : ∀ c ∈ digits, c.isDigit = true) (hoctal : isOctal digits = false)
      (hletters : IsEnding letters) :
      Spells negative (digits ++ letters) (ofMagnitude negative (Decimal.ofDigits digits))
  | real {whole f e : List Char} {fraction : Option (List Char)} {exponent : Option Int}
      {r : Float} (hwhole : ∀ c ∈ whole, c.isDigit = true) (hfraction : Fraction fraction f)
      (hexponent : Exponent exponent e) (hreal : (Numeral.mk whole fraction exponent).isReal)
      (hvalue : (Numeral.mk whole fraction exponent).toReal? negative = some r) :
      Spells negative (whole ++ f ++ e) (real r)

def IsLexeme (cs : List Char) : Prop :=
  ∃ negative signs body literal, Signs negative signs ∧ Spells negative body literal ∧
    cs = signs ++ body

theorem signs_of_sign (cs : List Char) :
    ∃ signs, Signs (sign cs).1 signs ∧ cs = signs ++ (sign cs).2 := by
  fun_cases sign cs with
  | case1 cs => exact ⟨_, .minus, rfl⟩
  | case2 cs => exact ⟨_, .plus, rfl⟩
  | case3 => exact ⟨_, .none, rfl⟩

theorem sign_append {negative : Bool} {signs : List Char} (h : Signs negative signs) {c : Char}
    (hc : isSign c = false) (cs : List Char) : sign (signs ++ c :: cs) = (negative, c :: cs) := by
  cases h with
  | none => exact sign_signed false hc cs
  | plus => rfl
  | minus => rfl

theorem fraction_of_scanFraction (cs : List Char) :
    ∃ f, Fraction (Numeral.scanFraction cs).1 f ∧ cs = f ++ (Numeral.scanFraction cs).2 := by
  fun_cases Numeral.scanFraction cs with
  | case1 cs =>
    refine ⟨_, .some fun c hc => List.mem_takeWhile_imp hc, ?_⟩
    rw [List.cons_append, List.takeWhile_append_dropWhile]
  | case2 => exact ⟨[], .none, rfl⟩

theorem exponent_of_scanExponent (cs : List Char) :
    ∃ e, Exponent (Numeral.scanExponent cs).1 e ∧ cs = e ++ (Numeral.scanExponent cs).2 := by
  fun_cases Numeral.scanExponent cs with
  | case1 | case2 | case4 => exact ⟨[], .none, rfl⟩
  | case3 c rest hc digits hne =>
    obtain ⟨signs, hsigns, hrest⟩ := signs_of_sign rest
    refine ⟨_, .some hc hsigns hne fun c hc => List.mem_takeWhile_imp hc, ?_⟩
    rw [List.cons_append, List.append_assoc, List.takeWhile_append_dropWhile, ← hrest]

theorem ending_of_afterSuffix (cs : List Char) :
    ∃ letters, IsEnding letters ∧ cs = letters ++ afterSuffix cs := by
  fun_cases afterSuffix cs with
  | case1 => exact ⟨[], .inl rfl, rfl⟩
  | case2 c cs hc => exact ⟨[c], .inr ⟨c, hc, rfl⟩, rfl⟩
  | case3 c cs => exact ⟨[], .inl rfl, rfl⟩

theorem number_zero_cons (base : Nat) (digits : List Char) :
    Escape.number base ('0' :: digits) = Escape.number base digits := by
  simp [Escape.number, Escape.digitValue]

theorem number_le_number {base base' : Nat} (h : base ≤ base') (digits : List Char) :
    Escape.number base digits ≤ Escape.number base' digits := by
  have hfold (digits : List Char) : ∀ m n, m ≤ n →
      digits.foldl (fun n c => n * base + Escape.digitValue c) m ≤
        digits.foldl (fun n c => n * base' + Escape.digitValue c) n := by
    induction digits with
    | nil => exact fun m n hmn => hmn
    | cons c digits ih =>
      exact fun m n hmn => ih _ _ (Nat.add_le_add_right (Nat.mul_le_mul hmn h) _)
  exact hfold digits 0 0 le_rfl

theorem lt_half_iff (n : Nat) : n < Int64.size / 2 ↔ (n : Int) ≤ Int64.maxValue.toInt := by
  have hsize : Int64.size / 2 = 2 ^ 63 := by decide
  have hmax : Int64.maxValue.toInt = 2 ^ 63 - 1 := by decide
  rw [hsize, hmax]
  omega

theorem neg_ofInt (negative : Bool) (n : Nat) :
    (if negative then -Int64.ofInt n else Int64.ofInt n) =
      Int64.ofInt (if negative then -(n : Int) else n) := by
  cases negative with
  | true => exact (Int64.ofInt_neg _).symm
  | false => rfl

/-- Hexadecimal digits are read as 64 bits, with the sign. -/
theorem ofHex?_eq (negative : Bool) (digits : List Char) : ofHex? negative digits =
    if Escape.number 16 digits < 2 ^ 64 then
      some (integer (Int64.ofInt
        (if negative then -(Escape.number 16 digits : Int) else Escape.number 16 digits)))
    else none := by
  simp only [ofHex?, neg_ofInt]
  rfl

/-- Digits other than octal ones are read as what they spell. -/
theorem ofDigits_eq_ofMagnitude {digits : List Char} (h : isOctal digits = false)
    (negative : Bool) :
    ofDigits negative digits = ofMagnitude negative (Decimal.ofDigits digits) := by
  simp only [ofDigits, ofMagnitude, h, Bool.false_eq_true, if_false, lt_half_iff, neg_ofInt,
    Decimal.ofDigits]
  rfl

theorem isOctal_eq_true {digits : List Char} : isOctal digits = true ↔
    ∃ more, digits = '0' :: more ∧ more ≠ [] ∧ ∀ c ∈ more, Escape.isOctal c = true := by
  constructor
  · intro h
    unfold isOctal at h
    split at h
    · next d ds => exact ⟨_, rfl, List.cons_ne_nil d ds, List.all_eq_true.1 h⟩
    · cases h
  · rintro ⟨more, rfl, hne, hmore⟩
    obtain ⟨d, ds, rfl⟩ := List.exists_cons_of_ne_nil hne
    exact List.all_eq_true.2 hmore

/-- Octal digits are, unless they spell too large a number. -/
theorem ofDigits_octal {digits : List Char} (hne : digits ≠ [])
    (h : ∀ c ∈ digits, Escape.isOctal c = true) (negative : Bool) :
    ofDigits negative ('0' :: digits) = ofMagnitude negative
      (if (Escape.number 8 digits : Int) ≤ Int64.maxValue.toInt then Escape.number 8 digits
        else Decimal.ofDigits digits) := by
  have hoctal : isOctal ('0' :: digits) = true := isOctal_eq_true.2 ⟨digits, rfl, hne, h⟩
  simp only [ofDigits, hoctal, if_true, Decimal.ofDigits, number_zero_cons, lt_half_iff, neg_ofInt]
  by_cases hsmall : (Escape.number 8 digits : Int) ≤ Int64.maxValue.toInt
  · simp only [hsmall, if_true, ofMagnitude]
  · have hle := number_le_number (show 8 ≤ 10 by decide) digits
    have hlarge : ¬ (Escape.number 10 digits : Int) ≤ Int64.maxValue.toInt := by omega
    simp only [hsmall, if_false, ofMagnitude, hlarge]

/-- Digits and what may stand behind them are spelled. -/
theorem spells_ofDigits {digits letters : List Char} (hne : digits ≠ [])
    (hdigits : ∀ c ∈ digits, c.isDigit = true) (hletters : IsEnding letters) (negative : Bool) :
    Spells negative (digits ++ letters) (ofDigits negative digits) := by
  cases hoctal : isOctal digits with
  | false =>
    rw [ofDigits_eq_ofMagnitude hoctal]
    exact .decimal hne hdigits hoctal hletters
  | true =>
    obtain ⟨more, rfl, hmore, hall⟩ := isOctal_eq_true.1 hoctal
    rw [ofDigits_octal hmore hall]
    exact .octal hmore hall hletters

/-- A numeral is written in its three parts. -/
theorem exists_numeral_of_scan (cs : List Char) :
    ∃ whole f e fraction exponent, (∀ c ∈ whole, c.isDigit = true) ∧ Fraction fraction f ∧
      Exponent exponent e ∧ Numeral.scan cs = (⟨whole, fraction, exponent⟩, (Numeral.scan cs).2) ∧
      cs = whole ++ f ++ e ++ (Numeral.scan cs).2 := by
  obtain ⟨f, hf, hfraction⟩ := fraction_of_scanFraction (cs.dropWhile Char.isDigit)
  obtain ⟨e, he, hexponent⟩ :=
    exponent_of_scanExponent (Numeral.scanFraction (cs.dropWhile Char.isDigit)).2
  refine ⟨cs.takeWhile Char.isDigit, f, e, _, _, fun c hc => List.mem_takeWhile_imp hc, hf, he,
    rfl, ?_⟩
  calc cs = cs.takeWhile Char.isDigit ++ cs.dropWhile Char.isDigit :=
        List.takeWhile_append_dropWhile.symm
    _ = cs.takeWhile Char.isDigit ++ (f ++ (e ++ (Numeral.scan cs).2)) := by
        rw [hfraction, hexponent]
        rfl
    _ = cs.takeWhile Char.isDigit ++ f ++ e ++ (Numeral.scan cs).2 := by
        simp only [List.append_assoc]

theorem exists_spells_of_hexDigits? {negative : Bool} {cs digits rest : List Char}
    {literal : Literal} (hhex : hexDigits? cs = some (digits, rest))
    (hread : ofHex? negative digits = some literal) :
    ∃ body, cs = body ++ rest ∧ Spells negative body literal := by
  obtain ⟨x, c, more, rfl, ⟨hx, hc⟩, rfl, rfl⟩ := hexDigits?_eq_some.1 hhex
  refine ⟨'0' :: x :: (c :: more).takeWhile Escape.isHex, ?_, ?_⟩
  · simp only [List.cons_append, List.takeWhile_append_dropWhile]
  · rw [ofHex?_eq] at hread
    split at hread
    · next hfits =>
      rw [← Option.some.inj hread]
      refine .hex hx ?_ (fun c hc => List.mem_takeWhile_imp hc) hfits
      rw [List.takeWhile_cons_of_pos hc]
      exact List.cons_ne_nil _ _
    · cases hread

theorem exists_spells_of_decimal? {negative : Bool} {cs rest : List Char} {literal : Literal}
    (h : decimal? negative cs = some (literal, rest)) :
    ∃ body, cs = body ++ rest ∧ Spells negative body literal := by
  obtain ⟨whole, f, e, fraction, exponent, hwhole, hf, he, hscan, hsplit⟩ :=
    exists_numeral_of_scan cs
  simp only [decimal?] at h
  rw [hscan] at h
  dsimp only at h
  split at h
  · next hreal =>
    obtain ⟨r, hvalue, heq⟩ := Option.map_eq_some_iff.1 h
    obtain ⟨rfl, rfl⟩ := Prod.mk.inj heq
    exact ⟨_, hsplit, .real hwhole hf he hreal hvalue⟩
  · next hreal =>
    split at h
    · cases h
    · next hne =>
      obtain ⟨rfl, rfl⟩ := Prod.mk.inj (Option.some.inj h)
      obtain ⟨letters, hletters, hrest⟩ := ending_of_afterSuffix (Numeral.scan cs).2
      refine ⟨whole ++ letters, ?_, spells_ofDigits hne hwhole hletters negative⟩
      simp only [Numeral.isReal, Bool.or_eq_true, not_or, Option.not_isSome_iff_eq_none] at hreal
      obtain ⟨rfl, rfl⟩ := hreal
      cases hf
      cases he
      rw [List.append_assoc, ← hrest]
      simpa using hsplit

/-- What is read behind a sign is spelled there. -/
theorem exists_spells_of_unsigned? {negative : Bool} {cs rest : List Char} {literal : Literal}
    (h : unsigned? negative cs = some (literal, rest)) :
    ∃ body, cs = body ++ rest ∧ Spells negative body literal := by
  unfold unsigned? at h
  cases hhex : hexDigits? cs with
  | some found =>
    obtain ⟨digits, behind⟩ := found
    rw [hhex, Option.elim_some] at h
    obtain ⟨literal', hread, heq⟩ := Option.map_eq_some_iff.1 h
    obtain ⟨rfl, rfl⟩ := Prod.mk.inj heq
    exact exists_spells_of_hexDigits? hhex hread
  | none =>
    rw [hhex, Option.elim_none] at h
    exact exists_spells_of_decimal? h

section Complete

variable {negative : Bool} {signs digits letters whole f e body tail rest : List Char}
  {fraction : Option (List Char)} {exponent : Option Int} {literal : Literal}

def Ends (tail : List Char) : Prop := ∀ c ∈ tail.head?, c.isDigit = false ∧ c ≠ '.'

def Stops (tail : List Char) : Prop := Ends tail ∧ ∀ c ∈ tail.head?, c ≠ 'e' ∧ c ≠ 'E'

theorem Ends.dropWhile_eq (h : Ends tail) : tail.dropWhile Char.isDigit = tail := by
  cases tail with
  | nil => rfl
  | cons c cs => exact List.dropWhile_cons_of_neg (by simp [(h c rfl).1])

theorem Ends.takeWhile_eq (h : Ends tail) : tail.takeWhile Char.isDigit = [] := by
  cases tail with
  | nil => rfl
  | cons c cs => exact List.takeWhile_cons_of_neg (by simp [(h c rfl).1])

theorem Ends.scanFraction_eq (h : Ends tail) : Numeral.scanFraction tail = (none, tail) := by
  fun_cases Numeral.scanFraction tail with
  | case1 cs => exact absurd rfl (h '.' rfl).2
  | case2 => rfl

theorem Stops.scanExponent_eq (h : Stops tail) : Numeral.scanExponent tail = (none, tail) := by
  cases tail with
  | nil => rfl
  | cons c cs => simp [Numeral.scanExponent, h.2 c rfl]

theorem stops_nil : Stops [] := ⟨nofun, nofun⟩

theorem stops_letter {c : Char} (hc : isSuffix c = true) (tail : List Char) :
    Stops (c :: tail) := by
  simp only [isSuffix, Bool.or_eq_true, beq_iff_eq] at hc
  simp only [Stops, Ends, List.head?_cons, Option.mem_some_iff, forall_eq']
  obtain ((rfl | rfl) | rfl) | rfl := hc <;> decide

theorem stops_ending (h : IsEnding letters) : Stops letters := by
  obtain rfl | ⟨c, hc, rfl⟩ := h
  · exact stops_nil
  · exact stops_letter hc []

theorem ends_mark {m : Char} (hm : m = 'e' ∨ m = 'E') (tail : List Char) : Ends (m :: tail) := by
  simp only [Ends, List.head?_cons, Option.mem_some_iff, forall_eq']
  obtain rfl | rfl := hm <;> decide

/-- A written exponent is read with all digits that go on behind it. -/
theorem scanExponent_some {m : Char} (hm : m = 'e' ∨ m = 'E') (hsigns : Signs negative signs)
    (hne : digits ≠ []) (hdigits : ∀ c ∈ digits, c.isDigit = true) (tail : List Char) :
    Numeral.scanExponent (m :: (signs ++ digits) ++ tail) =
      (some (if negative then -(Decimal.ofDigits (digits ++ tail.takeWhile Char.isDigit) : Int)
        else Decimal.ofDigits (digits ++ tail.takeWhile Char.isDigit)),
        tail.dropWhile Char.isDigit) := by
  obtain ⟨d, ds, rfl⟩ := List.exists_cons_of_ne_nil hne
  have hsign : sign (signs ++ (d :: ds) ++ tail) = (negative, d :: ds ++ tail) := by
    rw [List.append_assoc]
    exact sign_append hsigns (isSign_eq_false_of_isDigit (hdigits d (.head _))) (ds ++ tail)
  rw [List.cons_append, Numeral.scanExponent, if_pos hm, hsign]
  dsimp only
  rw [List.takeWhile_append_of_pos hdigits, List.dropWhile_append_of_pos hdigits, if_neg (by simp)]

theorem scanExponent_append (h : Exponent exponent e) (hstop : Stops tail) :
    Numeral.scanExponent (e ++ tail) = (exponent, tail) := by
  cases h with
  | none => exact hstop.scanExponent_eq
  | some he hsigns hne hdigits =>
    rw [scanExponent_some he hsigns hne hdigits, hstop.1.takeWhile_eq, hstop.1.dropWhile_eq,
      List.append_nil]

theorem ends_exponent (h : Exponent exponent e) (hstop : Stops tail) : Ends (e ++ tail) := by
  cases h with
  | none => exact hstop.1
  | some hm => exact ends_mark hm _

theorem scanFraction_append (h : Fraction fraction f) (hends : Ends tail) :
    Numeral.scanFraction (f ++ tail) = (fraction, tail) := by
  cases h with
  | none => exact hends.scanFraction_eq
  | some hdigits =>
    rw [List.cons_append, Numeral.scanFraction, List.takeWhile_append_of_pos hdigits,
      List.dropWhile_append_of_pos hdigits, hends.takeWhile_eq, hends.dropWhile_eq, List.append_nil]

theorem takeWhile_fraction (h : Fraction fraction f) (hends : Ends tail) :
    (f ++ tail).takeWhile Char.isDigit = [] := by
  cases h with
  | none => exact hends.takeWhile_eq
  | some => exact List.takeWhile_cons_of_neg (by decide)

theorem dropWhile_fraction (h : Fraction fraction f) (hends : Ends tail) :
    (f ++ tail).dropWhile Char.isDigit = f ++ tail := by
  cases h with
  | none => exact hends.dropWhile_eq
  | some => exact List.dropWhile_cons_of_neg (by decide)

/-- A written numeral is read when it does not go on. -/
theorem numeralScan_append (hwhole : ∀ c ∈ whole, c.isDigit = true)
    (hfraction : Fraction fraction f) (hexponent : Exponent exponent e) (hstop : Stops tail) :
    Numeral.scan (whole ++ (f ++ (e ++ tail))) = (⟨whole, fraction, exponent⟩, tail) := by
  have hends := ends_exponent hexponent hstop
  simp only [Numeral.scan, List.takeWhile_append_of_pos hwhole, List.dropWhile_append_of_pos hwhole,
    takeWhile_fraction hfraction hends, dropWhile_fraction hfraction hends,
    scanFraction_append hfraction hends, scanExponent_append hexponent hstop, List.append_nil]

/-- Whatever follows a written numeral, at least the numeral is read. -/
theorem length_numeralScan_le (hwhole : ∀ c ∈ whole, c.isDigit = true)
    (hfraction : Fraction fraction f) (hexponent : Exponent exponent e) (tail : List Char) :
    (Numeral.scan (whole ++ (f ++ (e ++ tail)))).2.length ≤ tail.length := by
  have hdrop := Numeral.length_dropWhile_le Char.isDigit tail
  simp only [Numeral.scan, List.dropWhile_append_of_pos hwhole]
  cases hexponent with
  | @some m _ signs digits hm hsigns hne hdigits =>
    have hends : Ends (m :: (signs ++ digits) ++ tail) := ends_mark hm _
    rw [dropWhile_fraction hfraction hends, scanFraction_append hfraction hends,
      scanExponent_some hm hsigns hne hdigits]
    exact hdrop
  | none =>
    refine (Numeral.length_scanExponent_le _).trans ?_
    cases hfraction with
    | none => exact (Numeral.length_scanFraction_le _).trans hdrop
    | some hdigits =>
      rw [List.cons_append, List.dropWhile_cons_of_neg (by decide), Numeral.scanFraction]
      rw [List.nil_append, List.dropWhile_append_of_pos hdigits]
      exact hdrop

theorem isDigit_of_isOctal {c : Char} (h : Escape.isOctal c = true) : c.isDigit = true := by
  simp only [Escape.isOctal, Bool.and_eq_true, decide_eq_true_eq] at h
  simp only [Char.isDigit, Bool.and_eq_true, decide_eq_true_eq]
  exact ⟨h.1, Char.le_trans h.2 (by decide)⟩

theorem isDigit_of_octal (h : ∀ c ∈ digits, Escape.isOctal c = true) :
    ∀ c ∈ '0' :: digits, c.isDigit = true :=
  List.forall_mem_cons.2 ⟨rfl, fun c hc => isDigit_of_isOctal (h c hc)⟩

theorem ne_x_of_signs (h : Signs negative signs) : ∀ c ∈ signs, c ≠ 'x' ∧ c ≠ 'X' := by
  cases h <;> simp

theorem ne_x_of_fraction (h : Fraction fraction f) : ∀ c ∈ f, c ≠ 'x' ∧ c ≠ 'X' := by
  cases h with
  | none => nofun
  | some hdigits =>
    exact List.forall_mem_cons.2 ⟨by decide, fun c hc => ne_x_of_isDigit (hdigits c hc)⟩

theorem ne_x_of_exponent (h : Exponent exponent e) : ∀ c ∈ e, c ≠ 'x' ∧ c ≠ 'X' := by
  cases h with
  | none => nofun
  | some hm hsigns _ hdigits =>
    refine List.forall_mem_cons.2 ⟨by obtain rfl | rfl := hm <;> decide, fun c hc => ?_⟩
    exact (List.mem_append.1 hc).elim (ne_x_of_signs hsigns c)
      fun hc => ne_x_of_isDigit (hdigits c hc)

theorem ne_x_of_ending (h : IsEnding letters) : ∀ c ∈ letters, c ≠ 'x' ∧ c ≠ 'X' := by
  obtain rfl | ⟨c, hc, rfl⟩ := h
  · nofun
  · simp only [isSuffix, Bool.or_eq_true, beq_iff_eq] at hc
    simp only [List.forall_mem_singleton]
    obtain ((rfl | rfl) | rfl) | rfl := hc <;> decide

theorem afterSuffix_ending (h : IsEnding letters) : afterSuffix letters = [] := by
  obtain rfl | ⟨c, hc, rfl⟩ := h
  · rfl
  · rw [afterSuffix, if_pos hc]

theorem hexDigits?_hex {x : Char} (hx : x = 'x' ∨ x = 'X') (hne : digits ≠ [])
    (hdigits : ∀ c ∈ digits, Escape.isHex c = true) (tail : List Char) :
    hexDigits? ('0' :: x :: digits ++ tail) =
      some (digits ++ tail.takeWhile Escape.isHex, tail.dropWhile Escape.isHex) := by
  obtain ⟨d, ds, rfl⟩ := List.exists_cons_of_ne_nil hne
  refine hexDigits?_eq_some.2 ⟨x, d, ds ++ tail, rfl, ⟨hx, hdigits d (.head _)⟩, ?_, ?_⟩
  · exact (List.takeWhile_append_of_pos hdigits).symm
  · exact (List.dropWhile_append_of_pos hdigits).symm

/-- Digits and what may stand behind them are read alone. -/
theorem unsigned?_digits (hne : digits ≠ []) (hdigits : ∀ c ∈ digits, c.isDigit = true)
    (hletters : IsEnding letters) (negative : Bool) :
    unsigned? negative (digits ++ letters) = some (ofDigits negative digits, []) := by
  have hx : ∀ c ∈ digits ++ letters, c ≠ 'x' ∧ c ≠ 'X' := fun c hc =>
    (List.mem_append.1 hc).elim (fun hc => ne_x_of_isDigit (hdigits c hc))
      (ne_x_of_ending hletters c)
  have hscan := numeralScan_append hdigits .none .none (stops_ending hletters)
  rw [List.nil_append, List.nil_append] at hscan
  simp only [unsigned?_eq_decimal? hx, decimal?, hscan, Numeral.isReal, Option.isSome_none,
    Bool.or_self, Bool.false_eq_true, if_false, hne, afterSuffix_ending hletters]

/-- What is spelled is read alone as what it spells. -/
theorem unsigned?_of_spells (h : Spells negative body literal) :
    unsigned? negative body = some (literal, []) := by
  cases h with
  | hex hx hne hdigits hfits =>
    have hread := hexDigits?_hex hx hne hdigits []
    simp only [List.append_nil, List.takeWhile_nil, List.dropWhile_nil] at hread
    rw [unsigned?, hread, Option.elim_some, ofHex?_eq, if_pos hfits, Option.map_some]
  | octal hne hdigits hletters =>
    rw [unsigned?_digits (List.cons_ne_nil _ _) (isDigit_of_octal hdigits) hletters,
      ofDigits_octal hne hdigits]
  | decimal hne hdigits hoctal hletters =>
    rw [unsigned?_digits hne hdigits hletters, ofDigits_eq_ofMagnitude hoctal]
  | @real whole f e fraction exponent r hwhole hfraction hexponent hreal hvalue =>
    have hscan := numeralScan_append hwhole hfraction hexponent stops_nil
    rw [List.append_nil, ← List.append_assoc] at hscan
    have hx : ∀ c ∈ whole ++ f ++ e, c ≠ 'x' ∧ c ≠ 'X' := by
      simp only [List.forall_mem_append]
      exact ⟨⟨fun c hc => ne_x_of_isDigit (hwhole c hc), ne_x_of_fraction hfraction⟩,
        ne_x_of_exponent hexponent⟩
    simp only [unsigned?_eq_decimal? hx, decimal?, hscan, hreal, if_true, hvalue, Option.map_some]

theorem exists_cons_of_spells (h : Spells negative body literal) :
    ∃ c more, body = c :: more ∧ isSign c = false := by
  have hdigit {digits more : List Char} (hne : digits ≠ [])
      (hdigits : ∀ c ∈ digits, c.isDigit = true) :
      ∃ c rest, digits ++ more = c :: rest ∧ isSign c = false := by
    obtain ⟨d, ds, rfl⟩ := List.exists_cons_of_ne_nil hne
    exact ⟨d, ds ++ more, rfl, isSign_eq_false_of_isDigit (hdigits d (.head _))⟩
  cases h with
  | hex => exact ⟨_, _, rfl, rfl⟩
  | octal => exact ⟨_, _, rfl, rfl⟩
  | decimal hne hdigits => exact hdigit hne hdigits
  | @real whole f e fraction exponent r hwhole hfraction hexponent hreal hvalue =>
    rw [List.append_assoc]
    by_cases hne : whole = []
    · subst hne
      cases hfraction with
      | none => simp [Numeral.toReal?] at hvalue
      | some => exact ⟨_, _, rfl, rfl⟩
    · exact hdigit hne hwhole

/-- Every literal is read alone, as what it spells. -/
theorem scan_of_spells (hsigns : Signs negative signs) (h : Spells negative body literal) :
    scan (signs ++ body) = some (literal, []) := by
  obtain ⟨c, more, rfl, hc⟩ := exists_cons_of_spells h
  rw [literalScan_eq, sign_append hsigns hc, Option.bind_some, unsigned?_of_spells h]

/-- Where there is no `x`, hexadecimal digits come behind the first character at the earliest. -/
theorem length_hexDigits_le {found : List Char} (hne : body ≠ [])
    (hx : ∀ c ∈ body, c ≠ 'x' ∧ c ≠ 'X')
    (h : hexDigits? (body ++ tail) = some (found, rest)) : rest.length ≤ tail.length := by
  obtain ⟨x, c, more, hsplit, ⟨hletter, -⟩, -, rfl⟩ := hexDigits?_eq_some.1 h
  have hdrop := Numeral.length_dropWhile_le Escape.isHex (c :: more)
  match body, hne with
  | [_], _ =>
    obtain rfl : tail = x :: c :: more := (List.cons.inj hsplit).2
    exact hdrop.trans (Nat.le_succ _)
  | _ :: d :: _, _ =>
    obtain rfl : d = x := (List.cons.inj (List.cons.inj hsplit).2).1
    have hnot := hx d (by simp)
    exact absurd hletter (by simp [hnot])

/-- A number is read at least as far as its numeral goes. -/
theorem length_le_of_decimal? {cs : List Char} (h : decimal? negative cs = some (literal, rest)) :
    rest.length ≤ (Numeral.scan cs).2.length := by
  simp only [decimal?] at h
  split at h
  · obtain ⟨r, -, heq⟩ := Option.map_eq_some_iff.1 h
    rw [(Prod.mk.inj heq).2]
  · split at h
    · cases h
    · rw [← (Prod.mk.inj (Option.some.inj h)).2]
      exact length_afterSuffix_le _

/-- Without an `x`, hexadecimal digits are none to speak of. -/
theorem length_le_of_unsigned? (hne : body ≠ []) (hx : ∀ c ∈ body, c ≠ 'x' ∧ c ≠ 'X')
    (hdecimal : ∀ literal rest, decimal? negative (body ++ tail) = some (literal, rest) →
      rest.length ≤ tail.length)
    (h : unsigned? negative (body ++ tail) = some (literal, rest)) : rest.length ≤ tail.length := by
  unfold unsigned? at h
  cases hhex : hexDigits? (body ++ tail) with
  | some found =>
    rw [hhex, Option.elim_some] at h
    obtain ⟨_, -, heq⟩ := Option.map_eq_some_iff.1 h
    rw [← (Prod.mk.inj heq).2]
    exact length_hexDigits_le hne hx hhex
  | none =>
    rw [hhex, Option.elim_none] at h
    exact hdecimal literal rest h

theorem length_le_of_digits (hne : digits ≠ []) (hdigits : ∀ c ∈ digits, c.isDigit = true)
    (hletters : IsEnding letters)
    (h : unsigned? negative (digits ++ letters ++ tail) = some (literal, rest)) :
    rest.length ≤ tail.length := by
  refine length_le_of_unsigned? (by simp [hne]) ?_ (fun literal rest h => ?_) h
  · simp only [List.forall_mem_append]
    exact ⟨fun c hc => ne_x_of_isDigit (hdigits c hc), ne_x_of_ending hletters⟩
  · obtain rfl | ⟨c, hc, rfl⟩ := hletters
    · rw [List.append_nil] at h
      exact (length_le_of_decimal? h).trans (length_numeralScan_le hdigits .none .none tail)
    · have hscan := numeralScan_append hdigits .none .none (stops_letter hc tail)
      rw [List.nil_append, List.nil_append] at hscan
      rw [List.append_assoc, List.singleton_append] at h
      simp only [decimal?, hscan, Numeral.isReal, Option.isSome_none, Bool.or_self,
        Bool.false_eq_true, if_false, hne, afterSuffix, hc, if_true, Option.some.injEq,
        Prod.mk.injEq] at h
      rw [h.2]

/-- Whatever follows a literal, at least the literal is read. -/
theorem length_le_of_spells {read : Literal} (h : Spells negative body literal)
    (hread : unsigned? negative (body ++ tail) = some (read, rest)) :
    rest.length ≤ tail.length := by
  cases h with
  | hex hx hne hdigits =>
    rw [unsigned?, hexDigits?_hex hx hne hdigits, Option.elim_some] at hread
    obtain ⟨_, -, heq⟩ := Option.map_eq_some_iff.1 hread
    rw [← (Prod.mk.inj heq).2]
    exact Numeral.length_dropWhile_le Escape.isHex tail
  | octal hne hdigits hletters =>
    exact length_le_of_digits (List.cons_ne_nil _ _) (isDigit_of_octal hdigits) hletters hread
  | decimal hne hdigits _ hletters => exact length_le_of_digits hne hdigits hletters hread
  | @real whole f e fraction exponent r hwhole hfraction hexponent hreal hvalue =>
    refine length_le_of_unsigned? ?_ ?_ (fun literal rest h => ?_) hread
    · obtain ⟨c, more, hcons, -⟩ :=
        exists_cons_of_spells (.real hwhole hfraction hexponent hreal hvalue)
      rw [hcons]
      exact List.cons_ne_nil _ _
    · simp only [List.forall_mem_append]
      exact ⟨⟨fun c hc => ne_x_of_isDigit (hwhole c hc), ne_x_of_fraction hfraction⟩,
        ne_x_of_exponent hexponent⟩
    · rw [List.append_assoc, List.append_assoc] at h
      exact (length_le_of_decimal? h).trans (length_numeralScan_le hwhole hfraction hexponent tail)

end Complete

/-- The decimal digits of a number are read as the number. -/
theorem scan_natural {negative : Bool} {signs : List Char} (h : Signs negative signs) (n : Nat) :
    scan (signs ++ natural n) = some (ofMagnitude negative n, []) := by
  have hdigits : ∀ c ∈ natural n, c.isDigit = true := fun c => isDigit_of_mem_natural
  have hspells : Spells negative (natural n ++ [])
      (ofMagnitude negative (Decimal.ofDigits (natural n))) :=
    .decimal Nat.toDigits_ne_nil hdigits (isOctal_natural n) (.inl rfl)
  rw [List.append_nil, Decimal.ofDigits, number_natural] at hspells
  exact scan_of_spells h hspells

theorem byteLength_eq_length {cs : List Char} (h : ∀ c ∈ cs, c.utf8Size = 1) :
    byteLength cs = cs.length := by
  induction cs with
  | nil => rfl
  | cons c cs ih =>
    obtain ⟨hc, hcs⟩ := List.forall_mem_cons.1 h
    rw [byteLength_cons, hc, ih hcs, List.length_cons, Nat.add_comm]

/-- What is written tells what is denoted. -/
theorem Spells.unique {negative : Bool} {body : List Char} {literal literal' : Literal}
    (h : Spells negative body literal) (h' : Spells negative body literal') :
    literal = literal' := by
  have hread := (unsigned?_of_spells h).symm.trans (unsigned?_of_spells h')
  exact (Prod.mk.inj (Option.some.inj hread)).1

/-- No literal at the front of a text is longer than the one that is read. -/
theorem length_le_of_scan {cs rest longer : List Char} {literal : Literal}
    (hscan : scan cs = some (literal, rest)) (hlonger : IsLexeme longer) (hleads : longer <+: cs) :
    longer.length + rest.length ≤ cs.length := by
  obtain ⟨tail, rfl⟩ := hleads
  obtain ⟨negative, signs, body, spelled, hsigns, hspells, rfl⟩ := hlonger
  obtain ⟨c, more, hbody, hc⟩ := exists_cons_of_spells hspells
  have hsign : sign (signs ++ body ++ tail) = (negative, body ++ tail) := by
    rw [hbody, List.append_assoc]
    exact sign_append hsigns hc (more ++ tail)
  rw [literalScan_eq, hsign, Option.bind_some] at hscan
  have hle := length_le_of_spells hspells hscan
  simp only [List.length_append]
  omega

/-- From a place in a text, the longest literal is read that begins there. It is a sign, if there is
one, and hexadecimal, octal, decimal or real notation with the number that this spells; integers
take one letter along that may stand behind them, except hexadecimal ones. Octal digits are read as
the decimal spelling of their number is, with the same sign, unless that is too large for an
integer; then they are read as if they were decimal. -/
theorem scan_denotes {text cs rest : List Char} {start : Nat} {literal : Literal}
    (hstart : dropBytes start text = some cs) (hscan : scan cs = some (literal, rest)) :
    ∃ negative signs body, Signs negative signs ∧ Spells negative body literal ∧
      cs = signs ++ body ++ rest ∧
      dropBytes (start + (signs ++ body).length) text = some rest ∧
      (∀ longer, IsLexeme longer → longer <+: cs → longer.length ≤ (signs ++ body).length) ∧
      ∀ n, scan (signs ++ natural n) = some (ofMagnitude negative n, []) := by
  obtain ⟨signs, hsigns, hbehind⟩ := signs_of_sign cs
  have hread := hscan
  rw [literalScan_eq, Option.bind_some] at hread
  obtain ⟨body, hbody, hspells⟩ := exists_spells_of_unsigned? hread
  have hcs : cs = signs ++ body ++ rest := by rw [List.append_assoc, ← hbody, ← hbehind]
  refine ⟨_, signs, body, hsigns, hspells, hcs, ?_, fun longer hlonger hleads => ?_,
    scan_natural hsigns⟩
  · obtain ⟨front, rfl, rfl⟩ := dropBytes_eq_some.1 hstart
    obtain ⟨lexeme, hlexeme, hascii⟩ := passes_literal hscan
    obtain rfl : lexeme = signs ++ body := List.append_cancel_right (hlexeme.symm.trans hcs)
    have hbytes : byteLength (signs ++ body) = (signs ++ body).length := byteLength_eq_length hascii
    rw [hcs, ← hbytes, ← byteLength_append, ← List.append_assoc front (signs ++ body) rest]
    exact dropBytes_append (front ++ (signs ++ body)) rest
  · have hle := length_le_of_scan hscan hlonger hleads
    have hlength := congrArg List.length hcs
    rw [List.length_append] at hlength
    omega

def octalDigits : List Char := '1' :: List.replicate 21 '0'

/-- The letter behind `0x1F` is left, though no literal goes further. The number 2 ^ 63 is not the
same in octal as in decimal. -/
theorem scan_denotes_of_large :
    scan "0x1FL".toList = some (integer 31, ['L']) ∧
      (∀ longer, IsLexeme longer → longer <+: "0x1FL".toList → longer.length ≤ 4) ∧
      Escape.number 8 octalDigits = 2 ^ 63 ∧
      ∃ r r', scan ('0' :: octalDigits) = some (real r, []) ∧
        scan (natural (2 ^ 63)) = some (real r', []) ∧ r ≠ r' := by
  have hscan : scan "0x1FL".toList = some (integer 31, ['L']) := by cbv
  obtain ⟨negative, signs, body, -, -, hcs, -, hlongest, -⟩ :=
    scan_denotes (dropBytes_zero _) hscan
  have hlength : (signs ++ body).length = 4 := by
    have h := congrArg List.length hcs
    rw [List.length_append] at h
    exact Nat.succ.inj h.symm
  have hdigits : ∀ c ∈ octalDigits, Escape.isOctal c = true :=
    List.forall_mem_cons.2 ⟨rfl, fun c hc => List.eq_of_mem_replicate hc ▸ rfl⟩
  have height : Escape.number 8 octalDigits = 2 ^ 63 := by decide
  have hten : Decimal.ofDigits octalDigits = 10 ^ 21 := by decide
  have hoctal := scan_of_spells .none (.octal (by decide) hdigits (.inl rfl))
  have hdecimal := scan_natural .none (2 ^ 63)
  rw [List.nil_append, List.append_nil, height, hten] at hoctal
  rw [List.nil_append] at hdecimal
  have hbits : (Float.ofScientific (10 ^ 21) false 0).toBits ≠
    (Float.ofScientific (2 ^ 63) false 0).toBits := by decide +kernel
  exact ⟨hscan, fun longer hlonger hleads => hlength ▸ hlongest longer hlonger hleads,
    height, _, _, hoctal, hdecimal, fun h => hbits (congrArg Float.toBits h)⟩

end Literal

end Reckoner
