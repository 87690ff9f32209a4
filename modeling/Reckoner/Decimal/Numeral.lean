import Reckoner.Text.Escape

/-!
Decimal numerals and the numbers they denote. An unsigned numeral is whole digits, an optional
point with more digits, and an optional exponent, which counts only when it has a digit.
-/

namespace Reckoner.Decimal

open Text

structure Numeral where
  whole : List Char
  /-- The digits behind the point, when there is a point. -/
  fraction : Option (List Char)
  exponent : Option Int
deriving DecidableEq, Repr

def ofDigits (digits : List Char) : Nat := Escape.number 10 digits

def sign : List Char → Bool × List Char
  | '-' :: cs => (true, cs)
  | '+' :: cs => (false, cs)
  | cs => (false, cs)

namespace Numeral

def scanFraction : List Char → Option (List Char) × List Char
  | '.' :: cs => (some (cs.takeWhile Char.isDigit), cs.dropWhile Char.isDigit)
  | cs => (none, cs)

def scanExponent (cs : List Char) : Option Int × List Char :=
  match cs with
  | [] => (none, [])
  | c :: rest =>
    if c = 'e' ∨ c = 'E' then
      let digits := (sign rest).2.takeWhile Char.isDigit
      if digits = [] then (none, cs)
      else
        let n : Int := ofDigits digits
        (some (if (sign rest).1 then -n else n), (sign rest).2.dropWhile Char.isDigit)
    else (none, cs)

def scan (cs : List Char) : Numeral × List Char :=
  let fraction := scanFraction (cs.dropWhile Char.isDigit)
  let exponent := scanExponent fraction.2
  (⟨cs.takeWhile Char.isDigit, fraction.1, exponent.1⟩, exponent.2)

def isReal (n : Numeral) : Bool := n.fraction.isSome || n.exponent.isSome

def toReal? (n : Numeral) (negative : Bool) : Option Float :=
  let fraction := n.fraction.getD []
  let digits := n.whole ++ fraction
  if digits = [] then none
  else
    let e := n.exponent.getD 0 - fraction.length
    let x := Float.ofScientific (ofDigits digits) (decide (e < 0)) e.natAbs
    some (if negative then -x else x)

theorem length_dropWhile_le (p : Char → Bool) (cs : List Char) :
    (cs.dropWhile p).length ≤ cs.length :=
  (List.dropWhile_suffix p).length_le

theorem length_scanFraction_le (cs : List Char) : (scanFraction cs).2.length ≤ cs.length := by
  fun_cases scanFraction cs with
  | case1 cs =>
    have := length_dropWhile_le Char.isDigit cs
    simp only [List.length_cons]
    omega
  | case2 => exact Nat.le_refl _

theorem length_scanFraction_lt {cs : List Char} (h : (scanFraction cs).1 ≠ none) :
    (scanFraction cs).2.length < cs.length := by
  fun_cases scanFraction cs with
  | case1 cs =>
    have := length_dropWhile_le Char.isDigit cs
    simp only [List.length_cons]
    omega
  | case2 => simp_all [scanFraction]

theorem length_sign_le (cs : List Char) : (sign cs).2.length ≤ cs.length := by
  unfold sign
  split <;> simp

theorem length_scanExponent_le (cs : List Char) : (scanExponent cs).2.length ≤ cs.length := by
  fun_cases scanExponent cs with
  | case1 => exact Nat.le_refl _
  | case2 | case4 => exact Nat.le_refl _
  | case3 c rest =>
    have h₁ := length_dropWhile_le Char.isDigit (sign rest).2
    have h₂ := length_sign_le rest
    simp only [List.length_cons]
    omega

theorem length_scan_le (cs : List Char) :
    (scan cs).2.length ≤ (cs.dropWhile Char.isDigit).length := by
  have h₁ := length_scanExponent_le (scanFraction (cs.dropWhile Char.isDigit)).2
  have h₂ := length_scanFraction_le (cs.dropWhile Char.isDigit)
  exact Nat.le_trans h₁ h₂

theorem length_eq_whole_add (cs : List Char) :
    cs.length = (scan cs).1.whole.length + (cs.dropWhile Char.isDigit).length := by
  have h := congrArg List.length (List.takeWhile_append_dropWhile (p := Char.isDigit) (l := cs))
  rw [List.length_append] at h
  exact h.symm

/-- A numeral with digits takes up some of the text. -/
theorem length_scan_lt {cs : List Char} {x : Float} {negative : Bool}
    (h : (scan cs).1.toReal? negative = some x) : (scan cs).2.length < cs.length := by
  have hle := length_scan_le cs
  have hwhole := length_eq_whole_add cs
  by_cases hw : (scan cs).1.whole = []
  · have hfraction : (scan cs).1.fraction ≠ none := by
      intro hnone
      simp [toReal?, hw, hnone] at h
    have h₁ := length_scanExponent_le (scanFraction (cs.dropWhile Char.isDigit)).2
    have h₂ : (scanFraction (cs.dropWhile Char.isDigit)).2.length <
        (cs.dropWhile Char.isDigit).length := length_scanFraction_lt hfraction
    have h₃ := length_dropWhile_le Char.isDigit cs
    exact Nat.lt_of_le_of_lt h₁ (Nat.lt_of_lt_of_le h₂ h₃)
  · have := List.length_pos_iff.mpr hw
    omega

end Numeral

def word? (cs : List Char) : Option Float :=
  let lower := cs.map Char.toLower
  if lower = "inf".toList ∨ lower = "infinity".toList then some (1.0 / 0.0)
  else if lower = "nan".toList then some (0.0 / 0.0)
  else none

def readReal (cs : List Char) : Option Float :=
  let negative := (sign cs).1
  let body := (sign cs).2
  match word? body with
  | some x => some (if negative then -x else x)
  | none => if (Numeral.scan body).2 = [] then (Numeral.scan body).1.toReal? negative else none

def readInteger (cs : List Char) : Option Int64 :=
  let digits := (sign cs).2
  if digits = [] ∨ ¬ digits.all Char.isDigit then none
  else
    let n : Int := ofDigits digits
    let i := if (sign cs).1 then -n else n
    if Int64.minValue.toInt ≤ i ∧ i ≤ Int64.maxValue.toInt then some (Int64.ofInt i) else none

end Reckoner.Decimal
