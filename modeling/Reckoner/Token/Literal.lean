import Reckoner.Decimal.Numeral

/-!
Numeric literals: hexadecimal after `0x`, octal when there is a leading zero and no digit above
seven, and decimal with an optional fraction and exponent. One letter out of `lLuU` may follow
an integer and means nothing.
-/

namespace Reckoner

inductive Literal where
  | integer (i : Int64)
  | real (r : Float)

namespace Literal

open Text Decimal

def isSuffix (c : Char) : Bool := c == 'l' || c == 'L' || c == 'u' || c == 'U'

def afterSuffix : List Char → List Char
  | [] => []
  | c :: cs => if isSuffix c then cs else c :: cs

def hexDigits? : List Char → Option (List Char × List Char)
  | '0' :: x :: c :: cs =>
    if (x = 'x' ∨ x = 'X') ∧ Escape.isHex c then
      some ((c :: cs).takeWhile Escape.isHex, (c :: cs).dropWhile Escape.isHex)
    else none
  | _ => none

/-- Hexadecimal digits spell the bits of an integer, so they have to fit into 64 bits and may
set the topmost. -/
def ofHex? (negative : Bool) (digits : List Char) : Option Literal :=
  let n := Escape.number 16 digits
  if n < Int64.size then
    let i := Int64.ofInt n
    some (integer (if negative then -i else i))
  else none

def isOctal (digits : List Char) : Bool :=
  match digits with
  | '0' :: d :: ds => (d :: ds).all Escape.isOctal
  | _ => false

/-- Digits too large for an integer are read as a decimal real, octal ones too. -/
def ofDigits (negative : Bool) (digits : List Char) : Literal :=
  let n := Escape.number (if isOctal digits then 8 else 10) digits
  if n < Int64.size / 2 then
    let i := Int64.ofInt n
    integer (if negative then -i else i)
  else
    let x := Float.ofScientific (Decimal.ofDigits digits) false 0
    real (if negative then -x else x)

def scan (cs : List Char) : Option (Literal × List Char) :=
  let negative := (sign cs).1
  let body := (sign cs).2
  match hexDigits? body with
  | some (digits, rest) => (ofHex? negative digits).map fun literal => (literal, rest)
  | none =>
    let numeral := (Numeral.scan body).1
    let rest := (Numeral.scan body).2
    if numeral.isReal then (numeral.toReal? negative).map fun r => (real r, rest)
    else if numeral.whole = [] then none
    else some (ofDigits negative numeral.whole, afterSuffix rest)

def starts : List Char → Bool
  | '.' :: c :: _ => c.isDigit
  | c :: _ => c.isDigit
  | [] => false

def startsSigned : List Char → Bool
  | s :: c :: _ => (s == '+' || s == '-') && c.isDigit
  | _ => false

theorem length_afterSuffix_le (cs : List Char) : (afterSuffix cs).length ≤ cs.length := by
  unfold afterSuffix
  split
  · simp
  · split <;> simp

theorem length_hexDigits_lt {cs digits rest : List Char}
    (h : hexDigits? cs = some (digits, rest)) : rest.length < cs.length := by
  unfold hexDigits? at h
  split at h
  · next x c cs =>
    split at h
    · simp only [Option.some.injEq, Prod.mk.injEq] at h
      have := Numeral.length_dropWhile_le Escape.isHex (c :: cs)
      rw [h.2] at this
      simp only [List.length_cons] at this ⊢
      omega
    · cases h
  · cases h

theorem length_lt_of_scan {cs rest : List Char} {literal : Literal}
    (h : scan cs = some (literal, rest)) : rest.length < cs.length := by
  have hsign := Numeral.length_sign_le cs
  simp only [scan] at h
  split at h
  · next digits tail hhex =>
    obtain ⟨l, -, heq⟩ := Option.map_eq_some_iff.mp h
    obtain ⟨-, rfl⟩ := Prod.mk.inj heq
    have := length_hexDigits_lt hhex
    omega
  · split at h
    · obtain ⟨x, hx, heq⟩ := Option.map_eq_some_iff.mp h
      obtain ⟨-, rfl⟩ := Prod.mk.inj heq
      have := Numeral.length_scan_lt hx
      omega
    · split at h
      · cases h
      · next hwhole =>
        simp only [Option.some.injEq, Prod.mk.injEq] at h
        have h₁ := length_afterSuffix_le (Numeral.scan (sign cs).2).2
        have h₂ := Numeral.length_scan_le (sign cs).2
        have h₃ := Numeral.length_eq_whole_add (sign cs).2
        have h₄ := List.length_pos_iff.mpr hwhole
        rw [← h.2]
        omega

end Literal

end Reckoner
