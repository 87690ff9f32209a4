import Reckoner.Decimal.Shortest

/-!
How integers and reals are written. A real is written by its shortest digits, and a `Layout`
holds the remaining decisions: whether a whole number keeps a point and a zero, and from where
on an exponent is used.
-/

namespace Reckoner.Decimal

def natural (n : Nat) : List Char := Nat.toDigits 10 n

def integer (i : Int) : List Char :=
  if i < 0 then '-' :: natural i.natAbs else natural i.natAbs

structure Layout where
  /-- A whole number is written with `.0` behind it. -/
  keepsPoint : Bool
  /-- The place values of the leading digit, `first` to `last`, that are written without an
  exponent; without limits there never is an exponent. -/
  positional : Option (Int × Int)

namespace Layout

def value : Layout := ⟨false, none⟩

def literal : Layout := ⟨true, some (-4, 15)⟩

def place (layout : Layout) (digits : List Char) (point : Int) : List Char :=
  if point ≤ 0 then '0' :: '.' :: (List.replicate (-point).toNat '0' ++ digits)
  else if digits.length ≤ point.toNat then
    digits ++ List.replicate (point.toNat - digits.length) '0' ++
      (if layout.keepsPoint then ['.', '0'] else [])
  else digits.take point.toNat ++ '.' :: digits.drop point.toNat

def scientific (digits : List Char) (exponent : Int) : List Char :=
  digits.take 1 ++ (if digits.length ≤ 1 then [] else '.' :: digits.drop 1) ++
    'e' :: integer exponent

def usesExponent (layout : Layout) (exponent : Int) : Bool :=
  match layout.positional with
  | none => false
  | some (first, last) => exponent < first || last < exponent

def magnitude (layout : Layout) (mantissa : Nat) (exponent : Int) : List Char :=
  if mantissa = 0 then if layout.keepsPoint then ['0', '.', '0'] else ['0']
  else
    let d := (Binary.ofParts mantissa exponent).shortest
    let all := natural d.digits
    let digits := stripZeros all
    let point := d.exponent + all.length
    if layout.usesExponent (point - 1) then scientific digits (point - 1)
    else layout.place digits point

def render (layout : Layout) (x : Float) : List Char :=
  match Double.of x with
  | .nan => ['N', 'a', 'N']
  | .infinity negative => signed negative ['i', 'n', 'f']
  | .finite negative m e => signed negative (layout.magnitude m e)
where
  signed (negative : Bool) (cs : List Char) : List Char := if negative then '-' :: cs else cs

end Layout

end Reckoner.Decimal
