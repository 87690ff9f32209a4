import Reckoner.Double

/-!
The shortest decimal that reads back as a given double. The reals that round to `m * 2 ^ q`
form an interval. Digits are tried one more at a time: on the grid with `n` digits the two
neighbours of the value are tested against the interval, and the first grid with a hit wins.
Of two hits the nearer one is taken, and of two equally near ones the larger.
-/

namespace Reckoner.Decimal

structure Binary where
  mantissa : Nat
  exponent : Int
  /-- The next double below is half as far away as the next one above. -/
  narrowBelow : Bool

structure Scaled where
  digits : Nat
  exponent : Int
deriving DecidableEq, Repr

def compareScaled (a : Nat) (i : Int) (b : Nat) (j : Int) : Ordering :=
  compare (a * Nat.pow 10 i.toNat * Nat.pow 2 (-j).toNat)
    (b * Nat.pow 2 j.toNat * Nat.pow 10 (-i).toNat)

namespace Binary

/-- A mantissa of exactly 53 bits with only the top one set has a binade border below it,
except at the bottom of the normal range. -/
def ofParts (mantissa : Nat) (exponent : Int) : Binary :=
  ⟨mantissa, exponent, mantissa == Nat.pow 2 52 && decide (-1074 < exponent)⟩

def accepts (x : Binary) (d : Scaled) : Bool :=
  let low := compareScaled d.digits d.exponent
    (if x.narrowBelow then 4 * x.mantissa - 1 else 4 * x.mantissa - 2) (x.exponent - 2)
  let high := compareScaled d.digits d.exponent (4 * x.mantissa + 2) (x.exponent - 2)
  let even := x.mantissa % 2 == 0
  (low == .gt || (even && low == .eq)) && (high == .lt || (even && high == .eq))

def floorAt (x : Binary) (e : Int) : Nat :=
  x.mantissa * Nat.pow 2 x.exponent.toNat * Nat.pow 10 (-e).toNat /
    (Nat.pow 2 (-x.exponent).toNat * Nat.pow 10 e.toNat)

def magnitude (x : Binary) : Int :=
  let guess := ((x.mantissa.log2 : Int) + x.exponent) * 1233 / 4096
  let below (k : Int) : Bool := compareScaled 1 k x.mantissa x.exponent == .gt
  ([guess - 1, guess, guess + 1, guess + 2].find? below).getD (guess + 3)

def onGrid (x : Binary) (e : Int) : Option Scaled :=
  let d := x.floorAt e
  let lower : Scaled := ⟨d, e⟩
  let upper : Scaled := ⟨d + 1, e⟩
  match x.accepts lower, x.accepts upper with
  | true, true =>
    -- the value lies below the midpoint exactly when twice the value is below the sum
    if compareScaled (2 * d + 1) e (2 * x.mantissa) x.exponent == .gt then some lower
    else some upper
  | true, false => some lower
  | false, true => some upper
  | false, false => none

def exact (x : Binary) : Scaled :=
  if 0 ≤ x.exponent then ⟨x.mantissa * Nat.pow 2 x.exponent.toNat, 0⟩
  else ⟨x.mantissa * Nat.pow 5 (-x.exponent).toNat, x.exponent⟩

def shortest (x : Binary) : Scaled :=
  let k := x.magnitude
  ((List.range 17).findSome? fun (n : Nat) => x.onGrid (k - n - 1)).getD x.exact

end Binary

def stripZeros (digits : List Char) : List Char :=
  (digits.reverse.dropWhile (· == '0')).reverse

end Reckoner.Decimal
