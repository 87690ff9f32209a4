import Reckoner.Double
import Reckoner.Error

/-!
Powers, remainders and narrowing. Integer powers are exact or fail; the real operations refuse
the arguments for which there is no result.
-/

namespace Reckoner.Value

def fits (i : Int) : Bool := decide (Int64.minValue.toInt ≤ i ∧ i ≤ Int64.maxValue.toInt)

/-- An integer to an integer power. A negative exponent leaves something other than zero only
for the bases one and minus one, and a base of larger magnitude outgrows 64 bits before its
exponent reaches 64. -/
def integerPower (base exponent : Int64) : Except Error Int64 :=
  let b := base.toInt
  let e := exponent.toInt
  if e < 0 then
    if b = 0 then .error (.numeric .zeroToNegativePower)
    else if b = 1 then .ok 1
    else if b = -1 then .ok (if e % 2 = 0 then 1 else -1)
    else .ok 0
  else if b = 0 then .ok (if e = 0 then 1 else 0)
  else if b = 1 then .ok 1
  else if b = -1 then .ok (if e % 2 = 0 then 1 else -1)
  else if e < 64 ∧ fits (b.pow e.toNat) then .ok (Int64.ofInt (b.pow e.toNat))
  else .error (.numeric .realTooBigForInteger)

def isWhole (x : Float) : Bool := Double.ofInteger (Double.toInteger x) == x

def realPower (base exponent : Float) : Except Error Float :=
  if base.isNaN || exponent.isNaN then .error (.numeric .nanOperation)
  else if base < 0.0 && !isWhole exponent then .error (.numeric .nonIntegerPowerOfNegative)
  else if base == 0.0 && exponent < 0.0 then .error (.numeric .zeroToNegativePower)
  else
    let result := if exponent < 0.0 then 1.0 / base.pow (-exponent) else base.pow exponent
    if result.isNaN && base.isFinite && exponent.isFinite then .error (.numeric .powerFailed)
    else .ok result

def realModulus (a b : Float) : Except Error Float :=
  if a.isNaN || b.isNaN then .error (.numeric .nanOperation)
  else if b == 0.0 then .error (.numeric .divideByZero)
  else .ok (a - b * Double.ofInteger (Double.toInteger (a / b)))

def narrow (x : Float) : Except Error Int64 :=
  let i := Double.toInteger x
  if x.isNaN || (Double.ofInteger i - x).abs >= 1.0 then .error (.numeric .realTooBigForInteger)
  else .ok i

def tolerance : Float := 1e-6

def approxEqual (a b : Float) : Bool :=
  let larger (x y : Float) : Float := if x < y then y else x
  a == b || (a - b).abs <= tolerance * larger (larger 1.0 a.abs) b.abs

end Reckoner.Value
