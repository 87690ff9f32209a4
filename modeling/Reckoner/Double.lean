/-!
The exact value of a double, and its passage to and from 64-bit integers. A finite double is
a sign, a natural mantissa and a power of two.
-/

namespace Reckoner

inductive Double where
  | nan
  | infinity (negative : Bool)
  | finite (negative : Bool) (mantissa : Nat) (exponent : Int)
deriving DecidableEq, Repr

namespace Double

def ofBits (bits : Nat) : Double :=
  let negative := decide (Nat.pow 2 63 ≤ bits)
  let exponent : Nat := bits / Nat.pow 2 52 % Nat.pow 2 11
  let fraction : Nat := bits % Nat.pow 2 52
  if exponent = Nat.pow 2 11 - 1 then
    if fraction = 0 then .infinity negative else .nan
  else if exponent = 0 then .finite negative fraction (-1074)
  else .finite negative (Nat.pow 2 52 + fraction) ((exponent : Int) - 1075)

def of (x : Float) : Double := ofBits x.toBits.toNat

def floor (mantissa : Nat) (exponent : Int) : Nat :=
  if 0 ≤ exponent then mantissa * Nat.pow 2 exponent.toNat
  else mantissa / Nat.pow 2 (-exponent).toNat

def truncate? : Double → Option Int
  | .finite false m e => some (floor m e)
  | .finite true m e => some (-(floor m e : Int))
  | _ => none

def clamp (i : Int) : Int64 :=
  Int64.ofInt (max Int64.minValue.toInt (min i Int64.maxValue.toInt))

/-- Truncation toward zero. Beyond the 64-bit range it stays at the nearest end, and a NaN
gives zero. -/
def toInteger (x : Float) : Int64 :=
  match of x with
  | .nan => 0
  | .infinity false => Int64.maxValue
  | .infinity true => Int64.minValue
  | d => clamp (d.truncate?.getD 0)

def ofInteger (i : Int64) : Float := Float.ofInt i.toInt

end Double

end Reckoner
