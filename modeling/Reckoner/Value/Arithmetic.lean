import Reckoner.Operator
import Reckoner.Value.Basic
import Reckoner.Value.Power

/-!
Operators on values. The kind of the left operand decides what an operator means, and the right
operand is read as that kind.
-/

namespace Reckoner.Value

def unsupported (typeName : String) (op : Operator) : Error :=
  .invalidValue s!"operator '{op.symbol}' is not supported for {typeName} values"

def unreadable (v : Value) (wanted : String) : Error :=
  .invalidValue s!"cannot read {v.typeName} value as {wanted}"

def unary (op : Operator) : Value → Except Error Value
  | v@(boolean b) =>
    match op with
    | .logicalNot => .ok (boolean !b)
    | _ => .error (unsupported v.typeName op)
  | v@(integer i) =>
    match op with
    | .unaryPlus => .ok (integer i)
    | .unaryMinus => .ok (integer (-i))
    | .bitNot => .ok (integer (~~~i))
    | _ => .error (unsupported v.typeName op)
  | v@(real r) =>
    match op with
    | .unaryPlus => .ok (real r)
    | .unaryMinus => .ok (real (-r))
    | _ => .error (unsupported v.typeName op)
  | v => .error (unsupported v.typeName op)

def booleanBinary (op : Operator) (l r : Bool) : Except Error Value :=
  match op with
  | .logicalAnd => .ok (boolean (l && r))
  | .logicalOr => .ok (boolean (l || r))
  | .equal | .approxEqual => .ok (boolean (l == r))
  | .notEqual => .ok (boolean (l != r))
  | _ => .error (unsupported "boolean" op)

def shift (l r : Int64) (shifted : Int64 → Int64 → Int64) : Except Error Value :=
  if 0 ≤ r.toInt ∧ r.toInt < 64 then .ok (integer (shifted l r))
  else .error (.invalidValue s!"invalid shift amount {r.toInt}")

def integerBinary (op : Operator) (l r : Int64) : Except Error Value :=
  match op with
  | .power => (integerPower l r).map integer
  | .times => .ok (integer (l * r))
  | .divide => if r = 0 then .error (.numeric .divideByZero) else .ok (integer (l / r))
  | .modulus => if r = 0 then .error (.numeric .divideByZero) else .ok (integer (l % r))
  | .plus => .ok (integer (l + r))
  | .minus => .ok (integer (l - r))
  | .shiftLeft => shift l r (· <<< ·)
  | .shiftRight => shift l r (· >>> ·)
  | .less => .ok (boolean (l < r))
  | .lessEqual => .ok (boolean (l ≤ r))
  | .greater => .ok (boolean (r < l))
  | .greaterEqual => .ok (boolean (r ≤ l))
  | .equal | .approxEqual => .ok (boolean (l == r))
  | .notEqual => .ok (boolean (l != r))
  | .bitAnd => .ok (integer (l &&& r))
  | .bitXor => .ok (integer (l ^^^ r))
  | .bitOr => .ok (integer (l ||| r))
  | _ => .error (unsupported "integer" op)

def realBinary (op : Operator) (l r : Float) : Except Error Value :=
  match op with
  | .power => (realPower l r).map real
  | .times => .ok (real (l * r))
  | .divide => .ok (real (l / r))
  | .modulus => (realModulus l r).map real
  | .plus => .ok (real (l + r))
  | .minus => .ok (real (l - r))
  | .less => .ok (boolean (l < r))
  | .lessEqual => .ok (boolean (l ≤ r))
  | .greater => .ok (boolean (r < l))
  | .greaterEqual => .ok (boolean (r ≤ l))
  | .equal => .ok (boolean (l == r))
  | .notEqual => .ok (boolean (l != r))
  | .approxEqual => .ok (boolean (approxEqual l r))
  | _ => .error (unsupported "real" op)

def stringBinary (op : Operator) (l r : String) : Except Error Value :=
  match op with
  | .less => .ok (boolean (l < r))
  | .lessEqual => .ok (boolean (!decide (r < l)))
  | .greater => .ok (boolean (r < l))
  | .greaterEqual => .ok (boolean (!decide (l < r)))
  | .equal => .ok (boolean (l == r))
  | .notEqual => .ok (boolean (l != r))
  | .approxEqual => .ok (boolean (l.toList.map Char.toLower == r.toList.map Char.toLower))
  | .plus => .ok (string (l ++ r))
  | _ => .error (unsupported "string" op)

def binary (op : Operator) (l r : Value) : Except Error Value :=
  match l with
  | boolean b =>
    match r.toBoolean? with
    | some c => booleanBinary op b c
    | none => .error (unreadable r "boolean")
  | integer i =>
    match r.toInteger? with
    | some j => integerBinary op i j
    | none => .error (unreadable r "integer")
  | real x =>
    match r.toReal? with
    | some y => realBinary op x y
    | none => .error (unreadable r "real")
  | string s =>
    match r.toText? with
    | some t => stringBinary op s t
    | none => .error (unreadable r "string")
  | null => .error (unsupported l.typeName op)

end Reckoner.Value
