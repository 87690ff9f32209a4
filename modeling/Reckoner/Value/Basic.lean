import Reckoner.Decimal.Layout
import Reckoner.Decimal.Numeral
import Reckoner.Text.Blank
import Reckoner.Value.Kinds

/-!
Values and how they are read as one another. Reading never changes a value. `convert` keeps a
value whose kind is already accepted, and otherwise tries the first accepted kind in the order
boolean, integer, real, string.
-/

namespace Reckoner

inductive Value where
  | boolean (b : Bool)
  | integer (i : Int64)
  | real (r : Float)
  | string (s : String)
  /-- Stands for an optional argument that was left out; no expression produces it. -/
  | null

namespace Value

def kind : Value → Kinds
  | boolean _ => { boolean := true }
  | integer _ => { integer := true }
  | real _ => { real := true }
  | string _ => { string := true }
  | null => { absent := true }

def typeName : Value → String
  | boolean _ => "boolean"
  | integer _ => "integer"
  | real _ => "real"
  | string _ => "string"
  | null => "null"

def isBoolean : Value → Bool
  | boolean _ => true
  | _ => false

def isInteger : Value → Bool
  | integer _ => true
  | _ => false

def isReal : Value → Bool
  | real _ => true
  | _ => false

def isString : Value → Bool
  | string _ => true
  | _ => false

def isNull : Value → Bool
  | null => true
  | _ => false

def text : Value → List Char
  | boolean true => ['t', 'r', 'u', 'e']
  | boolean false => ['f', 'a', 'l', 's', 'e']
  | integer i => Decimal.integer i.toInt
  | real r => Decimal.Layout.value.render r
  | string s => s.toList
  | null => ['<', 'n', 'u', 'l', 'l', '>']

def trueWords : List String := ["true", "yes", "on", "1"]

def falseWords : List String := ["false", "no", "off", "0"]

def booleanWord? (s : String) : Option Bool :=
  let word := String.ofList ((Text.trim s.toList).map Char.toLower)
  if word ∈ trueWords then some true
  else if word ∈ falseWords then some false
  else none

def toBoolean? : Value → Option Bool
  | boolean b => some b
  | integer i => some (i != 0)
  | real r => some (r != 0.0)
  | string s => booleanWord? s
  | null => none

def toInteger? : Value → Option Int64
  | boolean b => some (if b then 1 else 0)
  | integer i => some i
  | real r => some (Double.toInteger r)
  | string s => Decimal.readInteger (Text.trim s.toList)
  | null => none

def toReal? : Value → Option Float
  | boolean b => some (if b then 1.0 else 0.0)
  | integer i => some (Double.ofInteger i)
  | real r => some r
  | string s => Decimal.readReal (Text.trim s.toList)
  | null => none

def toText? : Value → Option String
  | null => none
  | string s => some s
  | v => some (String.ofList v.text)

def convert (v : Value) (accepted : Kinds) : Option Value :=
  if accepted.meets v.kind then some v
  else if accepted.boolean then v.toBoolean?.map boolean
  else if accepted.integer then v.toInteger?.map integer
  else if accepted.real then v.toReal?.map real
  else if accepted.string then v.toText?.map string
  else none

end Value

end Reckoner
