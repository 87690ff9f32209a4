import Reckoner.Decimal.Layout
import Reckoner.Operator
import Reckoner.Text.Escape

/-!
Tokens and their spelling. A token remembers the byte at which it starts.
-/

namespace Reckoner

inductive Token.Kind where
  | name (name : String)
  | operator (op : Operator)
  | integer (i : Int64)
  | real (r : Float)
  | string (s : String)

structure Token where
  kind : Token.Kind
  position : Nat

namespace Token

def Kind.chars : Kind → List Char
  | name n => n.toList
  | operator op => op.chars
  | integer i => Decimal.integer i.toInt
  | real r => Decimal.Layout.literal.render r
  | string s => '"' :: Text.Escape.encode s.toList ++ ['"']

def Kind.operator? : Kind → Option Operator
  | operator op => some op
  | _ => none

def Kind.name? : Kind → Option String
  | name n => some n
  | _ => none

def chars (token : Token) : List Char := token.kind.chars

def text (token : Token) : String := String.ofList token.chars

def operator? (token : Token) : Option Operator := token.kind.operator?

def name? (token : Token) : Option String := token.kind.name?

end Token

end Reckoner
