import Reckoner.Error
import Reckoner.Text.Offset

/-!
Names of variables, parameters and functions: a letter or an underscore, then letters, digits
and underscores, and no longer than 64 bytes.
-/

namespace Reckoner.Name

def maxBytes : Nat := 64

def isStart (c : Char) : Bool := c == '_' || c.isAlpha

def isPart (c : Char) : Bool := c == '_' || c.isAlphanum

def isValid (name : String) : Bool :=
  match name.toList with
  | [] => false
  | c :: cs => isStart c && cs.all isPart

def fit (name : String) : Except Error String :=
  if Text.byteLength name.toList ≤ maxBytes then .ok name else .error .nameTooLong

def check (name : String) : Except Error String :=
  if isValid name then fit name else .error (.invalidName name)

def checkFunction (name : String) : Except Error String :=
  if isValid name then fit name else .error (.other s!"Invalid function name '{name}'")

end Reckoner.Name
