/-!
Why an expression fails. Each cause keeps what its message tells, and the wording is in
`Error.message` alone.
-/

namespace Reckoner

inductive NumericError where
  | zeroToNegativePower
  | powerFailed
  | realTooBigForInteger
  | nanOperation
  | nonIntegerPowerOfNegative
  | divideByZero
deriving DecidableEq, Repr

namespace NumericError

def message : NumericError → String
  | zeroToNegativePower => "zero to negative power is undefined"
  | powerFailed => "power failed"
  | realTooBigForInteger => "real too big for integer"
  | nanOperation => "operation on NaN"
  | nonIntegerPowerOfNegative => "non-integer power of negative"
  | divideByZero => "divide by zero"

end NumericError

inductive Error where
  /-- A text that does not split into tokens; the position counts bytes. -/
  | lexical (position : Nat) (reason : String)
  /-- Tokens that do not form an expression. -/
  | grammar (reason : String)
  | unknownFunction (name : String)
  | argumentCount (name : String) (expected found : Nat)
  | tooFewArguments (name : String) (minimum found : Nat)
  /-- The target of an assignment is no variable. -/
  | notAssignable
  | numeric (cause : NumericError)
  /-- An argument, counted from one, that does not convert to its declared type. -/
  | argumentType (name : String) (position : Nat)
  /-- An operator that a program cannot run. -/
  | invalidOperator (symbol : String)
  | invalidValue (reason : String)
  | signatureLetter (letter : Char)
  | invalidName (name : String)
  | nameTooLong
  /-- A run that left something other than values. -/
  | missingResult
  | other (reason : String)
deriving DecidableEq, Repr

namespace Error

def message : Error → String
  | lexical position reason => s!"{reason} at position {position}"
  | grammar reason => s!"Syntax error: {reason}"
  | unknownFunction name => s!"Invalid Function '{name}'"
  | argumentCount name expected found =>
    s!"Function '{name}' called with wrong number of arguments: expected {expected}, found {found}"
  | tooFewArguments name minimum found =>
    s!"Function '{name}' called with too few arguments: expected at least {minimum}, found {found}"
  | notAssignable => "Non lvalue for assignment"
  | numeric cause => s!"Numeric error: {cause.message}"
  | argumentType name position => s!"Invalid type for function argument {position} of '{name}'"
  | invalidOperator symbol => s!"Invalid operator '{symbol}'"
  | invalidValue reason => s!"Invalid value: {reason}"
  | signatureLetter letter => s!"Invalid argument type char '{letter}'"
  | invalidName name => s!"Invalid variable name '{name}'"
  | nameTooLong => "String too long for heapless buffer"
  | missingResult => "Expression did not produce a value"
  | other reason => reason

end Error

/-- Holds the first error reported to it; what follows is only a consequence. -/
structure FirstError where
  held : Option Error := none
deriving DecidableEq, Repr

namespace FirstError

def none : FirstError := {}

def isSet (slot : FirstError) : Bool := slot.held.isSome

def set (slot : FirstError) (error : Error) : FirstError :=
  match slot.held with
  | some _ => slot
  | .none => ⟨some error⟩

def take (slot : FirstError) : Option Error × FirstError := (slot.held, none)

@[simp] theorem set_set (slot : FirstError) (first second : Error) :
    (slot.set first).set second = slot.set first := by
  cases h : slot.held <;> simp [set, h]

@[simp] theorem isSet_set (slot : FirstError) (error : Error) : (slot.set error).isSet = true := by
  cases h : slot.held <;> simp [set, isSet, h]

end FirstError

end Reckoner
