/-!
Operators: their spelling, how they group into assignments and comparisons, and the longest
operator at the front of a text.
-/

namespace Reckoner

inductive Operator where
  | openBracket | closeBracket
  | logicalNot | bitNot
  | increment | decrement
  | unaryPlus | unaryMinus
  | power
  | times | divide | modulus
  | plus | minus
  | shiftLeft | shiftRight
  | less | lessEqual | greater | greaterEqual
  | equal | notEqual | approxEqual
  | bitAnd | bitXor | bitOr
  | logicalAnd | logicalOr
  | question | colon
  | assign
  | assignPlus | assignMinus | assignTimes | assignDivide | assignModulus
  | assignAnd | assignXor | assignOr | assignShiftLeft | assignShiftRight
  | comma
  | startBlock | endBlock
deriving DecidableEq, Repr

namespace Operator

def chars : Operator → List Char
  | openBracket => ['(']
  | closeBracket => [')']
  | logicalNot => ['!']
  | bitNot => ['~']
  | increment => ['+', '+']
  | decrement => ['-', '-']
  | unaryPlus | plus => ['+']
  | unaryMinus | minus => ['-']
  | power => ['*', '*']
  | times => ['*']
  | divide => ['/']
  | modulus => ['%']
  | shiftLeft => ['<', '<']
  | shiftRight => ['>', '>']
  | less => ['<']
  | lessEqual => ['<', '=']
  | greater => ['>']
  | greaterEqual => ['>', '=']
  | equal => ['=', '=']
  | notEqual => ['!', '=']
  | approxEqual => ['~', '=']
  | bitAnd => ['&']
  | bitXor => ['^']
  | bitOr => ['|']
  | logicalAnd => ['&', '&']
  | logicalOr => ['|', '|']
  | question => ['?']
  | colon => [':']
  | assign => ['=']
  | assignPlus => ['+', '=']
  | assignMinus => ['-', '=']
  | assignTimes => ['*', '=']
  | assignDivide => ['/', '=']
  | assignModulus => ['%', '=']
  | assignAnd => ['&', '=']
  | assignXor => ['^', '=']
  | assignOr => ['|', '=']
  | assignShiftLeft => ['<', '<', '=']
  | assignShiftRight => ['>', '>', '=']
  | comma => [',']
  | startBlock => ['\x7b']
  | endBlock => ['\x7d']

def symbol (op : Operator) : String := String.ofList op.chars

def compoundBase : Operator → Option Operator
  | assignPlus => some plus
  | assignMinus => some minus
  | assignTimes => some times
  | assignDivide => some divide
  | assignModulus => some modulus
  | assignAnd => some bitAnd
  | assignXor => some bitXor
  | assignOr => some bitOr
  | assignShiftLeft => some shiftLeft
  | assignShiftRight => some shiftRight
  | _ => none

def isAssignment (op : Operator) : Bool := op == assign || op.compoundBase.isSome

def isComparison : Operator → Bool
  | less | lessEqual | greater | greaterEqual | equal | notEqual | approxEqual => true
  | _ => false

/-- The operators that occur in texts, longer spellings first. Signs are scanned as the binary
operators, and blocks occur in programs only. -/
def scannable : List Operator :=
  [assignShiftLeft, assignShiftRight,
   notEqual, approxEqual, assignTimes, power, assignDivide, assignModulus, increment, assignPlus,
   decrement, assignMinus, lessEqual, shiftLeft, greaterEqual, shiftRight, equal, logicalAnd,
   assignAnd, assignXor, logicalOr, assignOr,
   openBracket, closeBracket, logicalNot, bitNot, times, divide, modulus, plus, minus, less,
   greater, assign, bitAnd, bitXor, bitOr, question, colon, comma]

def rest? : (expected cs : List Char) → Option (List Char)
  | [], cs => some cs
  | _ :: _, [] => none
  | e :: es, c :: cs => if e = c then rest? es cs else none

def scan? (cs : List Char) : Option (Operator × List Char) :=
  scannable.findSome? fun op => (rest? op.chars cs).map fun rest => (op, rest)

theorem eq_append_of_rest? {expected cs rest : List Char} (h : rest? expected cs = some rest) :
    cs = expected ++ rest := by
  induction expected generalizing cs with
  | nil => simpa [rest?] using h
  | cons e es ih =>
    cases cs with
    | nil => simp [rest?] at h
    | cons c cs =>
      rw [rest?] at h
      split at h
      · next hec => simp [hec, ih h]
      · cases h

theorem chars_ne_nil (op : Operator) : op.chars ≠ [] := by
  cases op <;> simp [chars]

theorem eq_append_of_scan? {cs rest : List Char} {op : Operator}
    (h : scan? cs = some (op, rest)) : cs = op.chars ++ rest := by
  obtain ⟨found, -, hrest⟩ := List.exists_of_findSome?_eq_some h
  obtain ⟨tail, htail, heq⟩ := Option.map_eq_some_iff.mp hrest
  obtain ⟨rfl, rfl⟩ := Prod.mk.inj heq
  exact eq_append_of_rest? htail

theorem length_lt_of_scan? {cs rest : List Char} {op : Operator}
    (h : scan? cs = some (op, rest)) : rest.length < cs.length := by
  have hpos := List.length_pos_iff.mpr op.chars_ne_nil
  rw [eq_append_of_scan? h, List.length_append]
  omega

end Operator

end Reckoner
