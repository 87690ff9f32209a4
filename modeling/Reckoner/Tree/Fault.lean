import Reckoner.Error
import Reckoner.Operator

/-!
Reasons why tokens do not form an expression.
-/

namespace Reckoner.Tree

inductive Fault where
  | missingOperand (op : Operator)
  | missingAssignment
  | missingColon
  | missingClose
  | missingExpression
  | emptyExpression
  /-- The part that could be read, and what is left behind it. -/
  | leftover (read remaining : String)
deriving DecidableEq, Repr

namespace Fault

def message : Fault → String
  | missingOperand op => s!"Missing operand after '{op.symbol}'"
  | missingAssignment => "Missing assignment expression after comma"
  | missingColon => "Missing colon for '?:'"
  | missingClose => "Missing close round bracket"
  | missingExpression => "Missing expression after open round bracket"
  | emptyExpression => "Empty expression"
  | leftover read remaining => s!"Syntax Error >>{read}<< {remaining}"

def toError (fault : Fault) : Error := .grammar fault.message

end Fault

end Reckoner.Tree
