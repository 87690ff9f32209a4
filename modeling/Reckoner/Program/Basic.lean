import Reckoner.Operator
import Reckoner.Text.Escape
import Reckoner.Value.Basic

/-!
Programs for the stack machine: operands before their operator, except that the branches of a
conditional stand ahead of its condition, each between the marks of a block.
-/

namespace Reckoner

/-- Tells a registered function from all others, also from later ones of the same name. -/
structure FunctionId where
  number : Nat
deriving DecidableEq, Repr

inductive Instruction where
  /-- A variable, which is read when something consumes it. -/
  | name (name : String)
  | value (v : Value)
  | operator (op : Operator)
  /-- Marks where the arguments of a call begin. -/
  | openCall
  /-- A call of the function that was chosen for it; without a target there is none to call. -/
  | call (name : String) (target : Option FunctionId)
  | startBlock
  | endBlock

namespace Instruction

def chars : Instruction → List Char
  | name n => n.toList
  | value (.string s) => '"' :: Text.Escape.encode s.toList ++ ['"']
  | value v => v.text
  | operator op => op.chars
  | openCall => ['[']
  | call n _ => n.toList ++ ['(', ')']
  | startBlock => ['\x7b']
  | endBlock => ['\x7d']

def calls (instruction : Instruction) (callee : String) : Bool :=
  match instruction with
  | call n _ => n == callee
  | _ => false

end Instruction

abbrev Program := List Instruction

namespace Program

def text (program : Program) : String :=
  String.ofList (List.intercalate [' '] (program.map Instruction.chars))

def references (program : Program) (callee : String) : Bool :=
  program.any fun instruction => instruction.calls callee

end Program

end Reckoner
