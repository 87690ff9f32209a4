import Reckoner.Function.Registry
import Reckoner.Tree.Basic

/-!
Compiling syntax trees. Compound assignments and steps are spelled out:

* `a op= b` is `a a b op =`
* `++a` is `a a 1 + =`, and leaves the new value
* `a++` is `a a 1 + = 1 -`, and leaves the old one

A call is a mark, the arguments, an absent value for every optional argument left out, and the
function that is chosen for it.
-/

namespace Reckoner.Program

def target (tree : Tree) : Except Error String :=
  match tree.name? with
  | some name => .ok name
  | none => .error .notAssignable

def operatorOf (tree : Tree) : Except Error Operator :=
  match tree.operator? with
  | some op => .ok op
  | none => .error (.other "Expected an operator")

def ofToken (token : Token) : Except Error Program :=
  match token.kind with
  | .name name => .ok [.name name]
  | .integer i => .ok [.value (.integer i)]
  | .real r => .ok [.value (.real r)]
  | .string s => .ok [.value (.string s)]
  | .operator op => .error (.grammar s!"Unexpected operator '{op.symbol}'")

def step (name : String) (op : Operator) : Program :=
  [.name name, .name name, .value (.integer 1),
   .operator (if op = .increment then .plus else .minus), .operator .assign]

def undo (op : Operator) : Program :=
  [.value (.integer 1), .operator (if op = .increment then .minus else .plus)]

def prefixed (op : Operator) : Operator :=
  match op with
  | .plus => .unaryPlus
  | .minus => .unaryMinus
  | op => op

def choose (registry : Registry) (name : String) (count : Nat) : Except Error Function :=
  let candidates := registry.named name
  match (candidates.find? fun f => f.signature.accepts count).or candidates.getLast? with
  | some f => .ok f
  | none => .error (.unknownFunction name)

def omitted (name : String) (f : Function) (count : Nat) : Except Error Program :=
  if count < f.arity then
    if f.signature.optionalFrom count then .ok (List.replicate (f.arity - count) (.value .null))
    else if f.signature.variadic then .error (.tooFewArguments name f.arity count)
    else .error (.argumentCount name f.arity count)
  else if f.arity < count ∧ ¬ f.signature.variadic then
    .error (.argumentCount name f.arity count)
  else .ok []

mutual

def compile (registry : Registry) : Tree → Except Error Program
  | .leaf token => ofToken token
  | .node .list [left, _, right] => do
    let l ← compile registry left
    let r ← compile registry right
    return l ++ r ++ [Instruction.operator .comma]
  | .node .assignment [left, op, right] => do
    let name ← target left
    let op ← operatorOf op
    let value ← compile registry right
    match op.compoundBase with
    | some base =>
      return [Instruction.name name, .name name] ++ value ++
        [Instruction.operator base, .operator .assign]
    | none => return [Instruction.name name] ++ value ++ [Instruction.operator .assign]
  | .node .conditional [condition, _, first, _, second] => do
    let a ← compile registry first
    let b ← compile registry second
    let c ← compile registry condition
    return [Instruction.startBlock] ++ a ++ [Instruction.endBlock, .startBlock] ++ b ++
      [Instruction.endBlock] ++ c ++ [Instruction.operator .question]
  | .node .unary [op, operand] => do
    let op ← operatorOf op
    if op = .increment ∨ op = .decrement then
      let name ← target operand
      return step name op
    else
      let value ← compile registry operand
      return value ++ [Instruction.operator (prefixed op)]
  | .node .suffix [operand, op] => do
    let name ← target operand
    let op ← operatorOf op
    return step name op ++ undo op
  | .node .suffix [name, _, _] => compileCall registry name []
  | .node .suffix [name, _, .node _ args, _] => compileCall registry name args
  | .node .suffix [name, _, .leaf _, _] => compileCall registry name []
  | .node .group [_, inner, _] => compile registry inner
  | .node _ [left, op, right] => do
    let l ← compile registry left
    let r ← compile registry right
    let op ← operatorOf op
    return l ++ r ++ [Instruction.operator op]
  | .node rule children =>
    .error (.other s!"Unexpected {rule.name} node with {children.length} children")

def compileCall (registry : Registry) (callee : Tree) (args : List Tree) :
    Except Error Program := do
  let name ←
    match callee.name? with
    | some name => .ok name
    | none => .error (.grammar "Expected a function name")
  let f ← choose registry name args.length
  let written ← compileAll registry args
  let added ← omitted name f args.length
  return [Instruction.openCall] ++ written ++ added ++ [Instruction.call name (some f.id)]

def compileAll (registry : Registry) : List Tree → Except Error Program
  | [] => .ok []
  | tree :: more => do
    let first ← compile registry tree
    let others ← compileAll registry more
    return first ++ others

end

end Reckoner.Program
