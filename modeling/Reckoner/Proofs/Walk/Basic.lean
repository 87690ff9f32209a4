import Reckoner.Machine.Run
import Reckoner.Proofs.Program.Clauses

/-!
Evaluating syntax trees without programs. Operands are walked from left to right. A variable that
is an operand on its own is read only by what consumes it, and there the right operand comes first.
Of a conditional only the chosen branch is walked. Branches and the bodies of formulas are walked
apart, with no failure so far, and each unit of fuel allows one more level of them.
-/

namespace Reckoner.Walk

open Machine

inductive Operand where
  /-- A variable that was not read yet. -/
  | name (name : String)
  | value (v : Value)
  /-- There is no value, and why was reported. -/
  | failed

def Operand.read : Operand → Machine (Option Value)
  | name n => readName n
  | value v => return some v
  | failed => return none

def ofResult : Except Error Value → Machine Operand
  | .ok v => return .value v
  | .error error => do
    report error
    return .failed

abbrev Walker := (depth : Nat) → Tree → Environment → List Event →
  Option (Execution × Environment × List Event)

def within (walker : Walker) (depth : Nat) (tree : Tree) : Machine Execution := fun s =>
  match walker depth tree s.env s.journal with
  | none => .outOfFuel
  | some (execution, env, journal) => .done execution { s with env, journal }

def unary (op : Operator) (operand : Operand) : Machine Operand := do
  match ← operand.read with
  | none => return .failed
  | some v => ofResult (applyUnary op v)

def binary (op : Operator) (left right : Operand) : Machine Operand := do
  let r ← right.read
  let l ← left.read
  match l, r with
  | some l, some r => ofResult (applyBinary op l r)
  | _, _ => return .failed

def write (name : String) (v : Value) : Machine Operand := do
  let env ← environment
  match env.scope.set name v with
  | .error error => ofResult (.error error)
  | .ok scope =>
    match env.scope.find? name with
    | some ⟨_, .shared id⟩ => note (.wrote id v)
    | _ => pure ()
    setEnvironment { env with scope }
    return .value v

def assign (name : String) (operand : Operand) : Machine Operand := do
  match ← operand.read with
  | none => return .failed
  | some v => write name v

def step (name : String) (op : Operator) : Machine Operand := do
  let sum ← binary (if op = .increment then .plus else .minus) (.name name) (.value (.integer 1))
  assign name sum

def arguments (f : Function) (index : Nat) : List Operand → Machine (Option (List Value))
  | [] => return some []
  | operand :: more => do
    let argument ←
      match ← operand.read with
      | none => pure none
      | some v =>
        match convertArgument v (f.signature.kindsAt index) with
        | some v => pure (some v)
        | none => do
          report (.argumentType f.name (index + 1))
          pure none
    let others ← arguments f (index + 1) more
    return argument.bind fun v => others.map (v :: ·)

def bodyOf (registry : Registry) (text : String) : Except Error Tree := do
  let tokens ← (Token.tokenize text).mapError Token.Fault.toError
  let tree ← (Tree.parse tokens).mapError Tree.Fault.toError
  let _ ← Program.compile registry tree
  return tree

def inFrame (f : Function) (bindings : List (String × Value)) (work : Machine Execution) :
    Machine Execution := do
  let env ← environment
  let inner := env.scope.push bindings
  setEnvironment { env with scope := inner }
  note (.entered f.id inner.depth)
  let execution ← work
  let env ← environment
  setEnvironment { env with scope := env.scope.pop }
  note (.left f.id)
  return execution

def callFormula (walker : Walker) (depth : Nat) (f : Function) (parameters : List String)
    (text : String) (args : List Value) : Machine (Except Error Value) := do
  let env ← environment
  if env.maxDepth.any (· ≤ depth) then
    return .error (.other s!"Maximum call depth exceeded in '{f.name}'")
  else
    -- The body is walked and not run, but natives can see that the formula is compiled by now.
    let _ ← formulaProgram f text
    match bodyOf env.registry text with
    | .error error => return .error error
    | .ok body =>
      let execution ← inFrame f (parameters.zip args) (within walker (depth + 1) body)
      return execution.last

def apply (walker : Walker) (depth : Nat) (f : Function) (args : List Value) :
    Machine (Except Error Value) := do
  match f.validate args with
  | .error error => return .error error
  | .ok () =>
    match f.body with
    | .formula parameters text => callFormula walker depth f parameters text args
    | _ =>
      let env ← environment
      note (.invoked f.id args)
      return f.invoke env.view args

/-- Calls the function that the name means for `count` arguments, with absent values for the
optional ones left out. -/
def call (walker : Walker) (depth : Nat) (name : String) (count : Nat) (operands : List Operand) :
    Machine Operand := do
  let env ← environment
  match Program.choose env.registry name count with
  | .error error => ofResult (.error error)
  | .ok f =>
    let absent := List.replicate (f.arity - count) (Operand.value .null)
    match ← arguments f 0 (operands ++ absent) with
    | none => return .failed
    | some args => ofResult (← apply walker depth f args)

def choice (walker : Walker) (depth : Nat) (first second : Tree) (condition : Operand) :
    Machine Operand := do
  let v ← condition.read
  let holds := (v.bind Value.toBoolean?).getD false
  let execution ← within walker depth (if holds then first else second)
  ofResult execution.last

def literal (token : Token) : Operand :=
  match token.kind with
  | .name name => .name name
  | .integer i => .value (.integer i)
  | .real r => .value (.real r)
  | .string s => .value (.string s)
  | .operator _ => .failed

mutual

def expression (walker : Walker) (depth : Nat) : Tree → Machine Operand
  | .leaf token => return literal token
  | .node .assignment [target, op, right] => do
    let r ← expression walker depth right
    match target.name?, op.operator?.bind Operator.compoundBase with
    | some name, some base => assign name (← binary base (.name name) r)
    | some name, none => assign name r
    | none, _ => return .failed
  | .node .conditional [condition, _, first, _, second] => do
    let c ← expression walker depth condition
    choice walker depth first second c
  | .node .unary [op, operand] =>
    match op.operator? with
    | none => return .failed
    | some op =>
      if op = .increment ∨ op = .decrement then
        match operand.name? with
        | some name => step name op
        | none => return .failed
      else do
        let o ← expression walker depth operand
        unary (Program.prefixed op) o
  | .node .suffix [operand, op] =>
    match operand.name?, op.operator? with
    | some name, some op => do
      let new ← step name op
      binary (if op = .increment then .minus else .plus) new (.value (.integer 1))
    | _, _ => return .failed
  | .node .suffix [callee, _, _] =>
    match callee.name? with
    | some name => call walker depth name 0 []
    | none => return .failed
  | .node .suffix [callee, _, .node .arguments args, _] => do
    let operands ← expressions walker depth args
    match callee.name? with
    | some name => call walker depth name args.length operands
    | none => return .failed
  | .node .group [_, inner, _] => expression walker depth inner
  | .node _ [left, op, right] => do
    let l ← expression walker depth left
    let r ← expression walker depth right
    match op.operator? with
    | some op => binary op l r
    | none => return .failed
  | .node _ _ => return .failed

def expressions (walker : Walker) (depth : Nat) : List Tree → Machine (List Operand)
  | [] => return []
  | tree :: more => do
    let first ← expression walker depth tree
    let others ← expressions walker depth more
    return first :: others

end

def collect : List Operand → Machine (List Value)
  | [] => return []
  | operand :: more => do
    match ← operand.read with
    | some v => return v :: (← collect more)
    | none => do
      report .missingResult
      collect more

def walkWith (walker : Walker) : Walker := fun depth tree env journal =>
  let work : Machine (List Value) := do
    let operands ← expressions walker depth tree.elements
    collect operands
  match work ⟨env, journal, FirstError.none⟩ with
  | .done values s => some (⟨values, s.failure.held⟩, s.env, s.journal)
  | .stopped error s => some (⟨[], some error⟩, s.env, s.journal)
  | .outOfFuel => none

def walk : (fuel : Nat) → Walker
  | 0 => fun _ _ _ _ => none
  | fuel + 1 => walkWith (walk fuel)

end Reckoner.Walk
