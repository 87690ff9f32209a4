import Reckoner.Machine.Basic
import Reckoner.Program.Compile
import Reckoner.Token.Scan
import Reckoner.Tree.Parse
import Reckoner.Value.Arithmetic

/-!
Running programs. Blocks and formula bodies are programs of their own, and a nested run of one
starts with an empty stack and no failure. The steps of a run are given the means to make such
nested runs, and `run` ties the knot by fuel: each unit allows one more level of nesting.
-/

namespace Reckoner.Machine

abbrev Runner := (depth : Nat) → Program → Environment → List Event →
  Option (Execution × Environment × List Event)

def readName (name : String) : Machine (Option Value) := do
  let env ← environment
  match env.scope.find? name with
  | none =>
    report (.invalidValue s!"undefined variable '{name}'")
    return none
  | some v =>
    match v.storage with
    | .shared id => note (.read id)
    | .own _ => pure ()
    return some (env.scope.read v)

def resolve (slot : Slot) : Machine (Option Value) :=
  match slot with
  | .value v => return some v
  | .name name => readName name
  | .failed => return none
  | .block _ | .openCall => do
    report .missingResult
    return none

def popValue (stack : Stack) : Machine (Option Value × Stack) :=
  match stack with
  | slot :: rest => do
    let v ← resolve slot
    return (v, rest)
  | [] => do
    report .missingResult
    return (none, [])

def arithmetic : Operator → Bool
  | .power | .times | .divide | .modulus | .plus | .minus => true
  | op => op.isComparison

/-- The kinds that both operands are converted to first, if any. Arithmetic with a real is done
in reals, and so is the division of an integer by the integer zero. -/
def promotion (op : Operator) (l r : Value) : Option Kinds :=
  match op with
  | .logicalAnd | .logicalOr => some { boolean := true }
  | .bitAnd | .bitXor | .bitOr | .shiftLeft | .shiftRight => some { integer := true }
  | _ =>
    if !arithmetic op || l.isString then none
    else if l.isReal || r.isReal then some { real := true }
    else
      match op, l, r with
      | .divide, .integer _, .integer 0 => some { real := true }
      | _, _, _ => none

def applyUnary (op : Operator) (v : Value) : Except Error Value :=
  let converted :=
    match op with
    | .logicalNot => v.convert { boolean := true }
    | .bitNot => v.convert { integer := true }
    | _ => some v
  match converted with
  | none => .error (.invalidValue s!"operand of '{op.symbol}' has the wrong type")
  | some operand => operand.unary op

def applyBinary (op : Operator) (l r : Value) : Except Error Value :=
  match promotion op l r with
  | none => Value.binary op l r
  | some kinds =>
    match l.convert kinds, r.convert kinds with
    | some l, some r => Value.binary op l r
    | _, _ => .error (.invalidValue s!"operands of '{op.symbol}' have the wrong type")

def unary (op : Operator) (stack : Stack) : Machine Stack := do
  let (v, rest) ← popValue stack
  match v with
  | none => return .failed :: rest
  | some v => return (← slotOf (applyUnary op v)) :: rest

/-- The right operand is read first. -/
def binary (op : Operator) (stack : Stack) : Machine Stack := do
  let (r, rest) ← popValue stack
  let (l, rest) ← popValue rest
  match l, r with
  | some l, some r => return (← slotOf (applyBinary op l r)) :: rest
  | _, _ => return .failed :: rest

def writeName (name : String) (v : Value) : Machine Slot := do
  let env ← environment
  match env.scope.set name v with
  | .error error => fail error
  | .ok scope =>
    match env.scope.find? name with
    | some ⟨_, .shared id⟩ => note (.wrote id v)
    | _ => pure ()
    setEnvironment { env with scope }
    return .value v

def assign (stack : Stack) : Machine Stack := do
  -- The value is read before the target is looked at, so its failure is the first one.
  let (v, rest) ← popValue stack
  match rest with
  | .name name :: rest =>
    match v with
    | none => return .failed :: rest
    | some v => return (← writeName name v) :: rest
  | .failed :: rest => return .failed :: rest
  | _ => return (← fail .notAssignable) :: rest.drop 1

def nested (runner : Runner) (depth : Nat) (program : Program) : Machine Execution := fun s =>
  match runner depth program s.env s.journal with
  | none => .outOfFuel
  | some (execution, env, journal) => .done execution { s with env, journal }

/-- A condition that is no boolean counts as false. -/
def conditional (runner : Runner) (depth : Nat) (stack : Stack) : Machine Stack := do
  let (v, rest) ← popValue stack
  let holds := (v.bind Value.toBoolean?).getD false
  match rest with
  | .block second :: .block first :: rest => do
    let execution ← nested runner depth (if holds then first else second)
    return (← slotOf execution.last) :: rest
  | _ => stop (.other "Missing block for '?:'")

def operator (runner : Runner) (depth : Nat) (op : Operator) (stack : Stack) : Machine Stack :=
  match op with
  | .comma => return stack
  | .assign => assign stack
  | .question => conditional runner depth stack
  | .logicalNot | .bitNot | .unaryPlus | .unaryMinus => unary op stack
  | .power | .times | .divide | .modulus | .plus | .minus | .shiftLeft | .shiftRight
  | .less | .lessEqual | .greater | .greaterEqual | .equal | .notEqual | .approxEqual
  | .bitAnd | .bitXor | .bitOr | .logicalAnd | .logicalOr => binary op stack
  | _ => stop (.invalidOperator op.symbol)

def splitCall (args : List Slot) : Stack → Option (List Slot × Stack)
  | [] => none
  | .openCall :: rest => some (args, rest)
  | slot :: rest => splitCall (slot :: args) rest

def convertArgument (v : Value) (kinds : Kinds) : Option Value :=
  if v.isNull && kinds.absent then some v else v.convert kinds

def readArguments (f : Function) (index : Nat) : List Slot → Machine (Option (List Value))
  | [] => return some []
  | slot :: more => do
    let argument ←
      match ← resolve slot with
      | none => pure none
      | some v =>
        match convertArgument v (f.signature.kindsAt index) with
        | some v => pure (some v)
        | none => do
          report (.argumentType f.name (index + 1))
          pure none
    -- The others are read in any case, for their failures and accesses.
    let others ← readArguments f (index + 1) more
    return argument.bind fun v => others.map (v :: ·)

def compileText (registry : Registry) (text : String) : Except Error Program := do
  let tokens ← (Token.tokenize text).mapError Token.Fault.toError
  let tree ← (Tree.parse tokens).mapError Tree.Fault.toError
  Program.compile registry tree

def formulaProgram (f : Function) (text : String) : Machine (Except Error Program) := do
  match f.compiled with
  | some program => return .ok program
  | none =>
    let env ← environment
    match compileText env.registry text with
    | .error error => return .error error
    | .ok program =>
      setEnvironment { env with registry := env.registry.setCompiled f.id program }
      return .ok program

def callFormula (runner : Runner) (depth : Nat) (f : Function) (parameters : List String)
    (text : String) (args : List Value) : Machine (Except Error Value) := do
  let env ← environment
  if env.maxDepth.any (· ≤ depth) then
    return .error (.other s!"Maximum call depth exceeded in '{f.name}'")
  else
    match ← formulaProgram f text with
    | .error error => return .error error
    | .ok program =>
      let env ← environment
      let inner := env.scope.push (parameters.zip args)
      setEnvironment { env with scope := inner }
      note (.entered f.id inner.depth)
      let execution ← nested runner (depth + 1) program
      let env ← environment
      setEnvironment { env with scope := env.scope.pop }
      note (.left f.id)
      return execution.last

def apply (runner : Runner) (depth : Nat) (f : Function) (args : List Value) :
    Machine (Except Error Value) := do
  match f.validate args with
  | .error error => return .error error
  | .ok () =>
    match f.body with
    | .formula parameters text => callFormula runner depth f parameters text args
    | _ =>
      let env ← environment
      note (.invoked f.id args)
      return f.invoke env.view args

def call (runner : Runner) (depth : Nat) (name : String) (target : Option FunctionId)
    (stack : Stack) : Machine Stack := do
  match splitCall [] stack with
  | none => stop (.other s!"Missing argument marker for '{name}'")
  | some (slots, rest) =>
    let env ← environment
    -- The function was chosen when the program was compiled, and may be gone since.
    match target.bind env.registry.find? with
    | none => return (← fail (.unknownFunction name)) :: rest
    | some f =>
      match ← readArguments f 0 slots with
      | none => return .failed :: rest
      | some args => return (← slotOf (← apply runner depth f args)) :: rest

def splitBlock (inner : Nat) : Program → Option (Program × Program)
  | [] => none
  | .startBlock :: more =>
    (splitBlock (inner + 1) more).map fun (body, rest) => (.startBlock :: body, rest)
  | .endBlock :: more =>
    match inner with
    | 0 => some ([], more)
    | inner + 1 => (splitBlock inner more).map fun (body, rest) => (.endBlock :: body, rest)
  | instruction :: more =>
    (splitBlock inner more).map fun (body, rest) => (instruction :: body, rest)

theorem length_splitBlock {inner : Nat} {program body rest : Program}
    (h : splitBlock inner program = some (body, rest)) :
    body.length + rest.length < program.length := by
  fun_induction splitBlock inner program generalizing body rest with
  | case1 => cases h
  | case2 inner more ih =>
    obtain ⟨⟨b, r⟩, hbr, heq⟩ := Option.map_eq_some_iff.mp h
    obtain ⟨rfl, rfl⟩ := Prod.mk.inj heq
    have := ih hbr
    simp only [List.length_cons]
    omega
  | case3 more =>
    simp only [Option.some.injEq, Prod.mk.injEq] at h
    simp [← h.1, ← h.2]
  | case4 more inner ih =>
    obtain ⟨⟨b, r⟩, hbr, heq⟩ := Option.map_eq_some_iff.mp h
    obtain ⟨rfl, rfl⟩ := Prod.mk.inj heq
    have := ih hbr
    simp only [List.length_cons]
    omega
  | case5 inner instruction more _ _ ih =>
    obtain ⟨⟨b, r⟩, hbr, heq⟩ := Option.map_eq_some_iff.mp h
    obtain ⟨rfl, rfl⟩ := Prod.mk.inj heq
    have := ih hbr
    simp only [List.length_cons]
    omega

def perform (runner : Runner) (depth : Nat) (program : Program) (stack : Stack) : Machine Stack :=
  match program with
  | [] => return stack
  | .name name :: more => perform runner depth more (.name name :: stack)
  | .value v :: more => perform runner depth more (.value v :: stack)
  | .openCall :: more => perform runner depth more (.openCall :: stack)
  | .startBlock :: more =>
    match h : splitBlock 0 more with
    | none => stop (.other "Unterminated block")
    | some (body, rest) =>
      have := length_splitBlock h
      perform runner depth rest (.block body :: stack)
  | .endBlock :: _ => stop (.other "Unmatched end of block")
  | .call name target :: more => do
    let stack ← call runner depth name target stack
    perform runner depth more stack
  | .operator op :: more => do
    let stack ← operator runner depth op stack
    perform runner depth more stack
termination_by program.length

/-- Reads what is left on the stack, oldest first. Entries without a value are left out. -/
def collect : List Slot → Machine (List Value)
  | [] => return []
  | slot :: more => do
    match ← resolve slot with
    | some v => return v :: (← collect more)
    | none => do
      report .missingResult
      collect more

def runWith (runner : Runner) : Runner := fun depth program env journal =>
  let work : Machine (List Value) := do
    let stack ← perform runner depth program []
    collect stack.reverse
  match work ⟨env, journal, FirstError.none⟩ with
  | .done values s => some (⟨values, s.failure.held⟩, s.env, s.journal)
  | .stopped error s => some (⟨[], some error⟩, s.env, s.journal)
  | .outOfFuel => none

def run : (fuel : Nat) → Runner
  | 0 => fun _ _ _ _ => none
  | fuel + 1 => runWith (run fuel)

end Reckoner.Machine
