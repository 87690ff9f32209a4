import Reckoner.Function.Registry
import Reckoner.Scope

/-!
What the stack machine works on. A step that yields no value leaves a failed entry on the
stack and goes on; the first failure is kept. Only a malformed program stops a run. A run may
also need more nested runs than its fuel allows, which is neither of the two.
-/

namespace Reckoner

structure Environment where
  switches : Switches := {}
  scope : Scope := {}
  registry : Registry := {}
  /-- How deep calls of formulas may nest, if there is a limit. -/
  maxDepth : Option Nat := none

namespace Environment

def view (env : Environment) : View where
  switches := env.switches
  lookup := env.scope.get?
  names := env.scope.names
  functions := env.registry.functions.map Function.listing
  maxDepth := env.maxDepth

theorem hasReference_view (env : Environment) :
    env.view.hasReference = env.registry.hasReference := by
  funext name
  simp only [View.hasReference, view, List.any_map, Registry.hasReference]
  refine congrArg (List.any _) (funext fun f => ?_)
  cases hcompiled : f.compiled <;> simp [Function.listing, hcompiled]

end Environment

structure Execution where
  values : List Value
  failure : Option Error

namespace Execution

def all (e : Execution) : Except Error (List Value) :=
  match e.failure with
  | some error => .error error
  | none => .ok e.values

def lastOf (values : List Value) : Except Error Value :=
  match values.getLast? with
  | some v => .ok v
  | none => .error .missingResult

def last (e : Execution) : Except Error Value := e.all.bind lastOf

end Execution

namespace Machine

/-- An entry of the stack. Names are read when an operator, a call or the end of the run
consumes them. -/
inductive Slot where
  | name (name : String)
  | value (v : Value)
  | block (body : Program)
  | openCall
  | failed

abbrev Stack := List Slot

inductive Event where
  | read (cell : CellId)
  | wrote (cell : CellId) (value : Value)
  | invoked (function : FunctionId) (args : List Value)
  /-- A formula was entered, and this many frames are in place now. -/
  | entered (function : FunctionId) (frames : Nat)
  | left (function : FunctionId)

structure State where
  env : Environment
  /-- Newest first. -/
  journal : List Event
  failure : FirstError

end Machine

inductive Machine.Outcome (α : Type) where
  | done (result : α) (state : Machine.State)
  /-- The program is malformed. -/
  | stopped (error : Error) (state : Machine.State)
  | outOfFuel

def Machine (α : Type) := Machine.State → Machine.Outcome α

namespace Machine

instance : Monad Machine where
  pure a := fun s => .done a s
  bind m f := fun s =>
    match m s with
    | .done a s' => f a s'
    | .stopped error s' => .stopped error s'
    | .outOfFuel => .outOfFuel

def environment : Machine Environment := fun s => .done s.env s

def setEnvironment (env : Environment) : Machine Unit := fun s => .done () { s with env }

def note (event : Event) : Machine Unit :=
  fun s => .done () { s with journal := event :: s.journal }

def report (error : Error) : Machine Unit :=
  fun s => .done () { s with failure := s.failure.set error }

def stop {α : Type} (error : Error) : Machine α := fun s => .stopped error s

def fail (error : Error) : Machine Slot := do
  report error
  return .failed

def slotOf (result : Except Error Value) : Machine Slot :=
  match result with
  | .ok v => return .value v
  | .error error => fail error

theorem bind_eq {α β : Type} (m : Machine α) (f : α → Machine β) (s : State) :
    (m >>= f) s =
      match m s with
      | .done a s' => f a s'
      | .stopped error s' => .stopped error s'
      | .outOfFuel => .outOfFuel := rfl

theorem pure_eq {α : Type} (a : α) (s : State) : (pure a : Machine α) s = .done a s := rfl

end Machine

end Reckoner
