import Reckoner.Function.Builtin
import Reckoner.Machine.Run
import Reckoner.Session.Definition

/-!
A session keeps an environment, and tells its host about every failure: the message becomes the
last error and, unless the session is quiet, goes to the sink. Running takes fuel, and gives
nothing when it runs out.
-/

namespace Reckoner

structure Session where
  env : Environment := {}
  /-- The messages that the installed sink received, in order. -/
  sink : Option (List String) := none
  lastError : Option String := none

namespace Session

def empty : Session := {}

def new : Session := { env := { registry := Builtin.register Registry.empty } }

def tell (s : Session) (message : String) : Session :=
  { s with
    lastError := some message
    sink := if s.env.switches.quiet then s.sink else s.sink.map (· ++ [message]) }

def report (s : Session) (error : Error) : Session := s.tell error.message

def reportFault (s : Session) (text : String) (fault : Token.Fault) : Session :=
  s.tell (Token.Fault.diagnostic text fault.position fault.cause.message)

def reporting {α : Type} (s : Session) (result : Except Error α) : Except Error α × Session :=
  match result with
  | .ok a => (.ok a, s)
  | .error error => (.error error, s.report error)

def changing {α : Type} (s : Session) (result : Except Error α) (change : α → Session) :
    Except Error Unit × Session :=
  match result with
  | .ok a => (.ok (), change a)
  | .error error => (.error error, s.report error)

def withScope (s : Session) (scope : Scope) : Session := { s with env := { s.env with scope } }

def withRegistry (s : Session) (registry : Registry) : Session :=
  { s with env := { s.env with registry } }

def withSwitches (s : Session) (switches : Switches) : Session :=
  { s with env := { s.env with switches } }

def withMaxDepth (s : Session) (maxDepth : Option Nat) : Session :=
  { s with env := { s.env with maxDepth } }

def compileText (s : Session) (text : String) : Except Error Program × Session :=
  match Token.tokenize text with
  | .error fault => (.error fault.toError, s.reportFault text fault)
  | .ok tokens =>
    match Tree.parse tokens with
    | .error fault => s.reporting (.error fault.toError)
    | .ok tree => s.reporting (Program.compile s.env.registry tree)

def execution (fuel : Nat) (s : Session) (program : Program) : Option (Execution × Session) :=
  (Machine.run fuel 0 program s.env []).map fun (e, env, _) => (e, { s with env })

def executeAll (fuel : Nat) (s : Session) (program : Program) :
    Option (Except Error (List Value) × Session) :=
  (s.execution fuel program).map fun (e, s) => s.reporting e.all

/-- Runs a program for its last value. That a program leaves none is not reported. -/
def execute (fuel : Nat) (s : Session) (program : Program) :
    Option (Except Error Value × Session) :=
  (s.executeAll fuel program).map fun (values, s) => (values.bind Execution.lastOf, s)

def evaluateAll (fuel : Nat) (s : Session) (text : String) :
    Option (Except Error (List Value) × Session) :=
  match s.compileText text with
  | (.error error, s) => some (.error error, s)
  | (.ok program, s) => s.executeAll fuel program

def evaluate (fuel : Nat) (s : Session) (text : String) : Option (Except Error Value × Session) :=
  match s.compileText text with
  | (.error error, s) => some (.error error, s)
  | (.ok program, s) => s.execute fuel program

def value? (s : Session) (name : String) : Option Value := s.env.scope.get? name

def «variables» (s : Session) : List (String × Value) :=
  s.env.scope.names.filterMap fun name => (s.value? name).map fun v => (name, v)

def createVariable (s : Session) (name : String) (value : Value) : Except Error Unit × Session :=
  s.changing (s.env.scope.create name value) s.withScope

def createShared (s : Session) (name : String) (cell : CellId) : Except Error Unit × Session :=
  s.changing (s.env.scope.createShared name cell) s.withScope

def removeVariable (s : Session) (name : String) : Bool × Session :=
  let (removed, scope) := s.env.scope.remove name
  (removed, s.withScope scope)

def registerNative (s : Session) (name signature : String) (call : Native) :
    Except Error Unit × Session :=
  s.changing (s.env.registry.addNative name signature call) fun (_, r) => s.withRegistry r

def registerObject (s : Session) (name signature : String) (object : NativeObject) :
    Except Error Unit × Session :=
  s.changing (s.env.registry.addObject name signature object) fun (_, r) => s.withRegistry r

def registerFormula (s : Session) (name : String) (parameters : List String) (body : String) :
    Except Error Unit × Session :=
  s.changing (s.env.registry.addFormula name parameters body) fun (_, r) => s.withRegistry r

def define (s : Session) (text : String) : Except Error Unit × Session :=
  match Definition.read text with
  | some d => s.registerFormula d.name d.parameters d.body
  | none => s.changing (.error (.grammar "Invalid function definition")) fun () => s

def removeFunction (s : Session) (name : String) : Bool × Session :=
  let (removed, registry) := s.env.registry.remove name
  (removed, s.withRegistry registry)

def resetFunctions (s : Session) : Session := s.withRegistry s.env.registry.reset

end Session

end Reckoner
