import Reckoner.Function.Signature
import Reckoner.Program.Basic

/-!
Functions: natives of the host, objects of the host with a check of their own, and formulas,
whose text is compiled when they are first called.
-/

namespace Reckoner

structure Switches where
  /-- Messages are kept from the sink. -/
  quiet : Bool := false
  debug : Bool := false
  /-- Trigonometric functions take degrees. -/
  degrees : Bool := false
deriving DecidableEq, Repr

namespace Switches

def ofBits (bits : Nat) : Switches := ⟨bits.testBit 0, bits.testBit 1, bits.testBit 2⟩

def toBits (s : Switches) : Nat :=
  (if s.quiet then 1 else 0) + (if s.debug then 2 else 0) + (if s.degrees then 4 else 0)

end Switches

/-- What a native can see of a registered function, told by its number from all others. -/
structure Listing where
  id : FunctionId
  name : String
  /-- The parameters and the text, if it is a formula. -/
  formula : Option (List String × String)
  signature : Signature
  builtin : Bool
  compiled : Option Program

/-- What a native can see of the session that calls it. It can change nothing there. -/
structure View where
  switches : Switches
  lookup : String → Option Value
  /-- The names of the globals. -/
  names : List String
  functions : List Listing
  maxDepth : Option Nat

def View.hasReference (view : View) (name : String) : Bool :=
  view.functions.any fun f => f.compiled.any (·.references name)

abbrev Native := View → List Value → Except Error Value

structure NativeObject where
  call : Native
  validate : List Value → Except Error Unit
  /-- Joins the functions of its name in place of replacing them. -/
  overload : Bool

inductive Function.Body where
  | native (call : Native)
  | object (object : NativeObject)
  | formula (parameters : List String) (text : String)

structure Function where
  id : FunctionId
  name : String
  body : Function.Body
  signature : Signature
  builtin : Bool
  /-- The program of a formula that was called since the registry last changed. -/
  compiled : Option Program

namespace Function

def arity (f : Function) : Nat := f.signature.arity

def isFormula (f : Function) : Bool :=
  match f.body with
  | .formula _ _ => true
  | _ => false

def listing (f : Function) : Listing where
  id := f.id
  name := f.name
  formula :=
    match f.body with
    | .formula parameters text => some (parameters, text)
    | _ => none
  signature := f.signature
  builtin := f.builtin
  compiled := f.compiled

/-- An argument that is absent has to be optional, and an object has its own say. -/
def validate (f : Function) (args : List Value) : Except Error Unit :=
  match args.zipIdx.find? fun (arg, i) => arg.isNull && !(f.signature.kindsAt i).absent with
  | some (_, i) => .error (.argumentType f.name (i + 1))
  | none =>
    match f.body with
    | .object object => object.validate args
    | _ => .ok ()

def invoke (f : Function) (view : View) (args : List Value) : Except Error Value :=
  match f.body with
  | .native call => call view args
  | .object object => object.call view args
  | .formula _ _ => .error (.other s!"'{f.name}' is a user function")

def chars (f : Function) : List Char :=
  match f.body with
  | .formula parameters text =>
    f.name.toList ++ ['('] ++ List.intercalate [',', ' '] (parameters.map String.toList) ++
      [')', '=', ' '] ++ text.toList
  | _ => f.name.toList ++ ['('] ++ f.signature.chars ++ [')']

def text (f : Function) : String := String.ofList f.chars

end Function

end Reckoner
