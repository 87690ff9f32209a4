import Reckoner.Function.Registry

/-!
The mathematical functions that a session starts with.
-/

namespace Reckoner.Builtin

def realArgument (args : List Value) : Except Error Float :=
  match args.head?.bind Value.toReal? with
  | some x => .ok x
  | none => .error (.invalidValue "expected a real argument")

def ofReal (f : Float → Float) : Native := fun _ args => do
  let x ← realArgument args
  return .real (f x)

def degree : Float := 3.141592653589793 / 180.0

def trigonometric (f : Float → Float) : Native := fun view args => do
  let x ← realArgument args
  return .real (f (if view.switches.degrees then x * degree else x))

/-- The magnitude of the least integer wraps around to itself. -/
def magnitude : Native := fun _ args =>
  match args with
  | .integer i :: _ => .ok (.integer (if i < 0 then -i else i))
  | _ => do
    let x ← realArgument args
    return .real x.abs

def realSignature : Signature := ⟨[{ real := true }], false⟩

def numberSignature : Signature := ⟨[{ integer := true, real := true }], false⟩

def table : List (String × Signature × Native) :=
  [("sqrt", realSignature, ofReal Float.sqrt),
   ("exp", realSignature, ofReal Float.exp),
   ("log", realSignature, ofReal Float.log),
   ("log10", realSignature, ofReal Float.log10),
   ("sin", realSignature, trigonometric Float.sin),
   ("cos", realSignature, trigonometric Float.cos),
   ("tan", realSignature, trigonometric Float.tan),
   ("asin", realSignature, trigonometric Float.asin),
   ("acos", realSignature, trigonometric Float.acos),
   ("atan", realSignature, trigonometric Float.atan),
   ("abs", numberSignature, magnitude)]

def register (r : Registry) : Registry :=
  table.foldl (fun r (name, signature, call) =>
    (r.insert name (.native call) signature true false).2) r

end Reckoner.Builtin
