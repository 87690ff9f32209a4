import Reckoner.Function.Basic
import Reckoner.Name

/-!
The functions that are registered, in the order of registration. A function keeps its number
for as long as it is registered, and no number is given twice. Every change to the list drops
all compiled formulas, since their calls may now mean other functions.
-/

namespace Reckoner

structure Registry where
  functions : List Function := []
  /-- The number of the next function. -/
  next : Nat := 0

namespace Registry

def empty : Registry := {}

def get? (r : Registry) (name : String) : Option Function :=
  r.functions.find? fun f => f.name == name

def named (r : Registry) (name : String) : List Function :=
  r.functions.filter fun f => f.name == name

def contains (r : Registry) (name : String) : Bool := r.functions.any fun f => f.name == name

def find? (r : Registry) (id : FunctionId) : Option Function :=
  r.functions.find? fun f => f.id == id

def addName (names : List String) (name : String) : List String :=
  if name ∈ names then names else names ++ [name]

def names (r : Registry) : List String := (r.functions.map Function.name).foldl addName []

def size (r : Registry) : Nat := r.functions.length

def isEmpty (r : Registry) : Bool := r.functions.isEmpty

def reset (r : Registry) : Registry :=
  { r with functions := r.functions.map fun f => { f with compiled := none } }

def modify (r : Registry) (id : FunctionId) (change : Function → Function) : Registry :=
  { r with functions := r.functions.map fun f => if f.id = id then change f else f }

def setCompiled (r : Registry) (id : FunctionId) (program : Program) : Registry :=
  r.modify id fun f => { f with compiled := some program }

def resetOne (r : Registry) (id : FunctionId) : Registry :=
  r.modify id fun f => { f with compiled := none }

def without (r : Registry) (name : String) : Registry :=
  { r with functions := r.functions.filter fun f => f.name != name }

def insert (r : Registry) (name : String) (body : Function.Body) (signature : Signature)
    (builtin overload : Bool) : Function × Registry :=
  let f : Function := ⟨⟨r.next⟩, name, body, signature, builtin, none⟩
  let kept := if overload then r else r.without name
  -- What was compiled before may call a function that is gone, or would call the new one now.
  (f, { functions := kept.reset.functions ++ [f], next := r.next + 1 })

def addNative (r : Registry) (name signature : String) (call : Native) :
    Except Error (Function × Registry) := do
  let signature ← Signature.read signature
  let name ← Name.checkFunction name
  return r.insert name (.native call) signature false false

def addObject (r : Registry) (name signature : String) (object : NativeObject) :
    Except Error (Function × Registry) := do
  let signature ← Signature.read signature
  let name ← Name.checkFunction name
  return r.insert name (.object object) signature false object.overload

def addFormula (r : Registry) (name : String) (parameters : List String) (text : String) :
    Except Error (Function × Registry) := do
  let parameters ← parameters.mapM Name.check
  let name ← Name.checkFunction name
  let text := String.ofList (Text.trim text.toList)
  return r.insert name (.formula parameters text)
    ⟨List.replicate parameters.length Kinds.any, false⟩ false false

def remove (r : Registry) (name : String) : Bool × Registry :=
  if r.contains name then (true, (r.without name).reset) else (false, r)

def hasReference (r : Registry) (name : String) : Bool :=
  r.functions.any fun f =>
    match f.compiled with
    | some program => program.references name
    | none => false

end Registry

end Reckoner
