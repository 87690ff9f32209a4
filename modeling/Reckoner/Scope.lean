import Reckoner.Name
import Reckoner.Value.Basic

/-!
Variables. Globals are kept in the order of their creation. A call of a formula adds a frame
with its parameters, and a name means the innermost binding of it. A variable holds its value
itself, or shares a cell with the host, through which all its reads and writes go.
-/

namespace Reckoner

structure CellId where
  number : Nat
deriving DecidableEq, Repr

/-- What the host shares. It has its own way to be read and to be written, and reading it changes
nothing. -/
structure Cell where
  content : Value
  /-- How often a variable has written to it. -/
  writes : Nat := 0
  get : Value → Value := id
  /-- What a write makes of the content. -/
  set : (content written : Value) → Value := fun _ written => written

def Cell.value (cell : Cell) : Value := cell.get cell.content

def Cell.write (cell : Cell) (value : Value) : Cell :=
  { cell with content := cell.set cell.content value, writes := cell.writes + 1 }

inductive Storage where
  | own (value : Value)
  | shared (cell : CellId)

structure Variable where
  name : String
  storage : Storage

structure Scope where
  globals : List Variable := []
  /-- Innermost first. -/
  frames : List (List Variable) := []
  cells : List Cell := []

namespace Scope

def empty : Scope := {}

def addCell (s : Scope) (cell : Cell) : CellId × Scope :=
  (⟨s.cells.length⟩, { s with cells := s.cells ++ [cell] })

def newCell (s : Scope) (value : Value) : CellId × Scope := s.addCell { content := value }

def cell? (s : Scope) (id : CellId) : Option Cell := s.cells[id.number]?

def setCell (s : Scope) (id : CellId) (content : Value) : Scope :=
  { s with cells := s.cells.modify id.number fun cell => { cell with content } }

def writeCell (s : Scope) (id : CellId) (value : Value) : Scope :=
  { s with cells := s.cells.modify id.number fun cell => cell.write value }

def binding? (name : String) (vars : List Variable) : Option Variable :=
  vars.find? fun v => v.name == name

def find? (s : Scope) (name : String) : Option Variable :=
  (s.frames.findSome? (binding? name)).or (binding? name s.globals)

def read (s : Scope) (v : Variable) : Value :=
  match v.storage with
  | .own value => value
  | .shared id => ((s.cell? id).map Cell.value).getD .null

def get? (s : Scope) (name : String) : Option Value := (s.find? name).map s.read

def contains (s : Scope) (name : String) : Bool := (s.find? name).isSome

def overwrite (name : String) (value : Value) : List Variable → List Variable
  | [] => []
  | v :: more =>
    if v.name = name then ⟨name, .own value⟩ :: more else v :: overwrite name value more

def overwriteFrames (name : String) (value : Value) : List (List Variable) → List (List Variable)
  | [] => []
  | frame :: outer =>
    if (binding? name frame).isSome then overwrite name value frame :: outer
    else frame :: overwriteFrames name value outer

def addGlobal (s : Scope) (name : String) (value : Value) : Except Error Scope := do
  let name ← Name.check name
  return { s with globals := s.globals ++ [⟨name, .own value⟩] }

def set (s : Scope) (name : String) (value : Value) : Except Error Scope :=
  match s.find? name with
  | some ⟨_, .shared id⟩ => .ok (s.writeCell id value)
  | some ⟨_, .own _⟩ =>
    if (s.frames.findSome? (binding? name)).isSome then
      .ok { s with frames := overwriteFrames name value s.frames }
    else .ok { s with globals := overwrite name value s.globals }
  | none => s.addGlobal name value

def create (s : Scope) (name : String) (value : Value) : Except Error Scope :=
  match binding? name s.globals with
  | some ⟨_, .shared id⟩ => .ok (s.writeCell id value)
  | some ⟨_, .own _⟩ => .ok { s with globals := overwrite name value s.globals }
  | none => s.addGlobal name value

def withoutGlobal (s : Scope) (name : String) : Scope :=
  { s with globals := s.globals.filter fun v => v.name != name }

def createShared (s : Scope) (name : String) (id : CellId) : Except Error Scope := do
  let name ← Name.check name
  -- A variable of that name loses its place in the order.
  let kept := s.withoutGlobal name
  return { kept with globals := kept.globals ++ [⟨name, .shared id⟩] }

def remove (s : Scope) (name : String) : Bool × Scope :=
  ((binding? name s.globals).isSome, s.withoutGlobal name)

def names (s : Scope) : List String := s.globals.map Variable.name

def size (s : Scope) : Nat := s.globals.length

def depth (s : Scope) : Nat := s.frames.length

def push (s : Scope) (bindings : List (String × Value)) : Scope :=
  { s with frames := bindings.map (fun (name, value) => ⟨name, .own value⟩) :: s.frames }

def pop (s : Scope) : Scope := { s with frames := s.frames.drop 1 }

end Scope

end Reckoner
