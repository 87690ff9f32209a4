/-!
Sets of value kinds. A declared argument accepts every kind in its set; the kind `absent` marks
an argument that may be left out.
-/

namespace Reckoner

structure Kinds where
  boolean : Bool := false
  integer : Bool := false
  real : Bool := false
  string : Bool := false
  absent : Bool := false
deriving DecidableEq, Repr

namespace Kinds

def empty : Kinds := {}

def any : Kinds := { boolean := true, integer := true, real := true, string := true }

instance : Union Kinds where
  union a b :=
    { boolean := a.boolean || b.boolean
      integer := a.integer || b.integer
      real := a.real || b.real
      string := a.string || b.string
      absent := a.absent || b.absent }

def inter (a b : Kinds) : Kinds :=
  { boolean := a.boolean && b.boolean
    integer := a.integer && b.integer
    real := a.real && b.real
    string := a.string && b.string
    absent := a.absent && b.absent }

def meets (a b : Kinds) : Bool := a.inter b != empty

def ofLetter? : Char → Option Kinds
  | 'b' => some { boolean := true }
  | 'i' => some { integer := true }
  | 'r' => some { real := true }
  | 's' => some { string := true }
  | 'n' => some { absent := true }
  | _ => none

def letters (kinds : Kinds) : List Char :=
  (if kinds.boolean then ['b'] else []) ++ (if kinds.integer then ['i'] else []) ++
    (if kinds.real then ['r'] else []) ++ (if kinds.string then ['s'] else []) ++
    (if kinds.absent then ['n'] else [])

end Kinds

end Reckoner
