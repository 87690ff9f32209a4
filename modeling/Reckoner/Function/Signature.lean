import Reckoner.Error
import Reckoner.Text.Blank
import Reckoner.Value.Kinds

/-!
Argument signatures. A signature is a comma-separated list with the letters of the accepted
kinds for each position, and `...` at its end when more arguments may follow.
-/

namespace Reckoner

structure Signature where
  kinds : List Kinds
  /-- More arguments than declared may be given. -/
  variadic : Bool
deriving DecidableEq, Repr

namespace Signature

def readEntry (entry : List Char) : Except Error Kinds :=
  entry.foldlM
    (fun kinds c =>
      match Kinds.ofLetter? c with
      | some kind => .ok (kinds ∪ kind)
      | none => .error (.signatureLetter c))
    Kinds.empty

def readEntries : List (List Char) → Except Error Signature
  | [] => .ok ⟨[], false⟩
  | entry :: more =>
    if entry = ['.', '.', '.'] then
      if more = [] then .ok ⟨[], true⟩ else .error (.signatureLetter '.')
    else do
      let first ← readEntry entry
      let others ← readEntries more
      return { others with kinds := first :: others.kinds }

def read (text : String) : Except Error Signature := readEntries (Text.entries text.toList)

def parts (signature : Signature) : List (List Char) :=
  signature.kinds.map Kinds.letters ++ if signature.variadic then [['.', '.', '.']] else []

def chars (signature : Signature) : List Char := List.intercalate [',', ' '] signature.parts

def arity (signature : Signature) : Nat := signature.kinds.length

def kindsAt (signature : Signature) (index : Nat) : Kinds :=
  ((signature.kinds[index]?).or signature.kinds.getLast?).getD Kinds.any

def accepts (signature : Signature) (count : Nat) : Bool :=
  count == signature.arity || (signature.variadic && signature.arity ≤ count)

def optionalFrom (signature : Signature) (count : Nat) : Bool :=
  (signature.kinds.drop count).all Kinds.absent

end Signature

end Reckoner
