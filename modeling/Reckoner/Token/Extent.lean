import Reckoner.Token.Scan

/-!
Where an expression embedded in a longer line ends, found without building tokens. It ends at a
comma, a closing bracket or a colon that is not its own, at an operand directly behind another
one, at an operator directly behind a string, and at a character that starts no token.
-/

namespace Reckoner.Extent

open Text

/-- What was seen last. A string that is compared with something is an operand like others. -/
inductive Seen where
  | nothing
  | operator (op : Operator)
  | string
  | operand
deriving DecidableEq, Repr

namespace Seen

def isOperand : Seen → Bool
  | string | operand => true
  | nothing | operator _ => false

def isOperator : Seen → Bool
  | operator _ => true
  | _ => false

def thenString : Seen → Seen
  | operator op => if op.isComparison then operand else string
  | _ => string

end Seen

abbrev Rest (cs : List Char) := { rest : List Char // rest.length ≤ cs.length }

def Rest.widen {cs ds : List Char} (rest : Rest cs) (h : cs.length ≤ ds.length) : Rest ds :=
  ⟨rest.1, Nat.le_trans rest.2 h⟩

mutual

/-- What is left behind the expression, or nothing when a bracket, a string or a conditional
does not come to its end. -/
def skip (seen : Seen) (cs : List Char) : Option (Rest cs) :=
  match cs with
  | [] => some ⟨[], Nat.le_refl _⟩
  | c :: tail =>
    let stop : Option (Rest (c :: tail)) := some ⟨c :: tail, Nat.le_refl _⟩
    if isGap c then
      (skip seen tail).map fun r => r.widen (Nat.le_succ _)
    else if seen.isOperator && Literal.startsSigned (c :: tail) then
      match h : Literal.scan (c :: tail) with
      | none => stop
      | some (_, rest) =>
        have hlt := Literal.length_lt_of_scan h
        (skip .operand rest).map fun r => r.widen (Nat.le_of_lt hlt)
    else
      match h : Operator.scan? (c :: tail) with
      | some (op, rest) =>
        have hlt := Operator.length_lt_of_scan? h
        if seen = .string then stop
        else
          match op with
          | .comma | .closeBracket | .colon => stop
          | .openBracket =>
            match skipArguments rest with
            | some ⟨d :: rest', hle⟩ =>
              have hle' : rest'.length < (c :: tail).length :=
                Nat.lt_of_lt_of_le hle (Nat.le_of_lt hlt)
              if d = ')' then (skip .operand rest').map fun r => r.widen (Nat.le_of_lt hle')
              else none
            | _ => none
          | .question =>
            match skip .nothing rest with
            | some ⟨d :: other, hle⟩ =>
              have hother : other.length < (c :: tail).length :=
                Nat.lt_of_lt_of_le hle (Nat.le_of_lt hlt)
              if d = ':' then
                match skip .nothing other with
                | some ⟨rest', hle'⟩ =>
                  have hrest : rest'.length < (c :: tail).length := Nat.lt_of_le_of_lt hle' hother
                  (skip .operand rest').map fun r => r.widen (Nat.le_of_lt hrest)
                | none => none
              else none
            | _ => none
          | _ => (skip (.operator op) rest).map fun r => r.widen (Nat.le_of_lt hlt)
      | none =>
        if Literal.starts (c :: tail) then
          if seen.isOperand then stop
          else
            match h : Literal.scan (c :: tail) with
            | none => none
            | some (_, rest) =>
              have hlt := Literal.length_lt_of_scan h
              (skip .operand rest).map fun r => r.widen (Nat.le_of_lt hlt)
        else if Name.isStart c then
          if seen.isOperand then stop
          else
            have hle := Decimal.Numeral.length_dropWhile_le Name.isPart tail
            (skip .operand (tail.dropWhile Name.isPart)).map fun r =>
              r.widen (Nat.le_succ_of_le hle)
        else if c = '\'' ∨ c = '"' then
          if seen.isOperand then stop
          else
            match h : Token.quoted? c tail with
            | none => none
            | some (_, rest) =>
              have hlt := Token.length_lt_of_quoted? h
              (skip seen.thenString rest).map fun r =>
                r.widen (Nat.le_succ_of_le (Nat.le_of_lt hlt))
        else stop
termination_by (cs.length, 0)

def skipArguments (cs : List Char) : Option (Rest cs) :=
  match skip .nothing cs with
  | none => none
  | some ⟨c :: rest, hle⟩ =>
    have hlt : rest.length < cs.length := hle
    if c = ',' then (skipArguments rest).map fun r => r.widen (Nat.le_of_lt hlt)
    else some ⟨c :: rest, hle⟩
  | some rest => some rest
termination_by (cs.length, 1)

end

/-- The byte behind the expression that starts at byte `start`, gaps included. A place that is
not in the text holds an empty expression. -/
def stop? (text : List Char) (start : Nat) : Option Nat :=
  match dropBytes start text with
  | none => some start
  | some cs => (skip .nothing cs).map fun rest => start + (byteLength cs - byteLength rest.1)

def advance (text : List Char) (cursor : Nat) : Bool × Nat :=
  match stop? text cursor with
  | some stop => (true, stop)
  | none => (false, cursor)

structure Part where
  start : Nat
  stop? : Option Nat
deriving DecidableEq, Repr

def partsFrom (text : List Char) : (bound start : Nat) → List Part
  | 0, _ => []
  | bound + 1, start =>
    match stop? text start with
    | none => [⟨start, none⟩]
    | some stop =>
      match dropBytes stop text with
      | some (',' :: _) => ⟨start, some stop⟩ :: partsFrom text bound (stop + 1)
      | _ => [⟨start, some stop⟩]

def parts (text : List Char) : List Part := partsFrom text (text.length + 1) 0

end Reckoner.Extent
