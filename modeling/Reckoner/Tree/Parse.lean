import Reckoner.Tree.Basic
import Reckoner.Tree.Fault

/-!
Reading tokens as a syntax tree, one production a function, decided by the next token. A
production that finds nothing of its kind is absent and takes no token. One that is begun but
not completed fails, and then everything that called for it fails with the same fault.

    list        := assignment (',' assignment)*
    assignment  := conditional (assign-op assignment)?     target of unary level
    conditional := binary ('?' list ':' conditional)?
    binary      := ten left-associative levels
    unary       := ('++' | '--' | '+' | '-' | '~' | '!') unary | power
    power       := suffix ('**' unary)?
    suffix      := (name '(' arguments? ')' | primary) ('++' | '--')*
    arguments   := assignment (',' assignment)*
    primary     := literal | name | '(' list ')'
-/

namespace Reckoner.Tree

/-- What a production makes of tokens. `bound` limits how many are left behind it. -/
inductive Outcome (bound : Nat) where
  | parsed (tree : Tree) (rest : List Token) (shorter : rest.length < bound)
  | absent
  | failed (fault : Fault) (rest : List Token)

namespace Outcome

def widen {a b : Nat} (h : a ≤ b) : Outcome a → Outcome b
  | parsed tree rest shorter => .parsed tree rest (Nat.lt_of_lt_of_le shorter h)
  | absent => .absent
  | failed fault rest => .failed fault rest

def required {a : Nat} (fault : Fault) (rest : List Token) : Outcome a → Outcome a
  | absent => .failed fault rest
  | outcome => outcome

def andThen {a b : Nat} (outcome : Outcome a)
    (next : (tree : Tree) → (rest : List Token) → rest.length < a → Outcome b) : Outcome b :=
  match outcome with
  | parsed tree rest shorter => next tree rest shorter
  | absent => .absent
  | failed fault rest => .failed fault rest

def tree? {a : Nat} : Outcome a → Option Tree
  | parsed tree _ _ => some tree
  | _ => none

def rest {a : Nat} (tokens : List Token) : Outcome a → List Token
  | parsed _ rest _ => rest
  | absent => tokens
  | failed _ rest => rest

end Outcome

structure Level where
  rule : Rule
  operators : List Operator

def levels : List Level :=
  [⟨.logicalOr, [.logicalOr]⟩,
   ⟨.logicalAnd, [.logicalAnd]⟩,
   ⟨.inclusiveOr, [.bitOr]⟩,
   ⟨.exclusiveOr, [.bitXor]⟩,
   ⟨.and, [.bitAnd]⟩,
   ⟨.equality, [.equal, .notEqual, .approxEqual]⟩,
   ⟨.relational, [.less, .lessEqual, .greater, .greaterEqual]⟩,
   ⟨.shift, [.shiftLeft, .shiftRight]⟩,
   ⟨.additive, [.plus, .minus]⟩,
   ⟨.multiplicative, [.times, .divide, .modulus]⟩]

def unaryOperators : List Operator := [.increment, .decrement, .plus, .minus, .bitNot, .logicalNot]

def suffixOperators : List Operator := [.increment, .decrement]

def among? (operators : List Operator) (token : Token) : Option Operator :=
  token.operator?.filter (· ∈ operators)

def close (build : Token → Tree) (ts : List Token) : Outcome ts.length :=
  match ts with
  | [] => .failed .missingClose []
  | t :: rest =>
    if t.operator? = some .closeBracket then .parsed (build t) rest (Nat.lt_succ_self _)
    else .failed .missingClose (t :: rest)

def steps (operand : Tree) (ts : List Token) : Outcome (ts.length + 1) :=
  match ts with
  | [] => .parsed operand [] (Nat.lt_succ_self _)
  | t :: rest =>
    match among? suffixOperators t with
    | none => .parsed operand (t :: rest) (Nat.lt_succ_self _)
    | some _ => (steps (.node .suffix [operand, .leaf t]) rest).widen (Nat.le_succ _)

mutual

def list (ts : List Token) : Outcome ts.length :=
  (assignment ts).andThen fun first rest h => (listTail first rest).widen h
termination_by (ts.length, 7 + levels.length)

def listTail (left : Tree) (ts : List Token) : Outcome (ts.length + 1) :=
  match ts with
  | [] => .parsed left [] (Nat.lt_succ_self _)
  | t :: rest =>
    if t.operator? = some .comma then
      ((assignment rest).required .missingAssignment rest).andThen fun right rest' h =>
        (listTail (.node .list [left, .leaf t, right]) rest').widen
          (by simp only [List.length_cons]; omega)
    else .parsed left (t :: rest) (Nat.lt_succ_self _)
termination_by (ts.length, 0)

def assignment (ts : List Token) : Outcome ts.length :=
  (conditional ts).andThen fun target rest h =>
    match rest, h with
    | [], h => .parsed target [] h
    | t :: value, h =>
      have hvalue : value.length < ts.length := Nat.lt_of_succ_lt h
      match t.operator? with
      | none => .parsed target (t :: value) h
      | some op =>
        if op.isAssignment ∧ target.isUnaryLevel then
          ((assignment value).required (.missingOperand op) value).andThen fun right rest' h' =>
            .parsed (.node .assignment [target, .leaf t, right]) rest' (Nat.lt_trans h' hvalue)
        else .parsed target (t :: value) h
termination_by (ts.length, 6 + levels.length)

def conditional (ts : List Token) : Outcome ts.length :=
  (binary levels ts).andThen fun condition rest h =>
    match rest, h with
    | [], h => .parsed condition [] h
    | t :: branches, h =>
      have hbranches : branches.length < ts.length := Nat.lt_of_succ_lt h
      if t.operator? = some .question then
        ((list branches).required (.missingOperand .question) branches).andThen
          fun first rest₁ h₁ =>
            match rest₁, h₁ with
            | [], _ => .failed .missingColon []
            | u :: second, h₁ =>
              have hsecond : second.length < ts.length :=
                Nat.lt_trans (Nat.lt_of_succ_lt h₁) hbranches
              if u.operator? = some .colon then
                ((conditional second).required (.missingOperand .colon) second).andThen
                  fun other rest₂ h₂ =>
                    .parsed (.node .conditional [condition, .leaf t, first, .leaf u, other]) rest₂
                      (Nat.lt_trans h₂ hsecond)
              else .failed .missingColon (u :: second)
      else .parsed condition (t :: branches) h
termination_by (ts.length, 5 + levels.length)

def binary (remaining : List Level) (ts : List Token) : Outcome ts.length :=
  match remaining with
  | [] => unary ts
  | level :: tighter =>
    (binary tighter ts).andThen fun left rest h => (binaryTail level tighter left rest).widen h
termination_by (ts.length, 4 + remaining.length)

def binaryTail (level : Level) (tighter : List Level) (left : Tree) (ts : List Token) :
    Outcome (ts.length + 1) :=
  match ts with
  | [] => .parsed left [] (Nat.lt_succ_self _)
  | t :: rest =>
    match among? level.operators t with
    | none => .parsed left (t :: rest) (Nat.lt_succ_self _)
    | some op =>
      ((binary tighter rest).required (.missingOperand op) rest).andThen fun right rest' h =>
        (binaryTail level tighter (.node level.rule [left, .leaf t, right]) rest').widen
          (by simp only [List.length_cons]; omega)
termination_by (ts.length, 0)

def unary (ts : List Token) : Outcome ts.length :=
  match ts with
  | [] => .absent
  | t :: rest =>
    match among? unaryOperators t with
    | some op =>
      ((unary rest).required (.missingOperand op) rest).andThen fun operand rest' h =>
        .parsed (.node .unary [.leaf t, operand]) rest' (Nat.lt_succ_of_lt h)
    | none => power (t :: rest)
termination_by (ts.length, 3)

def power (ts : List Token) : Outcome ts.length :=
  (suffix ts).andThen fun base rest h =>
    match rest, h with
    | [], h => .parsed base [] h
    | t :: exponent, h =>
      have hexponent : exponent.length < ts.length := Nat.lt_of_succ_lt h
      if t.operator? = some .power then
        ((unary exponent).required (.missingOperand .power) exponent).andThen fun right rest' h' =>
          .parsed (.node .power [base, .leaf t, right]) rest' (Nat.lt_trans h' hexponent)
      else .parsed base (t :: exponent) h
termination_by (ts.length, 2)

def suffix (ts : List Token) : Outcome ts.length :=
  let operand : Outcome ts.length :=
    match ts with
    | name :: bracket :: rest =>
      if name.name?.isSome ∧ bracket.operator? = some .openBracket then
        (call name bracket rest).widen (Nat.le_add_right _ 2)
      else primary (name :: bracket :: rest)
    | ts => primary ts
  operand.andThen fun tree rest h => (steps tree rest).widen h
termination_by (ts.length, 1)

def call (name bracket : Token) (ts : List Token) : Outcome ts.length :=
  match ts with
  | [] => .failed .missingClose []
  | t :: rest =>
    if t.operator? = some .closeBracket then
      .parsed (.node .suffix [.leaf name, .leaf bracket, .leaf t]) rest (Nat.lt_succ_self _)
    else
      ((arguments (t :: rest)).required .missingClose (t :: rest)).andThen fun args rest' h =>
        (close (fun last => .node .suffix [.leaf name, .leaf bracket, args, .leaf last])
          rest').widen
          (Nat.le_of_lt h)
termination_by (ts.length, 8 + levels.length)

def arguments (ts : List Token) : Outcome ts.length :=
  (assignment ts).andThen fun first rest h => (argumentsTail [first] rest).widen h
termination_by (ts.length, 7 + levels.length)

def argumentsTail (read : List Tree) (ts : List Token) : Outcome (ts.length + 1) :=
  match ts with
  | [] => .parsed (.node .arguments read) [] (Nat.lt_succ_self _)
  | t :: rest =>
    if t.operator? = some .comma then
      ((assignment rest).required .missingAssignment rest).andThen fun next rest' h =>
        (argumentsTail (read ++ [next]) rest').widen (by simp only [List.length_cons]; omega)
    else .parsed (.node .arguments read) (t :: rest) (Nat.lt_succ_self _)
termination_by (ts.length, 0)

def primary (ts : List Token) : Outcome ts.length :=
  match ts with
  | [] => .absent
  | t :: rest =>
    match t.operator? with
    | none => .parsed (.leaf t) rest (Nat.lt_succ_self _)
    | some .openBracket =>
      match rest with
      | [] => .failed .missingExpression []
      | u :: inside =>
        if u.operator? = some .closeBracket then .failed .missingExpression (u :: inside)
        else
          ((list (u :: inside)).required .missingExpression (t :: u :: inside)).andThen
            fun inner rest' h =>
              (close (fun last => .node .group [.leaf t, inner, .leaf last]) rest').widen
                (by simp only [List.length_cons] at h ⊢; omega)
    | some _ => .absent
termination_by (ts.length, 0)

end

def remainingText (ts : List Token) : String :=
  String.ofList (List.intercalate [' '] (ts.map Token.chars))

def parse (ts : List Token) : Except Fault Tree :=
  if ts.isEmpty then .error .emptyExpression
  else
    match list ts with
    | .parsed tree [] _ => .ok tree
    | .parsed tree rest _ => .error (.leftover tree.text (remainingText rest))
    | .absent => .error (.leftover "" (remainingText ts))
    | .failed fault _ => .error fault

end Reckoner.Tree
