import Reckoner.Token.Basic

/-!
Syntax trees. A production that matches without an operator of its own gives the tree of its
single child, so a literal alone is a leaf. Children are, by rule:

* `list`: left, comma, right
* `assignment`: target, operator, value
* `conditional`: condition, `?`, first branch, `:`, second branch
* the binary rules and `power`: left, operator, right
* `unary`: operator, operand
* `suffix`: operand, operator; or name, `(`, arguments unless there are none, `)`
* `group`: `(`, expression, `)`
* `arguments`: one child for each argument
-/

namespace Reckoner

inductive Rule where
  | list
  | assignment
  | conditional
  | logicalOr
  | logicalAnd
  | inclusiveOr
  | exclusiveOr
  | and
  | equality
  | relational
  | shift
  | additive
  | multiplicative
  | power
  | unary
  | suffix
  | group
  | arguments
deriving DecidableEq, Repr

namespace Rule

def name : Rule → String
  | list => "expression"
  | assignment => "assignment_expression"
  | conditional => "conditional_expression"
  | logicalOr => "logical_or_expression"
  | logicalAnd => "logical_and_expression"
  | inclusiveOr => "inclusive_or_expression"
  | exclusiveOr => "exclusive_or_expression"
  | and => "and_expression"
  | equality => "equality_expression"
  | relational => "relational_expression"
  | shift => "shift_expression"
  | additive => "additive_expression"
  | multiplicative => "multiplicative_expression"
  | power => "power_expression"
  | unary => "unary_expression"
  | suffix => "postfix_expression"
  | group => "primary_expression"
  | arguments => "argument_expression_list"

end Rule

inductive Tree where
  | leaf (token : Token)
  | node (rule : Rule) (children : List Tree)

namespace Tree

def rule? : Tree → Option Rule
  | leaf _ => none
  | node rule _ => some rule

def children : Tree → List Tree
  | leaf _ => []
  | node _ children => children

def token? : Tree → Option Token
  | leaf token => some token
  | node _ _ => none

def operator? (tree : Tree) : Option Operator := tree.token?.bind Token.operator?

def name? (tree : Tree) : Option String := tree.token?.bind Token.name?

def isUnaryLevel (tree : Tree) : Bool :=
  match tree.rule? with
  | none | some .unary | some .suffix | some .group => true
  | _ => false

mutual

def chars : Tree → List Char
  | leaf token => token.chars
  | node rule children =>
    charsJoined (if rule = .arguments then [',', ' '] else [' ']) children

def charsJoined (separator : List Char) : List Tree → List Char
  | [] => []
  | [child] => child.chars
  | child :: more => child.chars ++ separator ++ charsJoined separator more

end

def text (tree : Tree) : String := String.ofList tree.chars

mutual

def outlineLines (depth : Nat) : Tree → List (List Char)
  | leaf token => [List.replicate (2 * depth) ' ' ++ token.chars]
  | node rule children =>
    (List.replicate (2 * depth) ' ' ++ rule.name.toList) :: outlineLinesAll (depth + 1) children

def outlineLinesAll (depth : Nat) : List Tree → List (List Char)
  | [] => []
  | child :: more => outlineLines depth child ++ outlineLinesAll depth more

end

def outline (tree : Tree) : String :=
  String.ofList ((outlineLines 0 tree).flatMap fun line => line ++ ['\n'])

end Tree

end Reckoner
