import Mathlib.Data.List.Forall2
import Reckoner.Tree.Parse

/-!
The grammar of expressions, given by its derivations. A derivation knows the tokens it derives
and the syntax tree it stands for, in which a production with a single child leaves no node.
The leaves of that tree are the derived tokens, less the commas between arguments.
-/

namespace Reckoner.Grammar

open Reckoner.Tree (Level levels among? unaryOperators suffixOperators)

inductive Symbol where
  | list
  | assignment
  | target
  | conditional
  | binary (remaining : List Level)
  | unary
  | power
  | suffix
  | arguments
  | primary

/-- The productions. Targets are the operands that begin with a prefix operator, and suffix
expressions; the left side of a binary production has its own level, so operators group to the
left. -/
inductive Derivation : Symbol → Type where
  | ofAssignment (d : Derivation .assignment) : Derivation .list
  | comma (left : Derivation .list) (sep : Token) (hsep : sep.operator? = some .comma)
      (right : Derivation .assignment) : Derivation .list
  | ofConditional (d : Derivation .conditional) : Derivation .assignment
  | assign (left : Derivation .target) (op : Token)
      (hop : op.operator?.any Operator.isAssignment) (value : Derivation .assignment) :
      Derivation .assignment
  | prefixTarget (op : Token) (hop : (among? unaryOperators op).isSome)
      (operand : Derivation .unary) : Derivation .target
  | suffixTarget (d : Derivation .suffix) : Derivation .target
  | ofBinary (d : Derivation (.binary levels)) : Derivation .conditional
  | choice (condition : Derivation (.binary levels))
      (mark : Token) (hmark : mark.operator? = some .question) (first : Derivation .list)
      (sep : Token) (hsep : sep.operator? = some .colon) (second : Derivation .conditional) :
      Derivation .conditional
  | ofTighter {level : Level} {tighter : List Level} (d : Derivation (.binary tighter)) :
      Derivation (.binary (level :: tighter))
  | operation {level : Level} {tighter : List Level}
      (left : Derivation (.binary (level :: tighter)))
      (op : Token) (hop : (among? level.operators op).isSome)
      (right : Derivation (.binary tighter)) : Derivation (.binary (level :: tighter))
  | ofUnary (d : Derivation .unary) : Derivation (.binary [])
  | prefixed (op : Token) (hop : (among? unaryOperators op).isSome)
      (operand : Derivation .unary) : Derivation .unary
  | ofPower (d : Derivation .power) : Derivation .unary
  | ofSuffix (d : Derivation .suffix) : Derivation .power
  | raised (base : Derivation .suffix) (op : Token) (hop : op.operator? = some .power)
      (exponent : Derivation .unary) : Derivation .power
  | ofPrimary (d : Derivation .primary) : Derivation .suffix
  | emptyCall (name : Token) (hname : name.name?.isSome)
      (left : Token) (hleft : left.operator? = some .openBracket)
      (right : Token) (hright : right.operator? = some .closeBracket) : Derivation .suffix
  | call (name : Token) (hname : name.name?.isSome)
      (left : Token) (hleft : left.operator? = some .openBracket) (args : Derivation .arguments)
      (right : Token) (hright : right.operator? = some .closeBracket) : Derivation .suffix
  | step (operand : Derivation .suffix) (op : Token)
      (hop : (among? suffixOperators op).isSome) : Derivation .suffix
  | argument (d : Derivation .assignment) : Derivation .arguments
  | more (before : Derivation .arguments) (sep : Token) (hsep : sep.operator? = some .comma)
      (next : Derivation .assignment) : Derivation .arguments
  | leaf (token : Token) (htoken : token.operator? = none) : Derivation .primary
  | group (left : Token) (hleft : left.operator? = some .openBracket) (inner : Derivation .list)
      (right : Token) (hright : right.operator? = some .closeBracket) : Derivation .primary

def Symbol.isTight : Symbol → Bool
  | .power | .suffix | .primary => true
  | _ => false

theorem operator?_eq_none_of_name? {token : Token} (h : token.name?.isSome) :
    token.operator? = none := by
  obtain ⟨kind, position⟩ := token
  cases kind <;> first | rfl | cases h

namespace Derivation

@[simp] def tokens {s : Symbol} : Derivation s → List Token
  | ofAssignment d | ofConditional d | suffixTarget d | ofBinary d | ofTighter d | ofUnary d
  | ofPower d | ofSuffix d | ofPrimary d | argument d => d.tokens
  | comma left sep _ right => left.tokens ++ sep :: right.tokens
  | assign left op _ value => left.tokens ++ op :: value.tokens
  | prefixTarget op _ operand | prefixed op _ operand => op :: operand.tokens
  | choice condition mark _ first sep _ second =>
    condition.tokens ++ mark :: (first.tokens ++ sep :: second.tokens)
  | operation left op _ right => left.tokens ++ op :: right.tokens
  | raised base op _ exponent => base.tokens ++ op :: exponent.tokens
  | emptyCall name _ left _ right _ => [name, left, right]
  | call name _ left _ args right _ => name :: left :: (args.tokens ++ [right])
  | step operand op _ => operand.tokens ++ [op]
  | more before sep _ next => before.tokens ++ sep :: next.tokens
  | leaf token _ => [token]
  | group left _ inner right _ => left :: (inner.tokens ++ [right])

/-- The syntax tree: chains of single children are collapsed, and a list of arguments is one
node. -/
@[simp] def tree {s : Symbol} : Derivation s → Tree
  | ofAssignment d | ofConditional d | suffixTarget d | ofBinary d | ofTighter d | ofUnary d
  | ofPower d | ofSuffix d | ofPrimary d => d.tree
  | comma left sep _ right => .node .list [left.tree, .leaf sep, right.tree]
  | assign left op _ value => .node .assignment [left.tree, .leaf op, value.tree]
  | prefixTarget op _ operand | prefixed op _ operand => .node .unary [.leaf op, operand.tree]
  | choice condition mark _ first sep _ second =>
    .node .conditional [condition.tree, .leaf mark, first.tree, .leaf sep, second.tree]
  | @operation level _ left op _ right => .node level.rule [left.tree, .leaf op, right.tree]
  | raised base op _ exponent => .node .power [base.tree, .leaf op, exponent.tree]
  | emptyCall name _ left _ right _ => .node .suffix [.leaf name, .leaf left, .leaf right]
  | call name _ left _ args right _ =>
    .node .suffix [.leaf name, .leaf left, args.tree, .leaf right]
  | step operand op _ => .node .suffix [operand.tree, .leaf op]
  | argument d => .node .arguments [d.tree]
  | more before _ _ next => .node .arguments (before.tree.children ++ [next.tree])
  | leaf token _ => .leaf token
  | group left _ inner right _ => .node .group [.leaf left, inner.tree, .leaf right]

theorem tree_arguments (d : Derivation .arguments) : d.tree = .node .arguments d.tree.children := by
  cases d <;> rfl

/-- Derived tokens do not begin with a closing bracket. Those of a nonterminal that binds tighter
than the prefix operators do not begin with one of these either. -/
theorem tokens_eq_cons {s : Symbol} (d : Derivation s) :
    ∃ first more, d.tokens = first :: more ∧ first.operator? ≠ some .closeBracket ∧
      (s.isTight → ¬ (among? unaryOperators first).isSome) := by
  induction d with
  | ofAssignment _ ih | ofConditional _ ih | suffixTarget _ ih | ofBinary _ ih | ofTighter _ ih
  | ofUnary _ ih | ofPower _ ih | ofSuffix _ ih | ofPrimary _ ih | argument _ ih =>
    obtain ⟨first, more, htokens, hne, htight⟩ := ih
    exact ⟨first, more, htokens, hne, by first | exact htight | nofun⟩
  | comma left sep _ right ih | assign left sep _ right ih | operation left sep _ right ih
  | raised left sep _ right ih | step left sep _ ih | more left sep _ right ih
  | choice left sep _ _ _ _ _ ih =>
    obtain ⟨first, more, htokens, hne, htight⟩ := ih
    exact ⟨first, _, by rw [tokens, htokens, List.cons_append], hne, htight⟩
  | prefixTarget op hop operand | prefixed op hop operand =>
    refine ⟨op, operand.tokens, rfl, ?_, nofun⟩
    intro hclose
    simp [among?, hclose, unaryOperators] at hop
  | emptyCall name hname | call name hname =>
    have hnone := operator?_eq_none_of_name? hname
    exact ⟨name, _, rfl, by simp [hnone], by simp [among?, hnone]⟩
  | leaf token htoken => exact ⟨token, [], rfl, by simp [htoken], by simp [among?, htoken]⟩
  | group left hleft =>
    exact ⟨left, _, rfl, by simp [hleft], by simp [among?, hleft, unaryOperators]⟩

theorem isUnaryLevel (d : Derivation .target) : d.tree.isUnaryLevel := by
  cases d with
  | prefixTarget op hop operand => rfl
  | suffixTarget d =>
    cases d with
    | ofPrimary d => cases d <;> rfl
    | emptyCall | call | step => rfl

theorem exists_target_of_unary (d : Derivation .unary) (h : d.tree.isUnaryLevel) :
    ∃ e : Derivation .target, e.tree = d.tree ∧ e.tokens = d.tokens := by
  cases d with
  | prefixed op hop operand => exact ⟨.prefixTarget op hop operand, rfl, rfl⟩
  | ofPower d =>
    cases d with
    | ofSuffix d => exact ⟨.suffixTarget d, rfl, rfl⟩
    | raised => cases h

/-- No level of binary operators builds trees that can stand to the left of an assignment. -/
theorem rule_of_mem_levels {level : Level} (h : level ∈ levels) :
    level.rule ∉
      [Rule.list, .assignment, .conditional, .power, .unary, .suffix, .group, .arguments] := by
  revert level
  decide

theorem exists_target_of_binary {remaining : List Level} (d : Derivation (.binary remaining))
    (hremaining : remaining ⊆ levels) (h : d.tree.isUnaryLevel) :
    ∃ e : Derivation .target, e.tree = d.tree ∧ e.tokens = d.tokens := by
  induction remaining with
  | nil =>
    cases d with
    | ofUnary d => exact d.exists_target_of_unary h
  | cons level tighter ih =>
    cases d with
    | ofTighter d => exact ih d (fun _ hl => hremaining (.tail _ hl)) h
    | operation left op hop right =>
      have hrule := rule_of_mem_levels (hremaining (.head _))
      simp only [tree, Tree.isUnaryLevel, Tree.rule?] at h
      split at h <;> simp_all

/-- A conditional that can stand to the left of an assignment is a target. -/
theorem exists_target (d : Derivation .conditional) (h : d.tree.isUnaryLevel) :
    ∃ e : Derivation .target, e.tree = d.tree ∧ e.tokens = d.tokens := by
  cases d with
  | ofBinary d => exact d.exists_target_of_binary (List.Subset.refl _) h
  | choice => cases h

end Derivation

end Reckoner.Grammar
