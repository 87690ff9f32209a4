import Mathlib
import Reckoner.Proofs.Extent.Crossing
import Reckoner.Proofs.Program.Parts

/-!
Every expression of the grammar is passed over, but for one with a conditional whose first branch
is a comma list: such a branch is left at its comma, where a colon is looked for.
-/

namespace Reckoner.Tree

def isListChoice : Tree → Bool
  | node .conditional [_, _, first, _, _] => first.isList
  | _ => false

def hasListBranch (tree : Tree) : Bool := tree.parts.any isListChoice

@[simp] theorem hasListBranch_leaf (token : Token) : (leaf token).hasListBranch = false := rfl

theorem hasListBranch_node (rule : Rule) (children : List Tree) :
    (node rule children).hasListBranch =
      ((node rule children).isListChoice || children.any hasListBranch) := by
  rw [hasListBranch, parts, partsAll_eq, List.any_cons, List.any_flatMap]
  rfl

theorem isListChoice_of_rule_ne {rule : Rule} (h : rule ≠ .conditional) (children : List Tree) :
    (node rule children).isListChoice = false := by
  cases rule <;> first | rfl | exact absurd rfl h

theorem hasListBranch_eq_any {rule : Rule} (h : rule ≠ .conditional) (children : List Tree) :
    (node rule children).hasListBranch = children.any hasListBranch := by
  rw [hasListBranch_node, isListChoice_of_rule_ne h, Bool.false_or]

theorem hasListBranch_operation {rule : Rule} (h : rule ≠ .conditional) (left right : Tree)
    (op : Token) : (node rule [left, leaf op, right]).hasListBranch =
      (left.hasListBranch || right.hasListBranch) := by
  simp [hasListBranch_eq_any h]

theorem hasListBranch_choice (condition first second : Tree) (mark sep : Token) :
    (node .conditional [condition, leaf mark, first, leaf sep, second]).hasListBranch =
      (condition.hasListBranch ||
        ((first.hasListBranch || first.isList) || second.hasListBranch)) := by
  simp only [hasListBranch_node, isListChoice, List.any_cons, List.any_nil, hasListBranch_leaf,
    Bool.false_or, Bool.or_false]
  cases first.isList <;> simp

end Reckoner.Tree

namespace Reckoner.Extent

open Text Token Grammar Reckoner.Tree

def Passes (fails isList : Bool) (tokens : List Token) : Symbol → Prop
  | .list =>
    EndsArguments fails tokens ∧ (isList = false → Ends fails .nothing tokens) ∧
      (isList = true → HaltsAtComma tokens)
  | .assignment | .conditional => ∀ seen : Seen, seen.isOperand = false → Ends fails seen tokens
  | .arguments => EndsArguments fails tokens
  | .target | .binary _ | .unary | .power | .suffix | .primary => CrossesOperand fails tokens

variable {fails fails' : Bool} {tokens more : List Token}

theorem CrossesOperand.ends (h : CrossesOperand fails tokens) {seen : Seen}
    (hseen : seen.isOperand = false) : Ends fails seen tokens := by
  obtain ⟨seen', -, hcrosses⟩ := h
  exact (hcrosses seen hseen).ends

theorem ne_string_of_isOperand {seen : Seen} (h : seen.isOperand = false) : seen ≠ .string := by
  rintro rfl
  cases h

theorem CrossesOperand.prefixed {token : Token} {op : Operator}
    (hop : token.operator? = some op) (hplain : isPlainOperator op = true)
    (h : CrossesOperand fails tokens) : CrossesOperand fails (token :: tokens) := by
  obtain ⟨seen', hne, hcrosses⟩ := h
  refine ⟨seen', hne, fun seen hseen => ?_⟩
  have hsign := crosses_operator hop hplain (ne_string_of_isOperand hseen)
  exact hsign.trans (hcrosses (.operator op) rfl)

theorem CrossesOperand.step {token : Token} {op : Operator} (h : CrossesOperand fails tokens)
    (hop : token.operator? = some op) (hplain : isPlainOperator op = true) :
    ∀ seen : Seen, seen.isOperand = false →
      Crosses fails seen (tokens ++ [token]) (.operator op) := by
  obtain ⟨seen', hne, hcrosses⟩ := h
  intro seen hseen
  have h := (hcrosses seen hseen).trans (crosses_operator hop hplain hne)
  rwa [Bool.or_false] at h

theorem CrossesOperand.between {token : Token} {op : Operator} (h : CrossesOperand fails tokens)
    (hop : token.operator? = some op) (hplain : isPlainOperator op = true)
    (h' : CrossesOperand fails' more) :
    CrossesOperand (fails || fails') (tokens ++ token :: more) := by
  obtain ⟨last, hne, hcrosses⟩ := h'
  refine ⟨last, hne, fun seen hseen => ?_⟩
  rw [List.append_cons]
  exact (h.step hop hplain seen hseen).trans (hcrosses (.operator op) rfl)

theorem CrossesOperand.assign {token : Token} {op : Operator} (h : CrossesOperand fails tokens)
    (hop : token.operator? = some op) (hplain : isPlainOperator op = true)
    (h' : ∀ seen : Seen, seen.isOperand = false → Ends fails' seen more) {seen : Seen}
    (hseen : seen.isOperand = false) : Ends (fails || fails') seen (tokens ++ token :: more) := by
  rw [List.append_cons]
  exact (h.step hop hplain seen hseen).trans_ends (h' (.operator op) rfl)

theorem crossesOperand_group {left right : Token} (hleft : left.operator? = some .openBracket)
    (hright : right.operator? = some .closeBracket) (h : EndsArguments fails tokens) :
    CrossesOperand fails (left :: (tokens ++ [right])) :=
  ⟨.operand, by simp, fun _ hseen =>
    crosses_group hleft hright h (ne_string_of_isOperand hseen)⟩

theorem crossesOperand_call {name left right : Token} (hname : name.name?.isSome)
    (hleft : left.operator? = some .openBracket) (hright : right.operator? = some .closeBracket)
    (h : EndsArguments fails tokens) :
    CrossesOperand fails (name :: left :: (tokens ++ [right])) := by
  refine ⟨.operand, by simp, fun seen hseen => ?_⟩
  have hstring : ∀ s, name.kind ≠ .string s := by
    obtain ⟨kind, position⟩ := name
    rintro s rfl
    cases hname
  have hcrosses := crosses_leaf (operator?_eq_none_of_name? hname) hstring hseen
  exact hcrosses.trans (crosses_group hleft hright h (by simp))

theorem isPlainOperator_of_isAssignment {op : Operator} (h : op.isAssignment = true) :
    isPlainOperator op = true := by
  cases op <;> first | rfl | cases h

theorem isPlainOperator_of_mem_levels {level : Level} (h : level ∈ levels) :
    ∀ op ∈ level.operators, isPlainOperator op = true := by
  revert level
  decide

theorem isPlainOperator_of_unary : ∀ op ∈ Tree.unaryOperators, isPlainOperator op = true := by
  decide

theorem isPlainOperator_of_suffix : ∀ op ∈ Tree.suffixOperators, isPlainOperator op = true := by
  decide

theorem rule_ne_conditional {level : Level} (h : level ∈ levels) : level.rule ≠ .conditional := by
  revert level
  decide

/-- The tokens of a derivation are passed over, or not, as its tree has it. -/
theorem passes {s : Symbol} (d : Derivation s) (hs : s.IsProper)
    (hstrings : ∀ token ∈ d.tokens, ∀ text, token.kind ≠ .string text) :
    Passes d.tree.hasListBranch d.tree.isList d.tokens s := by
  induction d with
  | ofAssignment d ih =>
    have hends := ih trivial hstrings .nothing rfl
    have hlist : d.tree.isList = false := Program.isList_eq_false d trivial (by simp)
    exact ⟨hends.endsArguments, fun _ => hends, fun h => by simp [hlist] at h⟩
  | ofConditional _ ih | suffixTarget _ ih | ofUnary _ ih | ofPower _ ih | ofSuffix _ ih
  | ofPrimary _ ih => exact ih trivial hstrings
  | ofBinary d ih => exact fun seen hseen => (ih (List.suffix_refl _) hstrings).ends hseen
  | ofTighter _ ih => exact ih ((List.suffix_cons _ _).trans hs) hstrings
  | comma left sep hsep right ihl ihr =>
    simp only [Derivation.tokens, List.forall_mem_append, List.forall_mem_cons] at hstrings
    obtain ⟨hleft, hsingle, hlist⟩ := ihl trivial hstrings.1
    have hright := ihr trivial hstrings.2.2 .nothing rfl
    rw [Derivation.tree, hasListBranch_operation (by decide)]
    refine ⟨hleft.comma hsep hright, nofun, fun _ => ?_⟩
    cases hcase : left.tree.isList with
    | true => exact (hlist hcase).append
    | false => exact (hsingle hcase).haltsAtComma hsep
  | assign left op hop value ihl ihv =>
    simp only [Derivation.tokens, List.forall_mem_append, List.forall_mem_cons] at hstrings
    obtain ⟨o, ho, hopo⟩ := operator?_of_any hop
    rw [Derivation.tree, hasListBranch_operation (by decide)]
    exact fun seen hseen => (ihl trivial hstrings.1).assign hopo
      (isPlainOperator_of_isAssignment ho) (ihv trivial hstrings.2.2) hseen
  | choice condition mark hmark first sep hsep second ihc ihf ihs =>
    simp only [Derivation.tokens, List.forall_mem_append, List.forall_mem_cons] at hstrings
    obtain ⟨seen', hne, hcondition⟩ := ihc (List.suffix_refl _) hstrings.1
    obtain ⟨-, hsingle, hlist⟩ := ihf trivial hstrings.2.2.1
    have hsecond := ihs trivial hstrings.2.2.2.2 .nothing rfl
    have hfirst : ReachesColon (first.tree.hasListBranch || first.tree.isList) first.tokens := by
      cases hcase : first.tree.isList with
      | true =>
        rw [Bool.or_true]
        exact (hlist hcase).reachesColon
      | false =>
        rw [Bool.or_false]
        exact (hsingle hcase).reachesColon
    rw [Derivation.tree, hasListBranch_choice]
    exact fun seen hseen => ends_choice hmark hsep (hcondition seen hseen) hne hfirst hsecond
  | prefixTarget op hop operand ih | prefixed op hop operand ih =>
    simp only [Derivation.tokens, List.forall_mem_cons] at hstrings
    obtain ⟨o, ho, hopo⟩ := operator?_of_among? hop
    have h := (ih trivial hstrings.2).prefixed hopo (isPlainOperator_of_unary o ho)
    simpa [Passes, hasListBranch_eq_any] using h
  | operation left op hop right ihl ihr =>
    simp only [Derivation.tokens, List.forall_mem_append, List.forall_mem_cons] at hstrings
    obtain ⟨o, ho, hopo⟩ := operator?_of_among? hop
    have hlevel := hs.subset (List.mem_cons_self ..)
    have hrule := rule_ne_conditional hlevel
    have hright := ihr ((List.suffix_cons _ _).trans hs) hstrings.2.2
    rw [Derivation.tree, hasListBranch_operation hrule]
    exact (ihl hs hstrings.1).between hopo (isPlainOperator_of_mem_levels hlevel o ho) hright
  | raised base op hop exponent ihb ihe =>
    simp only [Derivation.tokens, List.forall_mem_append, List.forall_mem_cons] at hstrings
    rw [Derivation.tree, hasListBranch_operation (by decide)]
    exact (ihb trivial hstrings.1).between hop rfl (ihe trivial hstrings.2.2)
  | step operand op hop ih =>
    simp only [Derivation.tokens, List.forall_mem_append] at hstrings
    obtain ⟨o, ho, hopo⟩ := operator?_of_among? hop
    have h := (ih trivial hstrings.1).step hopo (isPlainOperator_of_suffix o ho)
    have hcrosses : CrossesOperand operand.tree.hasListBranch (operand.tokens ++ [op]) :=
      ⟨.operator o, by simp, h⟩
    simpa [Passes, hasListBranch_eq_any] using hcrosses
  | emptyCall name hname left hleft right hright =>
    have hnothing := (Crosses.nil .nothing).ends.endsArguments
    exact crossesOperand_call hname hleft hright hnothing
  | call name hname left hleft args right hright ih =>
    simp only [Derivation.tokens, List.forall_mem_append, List.forall_mem_cons] at hstrings
    have h := crossesOperand_call hname hleft hright (ih trivial hstrings.2.2.1)
    simpa [Passes, hasListBranch_eq_any] using h
  | argument d ih =>
    have h := (ih trivial hstrings .nothing rfl).endsArguments
    simpa [Passes, hasListBranch_eq_any] using h
  | more before sep hsep next ihb ihn =>
    simp only [Derivation.tokens, List.forall_mem_append, List.forall_mem_cons] at hstrings
    have h := (ihb trivial hstrings.1).comma hsep (ihn trivial hstrings.2.2 .nothing rfl)
    rw [before.tree_arguments, hasListBranch_eq_any (by decide)] at h
    simpa [Passes, hasListBranch_eq_any] using h
  | leaf token htoken =>
    have hstring := hstrings token (List.mem_singleton_self token)
    exact ⟨.operand, by simp, fun seen hseen => crosses_leaf htoken hstring hseen⟩
  | group left hleft inner right hright ih =>
    simp only [Derivation.tokens, List.forall_mem_append, List.forall_mem_cons] at hstrings
    have h := crossesOperand_group hleft hright (ih trivial hstrings.2.1).1
    simpa [Passes, hasListBranch_eq_any] using h

/-- A single expression of the grammar is passed over, up to the comma or the closing bracket
behind it, unless a conditional in it has a comma list as its first branch. -/
theorem advance_append {text : String} {tokens : List Token} {tree : Tree} {suffix : List Char}
    (htokens : tokenize text = .ok tokens) (htree : parse tokens = .ok tree)
    (hstrings : ∀ token ∈ tokens, ∀ s, token.kind ≠ .string s) (hsingle : tree.isList = false)
    (hsuffix : ∀ c, suffix.head? = some c → c = ',' ∨ c = ')') :
    advance (text.toList ++ suffix) 0 =
      if tree.hasListBranch then (false, 0) else (true, byteLength text.toList) := by
  obtain ⟨d, rfl, rfl⟩ := parse_eq_ok.1 htree
  obtain ⟨⟨after, hlexes⟩, -⟩ := lexes_of_tokenize htokens
  obtain ⟨front, hfront, hreplace⟩ := hlexes.replace
  rw [List.append_nil] at hfront
  have hmay : MayReplace suffix [] := by
    cases suffix with
    | nil => exact .nil []
    | cons c more =>
      have hbreak : isBreak c = true := by obtain rfl | rfl := hsuffix c rfl <;> rfl
      exact .append_break hbreak [] more
  have hstops : Stops suffix := by
    cases suffix with
    | nil => exact .inl rfl
    | cons c more => exact .inr ⟨c, more, rfl, (hsuffix c rfl).imp_right .inl⟩
  have hends := (passes d trivial hstrings).2.1 hsingle
  have hbehind := hends hstops (hreplace suffix hmay)
  have hstop := stop?_append [] (front ++ suffix)
  rw [List.nil_append, byteLength_nil, hbehind] at hstop
  rw [advance, hfront, hstop]
  cases d.tree.hasListBranch with
  | true => rfl
  | false => simp [barring]

/-- A conditional with a list behind it, both branches being single expressions. -/
theorem advance_append_of_choice :
    advance ("a ? b : c".toList ++ [',', ' ', 'd']) 0 = (true, 9) := by
  have htokens : tokenize "a ? b : c" =
      .ok [⟨.name "a", 0⟩, ⟨.operator .question, 2⟩, ⟨.name "b", 4⟩, ⟨.operator .colon, 6⟩,
        ⟨.name "c", 8⟩] := by cbv
  have htree : parse
      [⟨.name "a", 0⟩, ⟨.operator .question, 2⟩, ⟨.name "b", 4⟩, ⟨.operator .colon, 6⟩,
        ⟨.name "c", 8⟩] =
      .ok (.node .conditional [.leaf ⟨.name "a", 0⟩, .leaf ⟨.operator .question, 2⟩,
        .leaf ⟨.name "b", 4⟩, .leaf ⟨.operator .colon, 6⟩, .leaf ⟨.name "c", 8⟩]) := by cbv
  exact advance_append htokens htree (by simp) rfl (by simp)

example : advance "a ? b, c : d".toList 0 = (false, 0) := by cbv

end Reckoner.Extent
