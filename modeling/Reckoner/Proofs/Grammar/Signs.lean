import Reckoner.Proofs.Token.Signs
import Reckoner.Proofs.Grammar.Written

/-!
What is subtracted from an expression. Every expression ends with an operand, so that a minus behind
it is an operator, and its place decides nothing: with the digits of a number next to the minus or
apart from it, the same tree is read. The exception is an expression that ends with a step. Behind
it the sign belongs to the number, and two operands next to each other are no expression.
-/

namespace Reckoner

open Token (Kind endsWithOperand endsWithStep endsOperand isStep endedAfter)

namespace Token

def follows (ended : Bool) (kind : Kind) : Option Bool :=
  if ended && kind.operator?.isNone then none else some (endedAfter ended kind)

theorem foldl_of_follows {kinds : List Kind} {ended ended' : Bool}
    (h : kinds.foldlM follows ended = some ended') : kinds.foldl endedAfter ended = ended' := by
  induction kinds generalizing ended with
  | nil => exact Option.some.inj h
  | cons kind kinds ih =>
    obtain ⟨next, hnext, hrest⟩ := Option.bind_eq_some_iff.1 h
    unfold follows at hnext
    split at hnext
    · cases hnext
    · cases hnext
      exact ih hrest

/-- No operand stands behind another. -/
theorem endsWithOperand_of_follows {kinds : List Kind} {kind : Kind} {ended : Bool}
    (h : (kinds ++ [kind]).foldlM follows false = some ended) (hkind : kind.operator? = none) :
    endsWithOperand kinds = false := by
  rw [List.foldlM_append] at h
  obtain ⟨before, hbefore, hlast⟩ := Option.bind_eq_some_iff.1 h
  rw [endsWithOperand, foldl_of_follows hbefore]
  cases before with
  | false => rfl
  | true => simp [follows, hkind] at hlast

end Token

namespace Grammar

open Reckoner.Tree (Level levels among? unaryOperators suffixOperators)

open Token (follows)

theorem follows_operand {token : Token} (h : token.operator? = none) :
    follows false token.kind = some true := by
  obtain ⟨kind, position⟩ := token
  cases kind <;> first | rfl | cases h

theorem follows_operator {token : Token} {op : Operator} (h : token.operator? = some op)
    (ended : Bool) : follows ended token.kind = some (endedAfter ended (.operator op)) := by
  rw [Token.Kind.eq_operator h, follows, Kind.operator?]
  simp

def IsBetween (op : Operator) : Prop := ∀ ended, endedAfter ended (.operator op) = false

instance (op : Operator) : Decidable (IsBetween op) :=
  inferInstanceAs (Decidable (∀ _, _ = _))

theorem follows_between {token : Token} {op : Operator} (h : token.operator? = some op)
    (hop : IsBetween op) (ended : Bool) : follows ended token.kind = some false := by
  rw [follows_operator h, hop]

theorem follows_behind {token : Token} {op : Operator} (h : token.operator? = some op)
    (hop : endedAfter true (.operator op) = true) : follows true token.kind = some true := by
  rw [follows_operator h, hop]

theorem isBetween_of_isAssignment {op : Operator} (h : op.isAssignment = true) : IsBetween op := by
  cases op <;> first | decide | cases h

theorem isBetween_of_mem_levels {level : Level} (h : level ∈ levels) {op : Operator}
    (hop : op ∈ level.operators) : IsBetween op := by
  revert level op
  decide

namespace Derivation

variable {s : Symbol}

/-- Derived tokens end with an operand, and none of their operands stands behind another. -/
theorem follows_tokens (d : Derivation s) (hs : s.IsProper) :
    (d.tokens.map Token.kind).foldlM follows false = some true := by
  -- A part begins where no operand ends, and leaves one behind.
  induction d with
  | ofAssignment _ ih | ofConditional _ ih | suffixTarget _ ih | ofUnary _ ih | ofPower _ ih
  | ofSuffix _ ih | ofPrimary _ ih | argument _ ih => exact ih trivial
  | ofBinary _ ih => exact ih (List.suffix_refl _)
  | ofTighter _ ih => exact ih ((List.suffix_cons _ _).trans hs)
  | comma left sep hsep right ihl ihr | more left sep hsep right ihl ihr
  | raised left sep hsep right ihl ihr =>
    simp [ihl trivial, ihr trivial, follows_between hsep (by decide)]
  | assign left op hop value ihl ihv =>
    obtain ⟨o, ho, hopo⟩ := operator?_of_any hop
    simp [ihl trivial, ihv trivial, follows_between hopo (isBetween_of_isAssignment ho)]
  | choice condition mark hmark first sep hsep second ihc ihf ihs =>
    simp [ihc (List.suffix_refl _), ihf trivial, ihs trivial, follows_between hmark (by decide),
      follows_between hsep (by decide)]
  | prefixTarget op hop operand ih | prefixed op hop operand ih =>
    obtain ⟨o, ho, hopo⟩ := operator?_of_among? hop
    have hfront : endedAfter false (.operator o) = false := by
      clear hopo
      revert o
      decide
    simp [ih trivial, follows_operator hopo, hfront]
  | operation left op hop right ihl ihr =>
    obtain ⟨o, ho, hopo⟩ := operator?_of_among? hop
    have hbetween := isBetween_of_mem_levels (hs.subset (List.mem_cons_self ..)) ho
    simp [ihl hs, ihr ((List.suffix_cons _ _).trans hs), follows_between hopo hbetween]
  | emptyCall name hname left hleft right hright =>
    simp [follows_operand (operator?_eq_none_of_name? hname), follows_operator hleft,
      follows_operator hright, endedAfter, endsOperand]
  | call name hname left hleft args right hright ih =>
    simp [ih trivial, follows_operand (operator?_eq_none_of_name? hname),
      follows_between hleft (by decide), follows_behind hright (by decide)]
  | step operand op hop ih =>
    obtain ⟨o, ho, hopo⟩ := operator?_of_among? hop
    have hstep : endedAfter true (.operator o) = true := by
      clear hopo
      revert o
      decide
    simp [ih trivial, follows_behind hopo hstep]
  | leaf token htoken => simp [follows_operand htoken]
  | group left hleft inner right hright ih =>
    simp [ih trivial, follows_between hleft (by decide), follows_behind hright (by decide)]

theorem endsWithOperand_tokens (d : Derivation s) (hs : s.IsProper) :
    endsWithOperand (d.tokens.map Token.kind) = true := Token.foldl_of_follows (d.follows_tokens hs)

theorem exists_binary_of_leaf {operand : Token} (h : operand.operator? = none)
    (remaining : List Level) : ∃ d : Derivation (.binary remaining), d.tokens = [operand] := by
  induction remaining with
  | nil => exact ⟨.ofUnary (.ofPower (.ofSuffix (.ofPrimary (.leaf operand h)))), rfl⟩
  | cons level tighter ih =>
    obtain ⟨d, hd⟩ := ih
    exact ⟨.ofTighter d, hd⟩

end Derivation

def additive : Level := ⟨.additive, [.plus, .minus]⟩

theorem additive_mem_levels : additive ∈ levels := by simp [levels, additive]

def Symbol.TakesMinus : Symbol → Prop
  | .list | .assignment | .conditional => True
  | .binary remaining => additive ∈ remaining
  | _ => False

namespace Derivation

/-- Behind an expression come a minus and an operand. The last part takes them, and of this the
operand that is as loose as a sum. -/
theorem exists_minus {s : Symbol} (d : Derivation s) (hs : s.TakesMinus) {minus operand : Token}
    (hminus : minus.operator? = some .minus) (hoperand : operand.operator? = none) :
    ∃ d' : Derivation s, d'.tokens = d.tokens ++ [minus, operand] := by
  obtain hone := exists_binary_of_leaf hoperand
  have hamong : (among? additive.operators minus).isSome := by simp [among?, hminus, additive]
  induction d with
  | ofAssignment d ih =>
    obtain ⟨d', hd'⟩ := ih trivial
    exact ⟨.ofAssignment d', hd'⟩
  | comma left sep hsep right _ ih =>
    obtain ⟨right', hright⟩ := ih trivial
    exact ⟨.comma left sep hsep right', by simp [hright]⟩
  | ofConditional d ih =>
    obtain ⟨d', hd'⟩ := ih trivial
    exact ⟨.ofConditional d', hd'⟩
  | assign left op hop value _ ih =>
    obtain ⟨value', hvalue⟩ := ih trivial
    exact ⟨.assign left op hop value', by simp [hvalue]⟩
  | ofBinary d ih =>
    obtain ⟨d', hd'⟩ := ih additive_mem_levels
    exact ⟨.ofBinary d', hd'⟩
  | choice condition mark hmark first sep hsep second _ _ ih =>
    obtain ⟨second', hsecond⟩ := ih trivial
    exact ⟨.choice condition mark hmark first sep hsep second', by simp [hsecond]⟩
  | @ofTighter level tighter d ih =>
    obtain rfl | hs := List.mem_cons.1 hs
    · obtain ⟨right, hright⟩ := hone tighter
      exact ⟨.operation (.ofTighter d) minus hamong right, by simp [hright]⟩
    · obtain ⟨d', hd'⟩ := ih hs
      exact ⟨.ofTighter d', hd'⟩
  | @operation level tighter left op hop right _ ih =>
    obtain rfl | hs := List.mem_cons.1 hs
    · obtain ⟨last, hlast⟩ := hone tighter
      exact ⟨.operation (.operation left op hop right) minus hamong last, by simp [hlast]⟩
    · obtain ⟨right', hright⟩ := ih hs
      exact ⟨.operation left op hop right', by simp [hright]⟩
  | _ => cases hs

end Derivation

def IsReadFrom (text : String) (tree : Tree) : Prop :=
  ∃ tokens read, Token.tokenize text = .ok tokens ∧ Tree.parse tokens = .ok read ∧
    read.unplaced = tree

theorem IsReadFrom.unique {text : String} {tree tree' : Tree} (h : IsReadFrom text tree)
    (h' : IsReadFrom text tree') : tree = tree' := by
  obtain ⟨tokens, read, htokens, hread, rfl⟩ := h
  obtain ⟨_, _, htokens', hread', rfl⟩ := h'
  cases htokens.symm.trans htokens'
  cases hread.symm.trans hread'
  rfl

section Subtraction

variable {text : String} {tokens : List Token} {tree : Tree} {behind : List Char}

/-- What goes on with a minus and an operand is read, and only as one tree. -/
theorem exists_isReadFrom_of_minus (htokens : Token.tokenize text = .ok tokens)
    (htree : Tree.parse tokens = .ok tree) {operand : Kind} (hoperand : operand.operator? = none) :
    ∃ tree', ∀ behind, Token.Lexes (Token.behindOperand (tokens.map Token.kind) false) behind
        [.operator .minus, operand] true [] →
      IsReadFrom (String.ofList (text.toList ++ ' ' :: behind)) tree' := by
  obtain ⟨d, -, rfl⟩ := parse_eq_ok.1 htree
  have hminus : Token.operator? ⟨.operator .minus, 0⟩ = some .minus := rfl
  have hunplaced : Token.operator? ⟨operand, 0⟩ = none := hoperand
  obtain ⟨d', hd'⟩ := d.exists_minus trivial hminus hunplaced
  refine ⟨d'.tree.unplaced, fun behind hbehind => ?_⟩
  have hdepth : [Kind.operator .minus, operand].foldlM Token.depthAfter 0 = some 0 := by
    cases operand <;> first | rfl | cases hoperand
  obtain ⟨tokens', htokens', hkinds⟩ := Token.exists_tokenize_append htokens hbehind hdepth
  have hsame : tokens'.map Token.kind = d'.tokens.map Token.kind := by
    rw [hkinds, hd', List.map_append]
    rfl
  obtain ⟨tree', htree', htrees, -⟩ := exists_parse_of_kinds (parse_eq_ok.2 ⟨d', rfl, rfl⟩) hsame
  exact ⟨tokens', tree', htokens', htree', htrees⟩

/-- An operand behind an expression makes none. -/
theorem not_isReadFrom_of_operand (htokens : Token.tokenize text = .ok tokens)
    (htree : Tree.parse tokens = .ok tree) {operand : Kind} (hoperand : operand.operator? = none)
    (hbehind : Token.Lexes (Token.behindOperand (tokens.map Token.kind) false) behind [operand]
      true []) (tree' : Tree) :
    ¬ IsReadFrom (String.ofList (text.toList ++ ' ' :: behind)) tree' := by
  rintro ⟨tokens', read, htokens', hread, -⟩
  have hdepth : [operand].foldlM Token.depthAfter 0 = some 0 := by
    cases operand <;> first | rfl | cases hoperand
  obtain ⟨tokens'', htokens'', hkinds⟩ := Token.exists_tokenize_append htokens hbehind hdepth
  cases htokens'.symm.trans htokens''
  obtain ⟨d, -, rfl⟩ := parse_eq_ok.1 htree
  obtain ⟨d', -, rfl⟩ := parse_eq_ok.1 hread
  have hfollows := d'.follows_tokens trivial
  rw [hkinds] at hfollows
  have hends := d.endsWithOperand_tokens trivial
  rw [Token.endsWithOperand_of_follows hfollows hoperand] at hends
  cases hends

end Subtraction

/-- The sign of a number. No number with a sign stands where an operand has ended, unless this ends
with a step, and behind a step a sign in front of a digit is always part of a number. So taking a
number from an expression gives the same tree with the minus next to the digits or apart from them,
unless the expression ends with a step, and then there is no tree with the minus next to them. -/
theorem signs_of_tokenize {text : String} {tokens : List Token}
    (htokens : Token.tokenize text = .ok tokens) :
    (∀ before token after s cs, tokens = before ++ token :: after →
      Text.dropBytes token.position text.toList = some (s :: cs) → Token.isSign s = true →
      endsWithOperand (before.map Token.kind) = true →
        ((∃ literal, token.kind = Token.ofLiteral literal) ↔
          Literal.startsSigned (s :: cs) = true ∧ endsWithStep (before.map Token.kind) = true) ∧
        (Literal.startsSigned (s :: cs) = true → endsWithStep (before.map Token.kind) = false →
          token.kind = .operator (Token.signOperator s))) ∧
    ∀ tree, Tree.parse tokens = .ok tree → ∀ d more literal, d.isDigit = true →
      Literal.scan (d :: more) = some (literal, []) →
        ∃ tree', IsReadFrom (text ++ " - " ++ String.ofList (d :: more)) tree' ∧
          ∀ other, IsReadFrom (text ++ " -" ++ String.ofList (d :: more)) other ↔
            endsWithStep (tokens.map Token.kind) = false ∧ other = tree' := by
  refine ⟨?_, fun tree htree d more literal hd hread => ?_⟩
  · rintro before token after s cs rfl hplace hs hends
    exact Token.sign_of_tokenize htokens hplace hs hends
  have hends : endsWithOperand (tokens.map Token.kind) = true := by
    obtain ⟨derivation, -, rfl⟩ := parse_eq_ok.1 htree
    exact derivation.endsWithOperand_tokens trivial
  have hoperand (literal : Literal) : (Token.ofLiteral literal).operator? = none := by
    cases literal <;> rfl
  have hbehind := Token.behindOperand_of_endsWithOperand hends false
  have hgap : text ++ " - " ++ String.ofList (d :: more) =
      String.ofList (text.toList ++ ' ' :: '-' :: ' ' :: d :: more) := by
    rw [← String.toList_inj]
    simp
  have hnext : text ++ " -" ++ String.ofList (d :: more) =
      String.ofList (text.toList ++ ' ' :: '-' :: d :: more) := by
    rw [← String.toList_inj]
    simp
  obtain ⟨tree', hreads⟩ := exists_isReadFrom_of_minus htokens htree (hoperand literal)
  rw [hgap, hnext]
  refine ⟨tree', hreads _ (Token.lexes_minus_gap hd hread _), fun other => ?_⟩
  cases hstep : endsWithStep (tokens.map Token.kind) with
  | true =>
    rw [hstep] at hbehind
    obtain ⟨signed, hsigned⟩ := Token.lexes_signed hd hread
    rw [← show Token.behindOperand (tokens.map Token.kind) false = false from hbehind] at hsigned
    have hnone := not_isReadFrom_of_operand htokens htree (hoperand signed) hsigned other
    exact ⟨fun hother => absurd hother hnone, fun hother => nomatch hother.1⟩
  | false =>
    rw [hstep] at hbehind
    have hsame := hreads ('-' :: d :: more) (hbehind ▸ Token.lexes_minus hd hread)
    refine ⟨fun hother => ⟨rfl, hother.unique hsame⟩, ?_⟩
    rintro ⟨-, rfl⟩
    exact hsame

/-- Behind a name and a step the sign is part of the number, where it should be the operator. With
a blank behind it, it is. -/
theorem signs_of_step :
    Token.tokenize "x++ -1" =
      .ok [⟨.name "x", 0⟩, ⟨.operator .increment, 1⟩, ⟨.integer (-1), 4⟩] ∧
    Text.dropBytes 4 "x++ -1".toList = some ['-', '1'] ∧
    endsWithOperand [.name "x", .operator .increment] = true ∧
    (∃ literal, Kind.integer (-1) = Token.ofLiteral literal) ∧
    ∃ tree, Tree.parse [⟨.name "x", 0⟩, ⟨.operator .increment, 1⟩] = .ok tree ∧
      Literal.scan ['1'] = some (.integer 1, []) ∧
      ∃ tree', IsReadFrom "x++ - 1" tree' ∧ ∀ other, ¬ IsReadFrom "x++ -1" other := by
  have htokens : Token.tokenize "x++ -1" =
      .ok [⟨.name "x", 0⟩, ⟨.operator .increment, 1⟩, ⟨.integer (-1), 4⟩] := by cbv
  have hplace : Text.dropBytes 4 "x++ -1".toList = some ['-', '1'] := by cbv
  have hends : endsWithOperand [.name "x", .operator .increment] = true := by decide
  have hsign := (signs_of_tokenize htokens).1 [⟨.name "x", 0⟩, ⟨.operator .increment, 1⟩]
    ⟨.integer (-1), 4⟩ [] '-' ['1'] rfl hplace rfl hends
  have htokens' : Token.tokenize "x++" = .ok [⟨.name "x", 0⟩, ⟨.operator .increment, 1⟩] := by cbv
  obtain ⟨tree, htree⟩ :
      ∃ tree, Tree.parse [⟨.name "x", 0⟩, ⟨.operator .increment, 1⟩] = .ok tree := ⟨_, by cbv⟩
  have hread : Literal.scan ['1'] = some (.integer 1, []) := by cbv
  obtain ⟨tree', hapart, hnext⟩ :=
    (signs_of_tokenize htokens').2 tree htree '1' [] _ rfl hread
  refine ⟨htokens, hplace, hends, hsign.1.2 ⟨by decide, by decide⟩, tree, htree, hread, tree',
    hapart, fun other hother => ?_⟩
  cases ((hnext other).1 hother).1

end Grammar

end Reckoner
