import Reckoner.Proofs.Grammar.Complete

/-!
The leaves of a syntax tree are the derived tokens, and no tokens have two derivations: the rule at
the root of a tree tells the last production, and its children tell the rest.
-/

namespace Reckoner

namespace Tree

mutual

/-- The tokens of a tree from left to right. A comma between arguments is not kept in the tree, and
only leaves a gap. -/
def leaves : Tree → List (Option Token)
  | leaf token => [some token]
  | node rule children => leavesJoined (if rule = .arguments then [none] else []) children

def leavesJoined (gap : List (Option Token)) : List Tree → List (Option Token)
  | [] => []
  | [child] => child.leaves
  | child :: more => child.leaves ++ gap ++ leavesJoined gap more

end

def Shows (leaf : Option Token) (token : Token) : Prop :=
  match leaf with
  | some t => t = token
  | none => token.operator? = some .comma

theorem leavesJoined_append {gap : List (Option Token)} {trees : List Tree} (t : Tree)
    (h : trees ≠ []) :
    leavesJoined gap (trees ++ [t]) = leavesJoined gap trees ++ gap ++ t.leaves := by
  induction trees with
  | nil => exact absurd rfl h
  | cons u us ih =>
    cases us with
    | nil => simp [leavesJoined]
    | cons v vs =>
      have ih := ih (List.cons_ne_nil v vs)
      simp only [List.cons_append, leavesJoined, List.append_assoc] at ih ⊢
      rw [ih]

theorem leavesJoined_nil (trees : List Tree) : leavesJoined [] trees = trees.flatMap leaves := by
  induction trees with
  | nil => rfl
  | cons u us ih =>
    cases us with
    | nil => simp [leavesJoined]
    | cons v vs => simpa [leavesJoined] using ih

theorem leaves_node {rule : Rule} (h : rule ≠ .arguments) (children : List Tree) :
    (node rule children).leaves = children.flatMap leaves := by
  rw [leaves, if_neg h, leavesJoined_nil]

end Tree

namespace Grammar

open Reckoner.Tree

namespace Derivation

variable {s : Symbol}

theorem children_ne_nil (d : Derivation .arguments) : d.tree.children ≠ [] := by
  cases d <;> simp [tree, Tree.children]

/-- The leaves of a derived tree are the derived tokens, with commas in the gaps. -/
theorem forall₂_shows (d : Derivation s) (hs : s.IsProper) :
    List.Forall₂ Shows d.tree.leaves d.tokens := by
  have happend {l l' : List (Option Token)} {ts ts' : List Token} (h : List.Forall₂ Shows l ts)
      (h' : List.Forall₂ Shows l' ts') : List.Forall₂ Shows (l ++ l') (ts ++ ts') :=
    List.rel_append h h'
  have hcons {l : List (Option Token)} {ts : List Token} (t : Token)
      (h : List.Forall₂ Shows l ts) : List.Forall₂ Shows (some t :: l) (t :: ts) := .cons rfl h
  induction d with
  | ofAssignment _ ih | ofConditional _ ih | suffixTarget _ ih | ofUnary _ ih | ofPower _ ih
  | ofSuffix _ ih | ofPrimary _ ih => exact ih trivial
  | ofBinary _ ih => exact ih (List.suffix_refl _)
  | ofTighter _ ih => exact ih ((List.suffix_cons _ _).trans hs)
  | comma left sep _ right ihl ihr | assign left sep _ right ihl ihr
  | raised left sep _ right ihl ihr =>
    rw [tree, leaves_node (by decide)]
    simpa [tokens, leaves] using happend (ihl trivial) (hcons sep (ihr trivial))
  | operation left op _ right ihl ihr =>
    have hrule := rule_of_mem_levels (hs.subset (List.mem_cons_self ..))
    rw [tree, leaves_node (by rintro heq; simp [heq] at hrule)]
    simpa [tokens, leaves] using
      happend (ihl hs) (hcons op (ihr ((List.suffix_cons _ _).trans hs)))
  | prefixTarget op _ operand ih | prefixed op _ operand ih =>
    rw [tree, leaves_node (by decide)]
    simpa [tokens, leaves] using hcons op (ih trivial)
  | choice condition mark _ first sep _ second ihc ihf ihs =>
    rw [tree, leaves_node (by decide)]
    simpa [tokens, leaves] using happend (ihc (List.suffix_refl _))
      (hcons mark (happend (ihf trivial) (hcons sep (ihs trivial))))
  | emptyCall name _ left _ right _ =>
    rw [tree, leaves_node (by decide)]
    simpa [tokens, leaves] using hcons name (hcons left (hcons right .nil))
  | call name _ left _ args right _ ih =>
    rw [tree, leaves_node (by decide)]
    simpa [tokens, leaves] using
      hcons name (hcons left (happend (ih trivial) (hcons right .nil)))
  | step operand op _ ih =>
    rw [tree, leaves_node (by decide)]
    simpa [tokens, leaves] using happend (ih trivial) (hcons op .nil)
  | argument _ ih => simpa [tree, tokens, leaves, leavesJoined] using ih trivial
  | more before sep hsep next ihb ihn =>
    have hbefore := ihb trivial
    rw [tree_arguments, leaves, if_pos rfl] at hbefore
    rw [tree, leaves, if_pos rfl, leavesJoined_append _ before.children_ne_nil]
    have hgap : Shows none sep := hsep
    simpa [tokens] using happend hbefore (.cons hgap (ihn trivial))
  | leaf token _ =>
    rw [tree, leaves]
    exact hcons token .nil
  | group left _ inner right _ ih =>
    rw [tree, leaves_node (by decide)]
    simpa [tokens, leaves] using hcons left (happend (ih trivial) (hcons right .nil))

/-- As many tokens are derived as the tree has leaves and gaps. -/
theorem length_tokens (d : Derivation s) (hs : s.IsProper) :
    d.tokens.length = d.tree.leaves.length := (d.forall₂_shows hs).length_eq.symm

end Derivation

def binaryRoots (remaining : List Level) : List Rule :=
  remaining.map Level.rule ++ [.unary, .power, .suffix, .group]

def Symbol.roots : Symbol → List Rule
  | .list => .list :: .assignment :: .conditional :: binaryRoots levels
  | .assignment => .assignment :: .conditional :: binaryRoots levels
  | .target => [.unary, .suffix, .group]
  | .conditional => .conditional :: binaryRoots levels
  | .binary remaining => binaryRoots remaining
  | .unary => [.unary, .power, .suffix, .group]
  | .power => [.power, .suffix, .group]
  | .suffix => [.suffix, .group]
  | .arguments => [.arguments]
  | .primary => [.group]

namespace Derivation

theorem rule_mem_roots (d : Derivation s) : ∀ rule ∈ d.tree.rule?, rule ∈ s.roots := by
  induction d with
  | ofAssignment _ ih | ofConditional _ ih | ofBinary _ ih | ofTighter _ ih | ofPower _ ih
  | ofSuffix _ ih | ofPrimary _ ih | suffixTarget _ ih =>
    intro rule hrule
    exact .tail _ (ih rule hrule)
  | ofUnary _ ih => exact ih
  | comma | assign | prefixTarget | choice | operation | prefixed | raised | emptyCall | call
  | step | argument | more | group =>
    rintro rule ⟨⟩
    simp [Symbol.roots, binaryRoots]
  | leaf => nofun

theorem rule?_ne {rule : Rule} (d : Derivation s) (h : rule ∉ s.roots) :
    d.tree.rule? ≠ some rule := fun hrule => h (d.rule_mem_roots rule hrule)

/-- No level shares its rule with a tighter one. -/
theorem rule_notMem_roots {level : Level} {tighter : List Level}
    (h : level :: tighter <:+ levels) : level.rule ∉ (Symbol.binary tighter).roots := by
  have hnodup : (binaryRoots levels).Nodup := by decide
  have hsuffix : binaryRoots (level :: tighter) <:+ binaryRoots levels :=
    List.suffix_append_self_iff.2 (h.map _)
  exact (List.nodup_cons.1 (hnodup.sublist hsuffix.sublist)).1

theorem argument_tree_ne (d : Derivation .assignment) (before : Derivation .arguments)
    {sep : Token} {hsep : sep.operator? = some .comma} {next : Derivation .assignment} :
    (argument d).tree ≠ (more before sep hsep next).tree := by
  intro htree
  simp only [tree, Tree.node.injEq, true_and] at htree
  have hlength := congrArg List.length htree
  simp [before.children_ne_nil] at hlength

/-- Derivations of one tree take as many tokens off the front of a list. -/
theorem split_tokens (d : Derivation s) {d' : Derivation s} {c c' : Token}
    {rest rest' : List Token} (hs : s.IsProper) (htree : d.tree = d'.tree)
    (h : d.tokens ++ c :: rest = d'.tokens ++ c' :: rest') :
    d.tokens = d'.tokens ∧ c = c' ∧ rest = rest' := by
  have hlength : d.tokens.length = d'.tokens.length := by
    rw [d.length_tokens hs, d'.length_tokens hs, htree]
  obtain ⟨hfront, hback⟩ := List.append_inj h hlength
  exact ⟨hfront, List.cons.inj hback⟩

/-- Derivations of one tree and the same tokens are the same: in each case the rule at the root
and the number of children fix the production. -/
theorem eq_of_tree_eq (d d' : Derivation s) (hs : s.IsProper) (htree : d.tree = d'.tree)
    (htokens : d.tokens = d'.tokens) : d = d' := by
  induction d with
  | ofAssignment d ih =>
    cases d' with
    | ofAssignment d' => rw [ih d' trivial htree htokens]
    | comma => exact absurd (congrArg rule? htree) (d.rule?_ne (by decide))
  | comma left sep _ right ihl ihr =>
    cases d' with
    | ofAssignment d' => exact absurd (congrArg rule? htree.symm) (d'.rule?_ne (by decide))
    | comma left' sep' _ right' =>
      simp only [tree, Tree.node.injEq, List.cons.injEq] at htree
      obtain ⟨-, hleft, -, hright, -⟩ := htree
      obtain ⟨hfront, rfl, htail⟩ := left.split_tokens trivial hleft htokens
      obtain rfl := ihl left' trivial hleft hfront
      obtain rfl := ihr right' trivial hright htail
      rfl
  | ofConditional d ih =>
    cases d' with
    | ofConditional d' => rw [ih d' trivial htree htokens]
    | assign => exact absurd (congrArg rule? htree) (d.rule?_ne (by decide))
  | assign left op _ value ihl ihr =>
    cases d' with
    | ofConditional d' => exact absurd (congrArg rule? htree.symm) (d'.rule?_ne (by decide))
    | assign left' op' _ value' =>
      simp only [tree, Tree.node.injEq, List.cons.injEq] at htree
      obtain ⟨-, hleft, -, hright, -⟩ := htree
      obtain ⟨hfront, rfl, htail⟩ := left.split_tokens trivial hleft htokens
      obtain rfl := ihl left' trivial hleft hfront
      obtain rfl := ihr value' trivial hright htail
      rfl
  | prefixTarget op _ operand ih =>
    cases d' with
    | prefixTarget op' _ operand' =>
      simp only [tree, Tree.node.injEq, List.cons.injEq] at htree
      obtain ⟨rfl, hback⟩ := List.cons.inj htokens
      obtain rfl := ih operand' trivial htree.2.2.1 hback
      rfl
    | suffixTarget d' => exact absurd (congrArg rule? htree.symm) (d'.rule?_ne (by decide))
  | suffixTarget d ih =>
    cases d' with
    | prefixTarget => exact absurd (congrArg rule? htree) (d.rule?_ne (by decide))
    | suffixTarget d' => rw [ih d' trivial htree htokens]
  | ofBinary d ih =>
    cases d' with
    | ofBinary d' => rw [ih d' (List.suffix_refl _) htree htokens]
    | choice => exact absurd (congrArg rule? htree) (d.rule?_ne (by decide))
  | choice condition mark _ first sep _ second ihc ihf ihs =>
    cases d' with
    | ofBinary d' => exact absurd (congrArg rule? htree.symm) (d'.rule?_ne (by decide))
    | choice condition' mark' _ first' sep' _ second' =>
      simp only [tree, Tree.node.injEq, List.cons.injEq] at htree
      obtain ⟨-, hcondition, -, hfirst, -, hsecond, -⟩ := htree
      obtain ⟨hfront, rfl, htail⟩ := condition.split_tokens (List.suffix_refl _) hcondition htokens
      obtain ⟨hmiddle, rfl, hend⟩ := first.split_tokens trivial hfirst htail
      obtain rfl := ihc condition' (List.suffix_refl _) hcondition hfront
      obtain rfl := ihf first' trivial hfirst hmiddle
      obtain rfl := ihs second' trivial hsecond hend
      rfl
  | ofTighter d ih =>
    cases d' with
    | ofTighter d' => rw [ih d' ((List.suffix_cons _ _).trans hs) htree htokens]
    | operation => exact absurd (congrArg rule? htree) (d.rule?_ne (rule_notMem_roots hs))
  | operation left op _ right ihl ihr =>
    cases d' with
    | ofTighter d' =>
      exact absurd (congrArg rule? htree.symm) (d'.rule?_ne (rule_notMem_roots hs))
    | operation left' op' _ right' =>
      simp only [tree, Tree.node.injEq, List.cons.injEq] at htree
      obtain ⟨-, hleft, -, hright, -⟩ := htree
      obtain ⟨hfront, rfl, htail⟩ := left.split_tokens hs hleft htokens
      obtain rfl := ihl left' hs hleft hfront
      obtain rfl := ihr right' ((List.suffix_cons _ _).trans hs) hright htail
      rfl
  | ofUnary d ih =>
    cases d' with
    | ofUnary d' => rw [ih d' trivial htree htokens]
  | prefixed op _ operand ih =>
    cases d' with
    | prefixed op' _ operand' =>
      simp only [tree, Tree.node.injEq, List.cons.injEq] at htree
      obtain ⟨rfl, hback⟩ := List.cons.inj htokens
      obtain rfl := ih operand' trivial htree.2.2.1 hback
      rfl
    | ofPower d' => exact absurd (congrArg rule? htree.symm) (d'.rule?_ne (by decide))
  | ofPower d ih =>
    cases d' with
    | prefixed => exact absurd (congrArg rule? htree) (d.rule?_ne (by decide))
    | ofPower d' => rw [ih d' trivial htree htokens]
  | ofSuffix d ih =>
    cases d' with
    | ofSuffix d' => rw [ih d' trivial htree htokens]
    | raised => exact absurd (congrArg rule? htree) (d.rule?_ne (by decide))
  | raised base op _ exponent ihb ihe =>
    cases d' with
    | ofSuffix d' => exact absurd (congrArg rule? htree.symm) (d'.rule?_ne (by decide))
    | raised base' op' _ exponent' =>
      simp only [tree, Tree.node.injEq, List.cons.injEq] at htree
      obtain ⟨-, hbase, -, hexponent, -⟩ := htree
      obtain ⟨hfront, rfl, htail⟩ := base.split_tokens trivial hbase htokens
      obtain rfl := ihb base' trivial hbase hfront
      obtain rfl := ihe exponent' trivial hexponent htail
      rfl
  | ofPrimary d ih =>
    cases d' with
    | ofPrimary d' => rw [ih d' trivial htree htokens]
    | emptyCall | call | step => exact absurd (congrArg rule? htree) (d.rule?_ne (by decide))
  | emptyCall name _ left _ right _ =>
    cases d' with
    | ofPrimary d' => exact absurd (congrArg rule? htree.symm) (d'.rule?_ne (by decide))
    | emptyCall => cases htokens; rfl
    | call | step => simp [tree] at htree
  | call name _ left _ args right _ ih =>
    cases d' with
    | ofPrimary d' => exact absurd (congrArg rule? htree.symm) (d'.rule?_ne (by decide))
    | emptyCall | step => simp [tree] at htree
    | call name' _ left' _ args' right' _ =>
      simp only [tree, Tree.node.injEq, List.cons.injEq] at htree
      obtain ⟨rfl, hback⟩ := List.cons.inj htokens
      obtain ⟨rfl, htail⟩ := List.cons.inj hback
      obtain ⟨hmiddle, rfl, -⟩ := args.split_tokens trivial htree.2.2.2.1 htail
      obtain rfl := ih args' trivial htree.2.2.2.1 hmiddle
      rfl
  | step operand op _ ih =>
    cases d' with
    | ofPrimary d' => exact absurd (congrArg rule? htree.symm) (d'.rule?_ne (by decide))
    | emptyCall | call => simp [tree] at htree
    | step operand' op' _ =>
      simp only [tree, Tree.node.injEq, List.cons.injEq] at htree
      obtain ⟨hfront, rfl, -⟩ := operand.split_tokens trivial htree.2.1 htokens
      obtain rfl := ih operand' trivial htree.2.1 hfront
      rfl
  | argument d ih =>
    cases d' with
    | argument d' =>
      have hchild : d.tree = d'.tree := by simpa [tree] using htree
      rw [ih d' trivial hchild htokens]
    | more before => exact absurd htree (d.argument_tree_ne before)
  | more before sep _ next ihb ihn =>
    cases d' with
    | argument d' => exact absurd htree.symm (d'.argument_tree_ne before)
    | more before' sep' _ next' =>
      have hchildren := congrArg Tree.children htree
      obtain ⟨hbefore, hnext⟩ := List.append_inj' hchildren rfl
      have hbefore : before.tree = before'.tree := by
        rw [before.tree_arguments, before'.tree_arguments, hbefore]
      obtain ⟨hfront, rfl, htail⟩ := before.split_tokens trivial hbefore htokens
      obtain rfl := ihb before' trivial hbefore hfront
      obtain rfl := ihn next' trivial (List.cons.inj hnext).1 htail
      rfl
  | leaf token _ =>
    cases d' with
    | leaf => cases htokens; rfl
    | group => cases htree
  | group left _ inner right _ ih =>
    cases d' with
    | leaf => cases htree
    | group left' _ inner' right' _ =>
      simp only [tree, Tree.node.injEq, List.cons.injEq] at htree
      obtain ⟨rfl, hback⟩ := List.cons.inj htokens
      obtain ⟨hmiddle, rfl, -⟩ := inner.split_tokens trivial htree.2.2.1 hback
      obtain rfl := ih inner' trivial htree.2.2.1 hmiddle
      rfl

/-- No tokens have two derivations, since both have the tree that is read from the tokens. -/
theorem eq_of_tokens_eq {d d' : Derivation .list} (h : d.tokens = d'.tokens) : d = d' := by
  have hparse : Tree.parse d.tokens = .ok d.tree := parse_eq_ok.2 ⟨d, rfl, rfl⟩
  have hparse' : Tree.parse d.tokens = .ok d'.tree := parse_eq_ok.2 ⟨d', rfl, h.symm⟩
  have htree : d.tree = d'.tree := Except.ok.inj (hparse.symm.trans hparse')
  exact eq_of_tree_eq d d' trivial htree h

end Derivation

/-- A token list is read exactly when the grammar derives it. The tree is that of its only
derivation, and shows the tokens from left to right. -/
theorem parse_eq_ok_iff_unique (ts : List Token) :
    ((∃ t, Tree.parse ts = .ok t) ↔ ∃ d : Derivation .list, d.tokens = ts) ∧
      ∀ t, Tree.parse ts = .ok t ↔
        ∃ d : Derivation .list, d.tokens = ts ∧ (∀ e : Derivation .list, e.tokens = ts → e = d) ∧
          d.tree = t ∧ List.Forall₂ Shows t.leaves ts := by
  constructor
  · constructor
    · rintro ⟨t, ht⟩
      obtain ⟨d, -, hd⟩ := parse_eq_ok.1 ht
      exact ⟨d, hd⟩
    · rintro ⟨d, hd⟩
      exact ⟨d.tree, parse_eq_ok.2 ⟨d, rfl, hd⟩⟩
  · intro t
    constructor
    · intro ht
      obtain ⟨d, rfl, rfl⟩ := parse_eq_ok.1 ht
      exact ⟨d, rfl, fun e he => Derivation.eq_of_tokens_eq he, rfl, d.forall₂_shows trivial⟩
    · rintro ⟨d, hd, -, htree, -⟩
      exact parse_eq_ok.2 ⟨d, htree, hd⟩

end Grammar

end Reckoner
