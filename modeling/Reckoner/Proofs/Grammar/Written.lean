import Reckoner.Proofs.Grammar.Unambiguous
import Reckoner.Proofs.Program.Positions
import Reckoner.Proofs.Token.Written

/-!
The text of a syntax tree is read back. Between its tokens are blanks, so that each token is scanned
as what it was: an operator needs none in front of it, and a number always begins where an operand
does. What is scanned is of the kinds that the tree was derived from, and positions have no part in
how tokens are derived.
-/

namespace Reckoner

def Token.unplaced (token : Token) : Token := ⟨token.kind, 0⟩

theorem Token.map_unplaced {tokens tokens' : List Token}
    (h : tokens'.map Token.kind = tokens.map Token.kind) :
    tokens'.map Token.unplaced = tokens.map Token.unplaced := by
  have hmap (ts : List Token) :
      ts.map Token.unplaced = (ts.map Token.kind).map fun kind => ⟨kind, 0⟩ := by
    rw [List.map_map]
    rfl
  rw [hmap, hmap, h]

namespace Tree

mutual

def unplaced : Tree → Tree
  | leaf token => leaf token.unplaced
  | node rule children => node rule (unplacedAll children)

def unplacedAll : List Tree → List Tree
  | [] => []
  | child :: more => child.unplaced :: unplacedAll more

end

theorem unplacedAll_eq_map (trees : List Tree) : unplacedAll trees = trees.map unplaced := by
  induction trees with
  | nil => rw [unplacedAll, List.map_nil]
  | cons tree trees ih => rw [unplacedAll, List.map_cons, ih]

theorem unplaced_leaf (token : Token) : (leaf token).unplaced = leaf token.unplaced := by
  rw [unplaced]

theorem unplaced_node (rule : Rule) (children : List Tree) :
    (node rule children).unplaced = node rule (children.map unplaced) := by
  rw [unplaced, unplacedAll_eq_map]

theorem children_unplaced (tree : Tree) : tree.unplaced.children = tree.children.map unplaced := by
  cases tree with
  | leaf token => rw [unplaced_leaf, children, children, List.map_nil]
  | node rule trees => rw [unplaced_node, children, children]

theorem charsJoined_append {separator : List Char} {trees : List Tree} (t : Tree)
    (h : trees ≠ []) :
    charsJoined separator (trees ++ [t]) = charsJoined separator trees ++ separator ++ t.chars := by
  induction trees with
  | nil => exact absurd rfl h
  | cons u us ih =>
    cases us with
    | nil => simp [charsJoined]
    | cons v vs =>
      have ih := ih (List.cons_ne_nil v vs)
      simp only [List.cons_append, charsJoined, List.append_assoc] at ih ⊢
      rw [ih]

theorem chars_leaf (token : Token) : (leaf token).chars = token.kind.chars := by
  rw [chars, Token.chars]

theorem chars_node {rule : Rule} (h : rule ≠ .arguments) (children : List Tree) :
    (node rule children).chars = charsJoined [' '] children := by
  rw [chars, if_neg h]

end Tree

namespace Grammar

open Reckoner.Tree (Level levels)

namespace Derivation

variable {s : Symbol}

def unplaced {s : Symbol} : Derivation s → Derivation s
  | ofAssignment d => .ofAssignment d.unplaced
  | comma left sep hsep right => .comma left.unplaced sep.unplaced hsep right.unplaced
  | ofConditional d => .ofConditional d.unplaced
  | assign left op hop value => .assign left.unplaced op.unplaced hop value.unplaced
  | prefixTarget op hop operand => .prefixTarget op.unplaced hop operand.unplaced
  | suffixTarget d => .suffixTarget d.unplaced
  | ofBinary d => .ofBinary d.unplaced
  | choice condition mark hmark first sep hsep second =>
    .choice condition.unplaced mark.unplaced hmark first.unplaced sep.unplaced hsep second.unplaced
  | ofTighter d => .ofTighter d.unplaced
  | operation left op hop right => .operation left.unplaced op.unplaced hop right.unplaced
  | ofUnary d => .ofUnary d.unplaced
  | prefixed op hop operand => .prefixed op.unplaced hop operand.unplaced
  | ofPower d => .ofPower d.unplaced
  | ofSuffix d => .ofSuffix d.unplaced
  | raised base op hop exponent => .raised base.unplaced op.unplaced hop exponent.unplaced
  | ofPrimary d => .ofPrimary d.unplaced
  | emptyCall name hname left hleft right hright =>
    .emptyCall name.unplaced hname left.unplaced hleft right.unplaced hright
  | call name hname left hleft args right hright =>
    .call name.unplaced hname left.unplaced hleft args.unplaced right.unplaced hright
  | step operand op hop => .step operand.unplaced op.unplaced hop
  | argument d => .argument d.unplaced
  | more before sep hsep next => .more before.unplaced sep.unplaced hsep next.unplaced
  | leaf token htoken => .leaf token.unplaced htoken
  | group left hleft inner right hright =>
    .group left.unplaced hleft inner.unplaced right.unplaced hright

theorem tokens_unplaced (d : Derivation s) : d.unplaced.tokens = d.tokens.map Token.unplaced := by
  induction d <;> simp_all [unplaced, tokens]

theorem tree_unplaced (d : Derivation s) : d.unplaced.tree = d.tree.unplaced := by
  induction d <;>
    simp_all [unplaced, tree, Tree.unplaced_node, Tree.unplaced_leaf, Tree.children_unplaced]

end Derivation

/-- Tokens of the same kinds are read as the same tree, but for their positions. -/
theorem exists_parse_of_kinds {tokens tokens' : List Token} {tree : Tree}
    (h : Tree.parse tokens = .ok tree) (hkinds : tokens'.map Token.kind = tokens.map Token.kind) :
    ∃ tree', Tree.parse tokens' = .ok tree' ∧ tree'.unplaced = tree.unplaced ∧
      ∀ registry, Program.compile registry tree' = Program.compile registry tree := by
  obtain ⟨d, rfl, rfl⟩ := parse_eq_ok.1 h
  obtain ⟨d', rfl, -, hcompile⟩ := Program.exists_relabel d trivial hkinds
  refine ⟨d'.tree, parse_eq_ok.2 ⟨d', rfl, rfl⟩, ?_, hcompile⟩
  have htokens : d'.unplaced.tokens = d.unplaced.tokens := by
    rw [Derivation.tokens_unplaced, Derivation.tokens_unplaced, Token.map_unplaced hkinds]
  rw [← Derivation.tree_unplaced, ← Derivation.tree_unplaced, Derivation.eq_of_tokens_eq htokens]

theorem closeBracket_notMem_operators {level : Level} (h : level ∈ levels) :
    Operator.closeBracket ∉ level.operators := by
  revert level
  decide

theorem ne_closeBracket {operators : List Operator} {op : Operator} (h : op ∈ operators)
    (hclose : Operator.closeBracket ∉ operators) : op ≠ .closeBracket := by
  rintro rfl
  exact hclose h

namespace Derivation

variable {s : Symbol}

/-- The text of a derived tree spells the derived tokens. -/
theorem spells (d : Derivation s) (hs : s.IsProper)
    (h : ∀ token ∈ d.tokens, token.kind.ReadsBack) :
    Token.Spells false d.tree.chars (d.tokens.map Token.kind) := by
  -- A part always begins where an operand does: at the start, or behind an operator.
  induction d with
  | ofAssignment _ ih | ofConditional _ ih | suffixTarget _ ih | ofUnary _ ih | ofPower _ ih
  | ofSuffix _ ih | ofPrimary _ ih => exact ih trivial h
  | ofBinary _ ih => exact ih (List.suffix_refl _) h
  | ofTighter _ ih => exact ih ((List.suffix_cons _ _).trans hs) h
  | comma left sep hsep right ihl ihr =>
    simp only [tokens, List.forall_mem_append, List.forall_mem_cons] at h
    have hspells := (ihl trivial h.1).between h.2.1 hsep (by decide) (ihr trivial h.2.2)
    rw [tree, Tree.chars_node (by decide)]
    simpa [tokens, Tree.charsJoined, Tree.chars_leaf] using hspells
  | assign left op hop value ihl ihv =>
    simp only [tokens, List.forall_mem_append, List.forall_mem_cons] at h
    obtain ⟨o, ho, hopo⟩ := operator?_of_any hop
    have hne : o ≠ .closeBracket := by
      rintro rfl
      cases ho
    have hspells := (ihl trivial h.1).between h.2.1 hopo hne (ihv trivial h.2.2)
    rw [tree, Tree.chars_node (by decide)]
    simpa [tokens, Tree.charsJoined, Tree.chars_leaf] using hspells
  | choice condition mark hmark first sep hsep second ihc ihf ihs =>
    simp only [tokens, List.forall_mem_append, List.forall_mem_cons] at h
    obtain ⟨hcondition, hmark', hfirst, hsep', hsecond⟩ := h
    have hbranches := (ihf trivial hfirst).between hsep' hsep (by decide) (ihs trivial hsecond)
    have hspells := (ihc (List.suffix_refl _) hcondition).between hmark' hmark (by decide) hbranches
    rw [tree, Tree.chars_node (by decide)]
    simpa [tokens, Tree.charsJoined, Tree.chars_leaf] using hspells
  | prefixTarget op hop operand ih | prefixed op hop operand ih =>
    simp only [tokens, List.forall_mem_cons] at h
    obtain ⟨o, ho, hopo⟩ := operator?_of_among? hop
    have hspells := Token.Spells.operator h.1 hopo (ne_closeBracket ho (by decide))
      (ih trivial h.2) false
    rw [tree, Tree.chars_node (by decide)]
    simpa [tokens, Tree.charsJoined, Tree.chars_leaf] using hspells
  | operation left op hop right ihl ihr =>
    simp only [tokens, List.forall_mem_append, List.forall_mem_cons] at h
    obtain ⟨o, ho, hopo⟩ := operator?_of_among? hop
    have hlevel := hs.subset (List.mem_cons_self ..)
    have hrule := rule_of_mem_levels hlevel
    have hspells := (ihl hs h.1).between h.2.1 hopo
      (ne_closeBracket ho (closeBracket_notMem_operators hlevel))
      (ihr ((List.suffix_cons _ _).trans hs) h.2.2)
    rw [tree, Tree.chars_node (by rintro heq; simp [heq] at hrule)]
    simpa [tokens, Tree.charsJoined, Tree.chars_leaf] using hspells
  | raised base op hop exponent ihb ihe =>
    simp only [tokens, List.forall_mem_append, List.forall_mem_cons] at h
    have hspells := (ihb trivial h.1).between h.2.1 hop (by decide) (ihe trivial h.2.2)
    rw [tree, Tree.chars_node (by decide)]
    simpa [tokens, Tree.charsJoined, Tree.chars_leaf] using hspells
  | emptyCall name hname left hleft right hright =>
    simp only [tokens, List.forall_mem_cons] at h
    obtain ⟨hname', hleft', hright', -⟩ := h
    have hbrackets (before : Bool) := (Token.Spells.token
      (hleft'.scans_operator hleft before)).behind hright' hright
    have hspells := (Token.Spells.token hname').append hbrackets
    rw [tree, Tree.chars_node (by decide)]
    simpa [tokens, Tree.charsJoined, Tree.chars_leaf] using hspells
  | call name hname left hleft args right hright ih =>
    simp only [tokens, List.forall_mem_append, List.forall_mem_cons] at h
    obtain ⟨hname', hleft', hargs, hright', -⟩ := h
    have hinner := (ih trivial hargs).behind hright' hright
    have hspells := (Token.Spells.token hname').between hleft' hleft (by decide) hinner
    rw [tree, Tree.chars_node (by decide)]
    simpa [tokens, Tree.charsJoined, Tree.chars_leaf] using hspells
  | step operand op hop ih =>
    simp only [tokens, List.forall_mem_append, List.forall_mem_cons] at h
    obtain ⟨o, -, hopo⟩ := operator?_of_among? hop
    have hspells := (ih trivial h.1).behind h.2.1 hopo
    rw [tree, Tree.chars_node (by decide)]
    simpa [tokens, Tree.charsJoined, Tree.chars_leaf] using hspells
  | argument d ih => simpa [tree, Tree.chars, Tree.charsJoined] using ih trivial h
  | more before sep hsep next ihb ihn =>
    simp only [tokens, List.forall_mem_append, List.forall_mem_cons] at h
    have hbefore := ihb trivial h.1
    rw [tree_arguments, Tree.chars, if_pos rfl] at hbefore
    have hspells := hbefore.comma (ihn trivial h.2.2)
    have hkind : sep.kind = .operator .comma := Token.Kind.eq_operator hsep
    rw [tree, Tree.chars, if_pos rfl, Tree.charsJoined_append _ before.children_ne_nil]
    simpa [tokens, hkind] using hspells
  | leaf token htoken =>
    rw [tree, Tree.chars_leaf]
    exact Token.Spells.token (h token (List.mem_singleton_self token))
  | group left hleft inner right hright ih =>
    simp only [tokens, List.forall_mem_append, List.forall_mem_cons] at h
    obtain ⟨hleft', hinner, hright', -⟩ := h
    have hspells := Token.Spells.operator hleft' hleft (by decide)
      ((ih trivial hinner).behind hright' hright) false
    rw [tree, Tree.chars_node (by decide)]
    simpa [tokens, Tree.charsJoined, Tree.chars_leaf] using hspells

end Derivation

/-- A text that spells the kinds of tokens is split into tokens of these kinds, which are read as
those are. -/
theorem exists_parse_of_spells {text : String} {tokens : List Token} {tree : Tree}
    (h : Tree.parse tokens = .ok tree)
    (hspells : Token.Spells false text.toList (tokens.map Token.kind))
    (hdepth : (tokens.map Token.kind).foldlM Token.depthAfter ([] : List Nat).length = some 0) :
    ∃ tokens' tree', Token.tokenize text = .ok tokens' ∧ Tree.parse tokens' = .ok tree' ∧
      tree'.unplaced = tree.unplaced ∧
      ∀ registry, Program.compile registry tree' = Program.compile registry tree := by
  obtain ⟨after, hlexes⟩ := hspells [] (.nil [])
  rw [List.append_nil] at hlexes
  obtain ⟨tokens', htokens', hkinds⟩ := Token.exists_scanAll hlexes hdepth 0
  obtain ⟨tree', htree', hsame⟩ := exists_parse_of_kinds h hkinds
  exact ⟨tokens', tree', htokens', htree', hsame⟩

/-- The text of a tree that was read from tokens is split, and read as this tree. -/
theorem exists_parse_text {tokens : List Token} {tree : Tree} (h : Tree.parse tokens = .ok tree)
    (hback : ∀ token ∈ tokens, token.kind.ReadsBack)
    (hdepth : (tokens.map Token.kind).foldlM Token.depthAfter ([] : List Nat).length = some 0) :
    ∃ tokens' tree', Token.tokenize tree.text = .ok tokens' ∧ Tree.parse tokens' = .ok tree' ∧
      tree'.unplaced = tree.unplaced := by
  have hspells : Token.Spells false tree.text.toList (tokens.map Token.kind) := by
    obtain ⟨d, rfl, rfl⟩ := parse_eq_ok.1 h
    rw [Tree.text, String.toList_ofList]
    exact d.spells trivial hback
  obtain ⟨tokens', tree', htokens', htree', hunplaced, -⟩ :=
    exists_parse_of_spells h hspells hdepth
  exact ⟨tokens', tree', htokens', htree', hunplaced⟩

/-- All tokens but commas are leaves. -/
theorem mem_of_forall₂_shows {leaves : List (Option Token)} {tokens : List Token} {token : Token}
    (h : List.Forall₂ Tree.Shows leaves tokens) (htoken : token ∈ tokens)
    (hne : token.operator? ≠ some .comma) : some token ∈ leaves := by
  induction h with
  | nil => cases htoken
  | @cons leaf first _ _ hshows _ ih =>
    obtain rfl | htoken := List.mem_cons.1 htoken
    · cases leaf with
      | none => exact absurd hshows hne
      | some other =>
        obtain rfl : other = token := hshows
        exact List.mem_cons_self ..
    · exact List.mem_cons_of_mem _ (ih htoken)

/-- The text of a tree that was read from a text is split and read again, as the same tree but for
the positions of its tokens. Integers are not the least one and reals are finite, and it takes that
what is written for a real is read as this real. -/
theorem parse_text {text : String} {tokens : List Token} {tree : Tree}
    (htokens : Token.tokenize text = .ok tokens) (htree : Tree.parse tokens = .ok tree)
    (hwritable : ∀ token, some token ∈ tree.leaves → token.kind.IsWritable)
    (hreads : ∀ token r, some token ∈ tree.leaves → token.kind = .real r →
      Decimal.readReal (Decimal.Layout.literal.render r) = some r) :
    ∃ tokens' tree', Token.tokenize tree.text = .ok tokens' ∧ Tree.parse tokens' = .ok tree' ∧
      tree'.unplaced = tree.unplaced := by
  obtain ⟨⟨after, hlexes⟩, hdepth⟩ := Token.lexes_of_tokenize htokens
  obtain ⟨d, rfl, rfl⟩ := parse_eq_ok.1 htree
  refine exists_parse_text htree (fun token htoken => ?_) hdepth
  obtain ⟨before, cs, rest, hscan⟩ := hlexes.exists_scans_of_mem (List.mem_map_of_mem htoken)
  by_cases hcomma : token.operator? = some .comma
  · rw [Token.Kind.eq_operator hcomma] at hscan ⊢
    exact hscan.readsBack trivial nofun
  · have hleaf := mem_of_forall₂_shows (d.forall₂_shows trivial) htoken hcomma
    exact hscan.readsBack (hwritable token hleaf) (hreads token · hleaf)

/-- A suffix operator, a minus and a negative real: each sign is read as what it was. -/
theorem parse_text_of_signs :
    ∃ tokens tree, Token.tokenize "x++ - -2.5" = .ok tokens ∧ Tree.parse tokens = .ok tree ∧
      tree.text = "x ++ - -2.5" ∧ (∀ token, some token ∈ tree.leaves → token.kind.IsWritable) ∧
      (∀ token r, some token ∈ tree.leaves → token.kind = .real r →
        Decimal.readReal (Decimal.Layout.literal.render r) = some r) ∧
      ∃ tokens' tree', Token.tokenize tree.text = .ok tokens' ∧ Tree.parse tokens' = .ok tree' ∧
        tree'.unplaced = tree.unplaced := by
  have htokens : Token.tokenize "x++ - -2.5" = .ok [⟨.name "x", 0⟩, ⟨.operator .increment, 1⟩,
      ⟨.operator .minus, 4⟩, ⟨.real (-2.5), 6⟩] := by
    have htext : "x++ - -2.5".toList = ['x', '+', '+', ' ', '-', ' ', '-', '2', '.', '5'] := rfl
    have hname : Token.scan false ['x', '+', '+', ' ', '-', ' ', '-', '2', '.', '5'] =
        .ok (.name "x", ['+', '+', ' ', '-', ' ', '-', '2', '.', '5']) := rfl
    have hincrement : Token.scan true ['+', '+', ' ', '-', ' ', '-', '2', '.', '5'] =
        .ok (.operator .increment, [' ', '-', ' ', '-', '2', '.', '5']) := rfl
    have hminus : Token.scan false ['-', ' ', '-', '2', '.', '5'] =
        .ok (.operator .minus, [' ', '-', '2', '.', '5']) := rfl
    have hreal : Token.scan false ['-', '2', '.', '5'] = .ok (.real (-2.5), []) := rfl
    rw [Token.tokenize, htext, Token.scanAll_cons rfl hname]
    simp only [Token.openedAfter, Token.endsOperand, Token.scanAll_cons rfl hincrement]
    rw [show (Operator.increment == .closeBracket) = false from rfl, Token.scanAll_gap rfl,
      Token.scanAll_cons rfl hminus]
    simp only [Token.openedAfter, Token.endsOperand]
    rw [show (Operator.minus == .closeBracket) = false from rfl, Token.scanAll_gap rfl,
      Token.scanAll_cons rfl hreal]
    simp only [Token.openedAfter, Token.endsOperand, Token.scanAll]
    rfl
  have hparse (r : Float) : Tree.parse [⟨.name "x", 0⟩, ⟨.operator .increment, 1⟩,
      ⟨.operator .minus, 4⟩, ⟨.real r, 6⟩] = .ok (.node .additive
        [.node .suffix [.leaf ⟨.name "x", 0⟩, .leaf ⟨.operator .increment, 1⟩],
          .leaf ⟨.operator .minus, 4⟩, .leaf ⟨.real r, 6⟩]) := by cbv
  obtain ⟨tree, htree, htext, hleaves⟩ : ∃ tree, Tree.parse [⟨.name "x", 0⟩,
      ⟨.operator .increment, 1⟩, ⟨.operator .minus, 4⟩, ⟨.real (-2.5), 6⟩] = .ok tree ∧
      tree.text = "x ++ - -2.5" ∧ tree.leaves = [some ⟨.name "x", 0⟩,
        some ⟨.operator .increment, 1⟩, some ⟨.operator .minus, 4⟩, some ⟨.real (-2.5), 6⟩] :=
    ⟨_, hparse (-2.5), by decide +kernel, rfl⟩
  have hwritable : ∀ token, some token ∈ tree.leaves → token.kind.IsWritable := by
    have hfinite : (Double.of (-2.5)).IsFinite := ⟨true, 5629499534213120, -51, by decide +kernel⟩
    simp only [hleaves, List.mem_cons, Option.some.injEq, List.not_mem_nil, or_false]
    rintro token (rfl | rfl | rfl | rfl)
    exacts [trivial, trivial, trivial, hfinite]
  have hreads : ∀ token r, some token ∈ tree.leaves → token.kind = .real r →
      Decimal.readReal (Decimal.Layout.literal.render r) = some r := by
    simp only [hleaves, List.mem_cons, Option.some.injEq, List.not_mem_nil, or_false]
    rintro token r (rfl | rfl | rfl | rfl) heq
    all_goals cases heq
    decide +kernel
  exact ⟨_, _, htokens, htree, htext, hwritable, hreads,
    parse_text htokens htree hwritable hreads⟩

end Grammar

end Reckoner
