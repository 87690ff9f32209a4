import Reckoner.Proofs.Function.Caches
import Reckoner.Proofs.Program.Positions
import Reckoner.Proofs.Token.Lexing

/-!
Texts with a comma between them. They are split and read each on its own, and the program of the
whole has the programs of both one after the other.
-/

namespace Reckoner

namespace Token

/-- Behind a comma, a text is split as it is at its start. -/
theorem exists_tokenize_comma {first second : String} {tokens tokens' : List Token}
    (h : tokenize first = .ok tokens) (h' : tokenize second = .ok tokens') :
    ∃ all, tokenize (first ++ ", " ++ second) = .ok all ∧
      all.map kind = tokens.map kind ++ .operator .comma :: tokens'.map kind := by
  obtain ⟨⟨after, hfirst⟩, hdepth⟩ := lexes_of_tokenize h
  obtain ⟨⟨after', hsecond⟩, hdepth'⟩ := lexes_of_tokenize h'
  obtain ⟨front, hfront, hreplace⟩ := hfirst.replace
  rw [List.append_nil] at hfront
  have hbehind := hreplace _ (MayReplace.append_break (c := ',') rfl [] (' ' :: second.toList))
  have hcomma : Scans after (',' :: ' ' :: second.toList) (.operator .comma)
      (' ' :: second.toList) := .operator (by cases after <;> rfl) rfl
  have hlexes := hbehind.trans (.token rfl hcomma (.gap rfl hsecond))
  have htext : (first ++ ", " ++ second).toList = front ++ ',' :: ' ' :: second.toList := by
    rw [← hfront]
    simp
  rw [List.nil_append, ← htext] at hlexes
  refine exists_scanAll hlexes ?_ 0
  rw [List.foldlM_append]
  simp [hdepth, depthAfter, hdepth']

end Token

def Tree.IsReadFrom (tree : Tree) (text : String) : Prop :=
  ∃ tokens, Token.tokenize text = .ok tokens ∧ Tree.parse tokens = .ok tree

namespace Program

open Reckoner.Tree Grammar

variable {registry : Registry} {first second : String} {tree tree' : Tree}

/-- A comma puts an expression behind what is there already, and both mean what they do alone. -/
theorem exists_isReadFrom_comma (h : tree.IsReadFrom first) (h' : tree'.IsReadFrom second)
    (hsingle : tree'.isList = false) :
    ∃ left sep right,
      (Tree.node .list [left, .leaf sep, right]).IsReadFrom (first ++ ", " ++ second) ∧
      ∀ registry, compile registry left = compile registry tree ∧
        compile registry right = compile registry tree' := by
  obtain ⟨_, htokens, hparse⟩ := h
  obtain ⟨_, htokens', hparse'⟩ := h'
  obtain ⟨d, rfl, rfl⟩ := parse_eq_ok.1 hparse
  obtain ⟨d', rfl, rfl⟩ := parse_eq_ok.1 hparse'
  cases d' with
  | comma => cases hsingle
  | ofAssignment d' =>
    obtain ⟨all, hall, hkinds⟩ := Token.exists_tokenize_comma htokens htokens'
    obtain ⟨_, rest, rfl, hleft, hrest⟩ := List.map_eq_append_iff.1 hkinds
    obtain ⟨sep, _, rfl, hsep, hright⟩ := List.map_eq_cons_iff.1 hrest
    obtain ⟨left, rfl, -, hcompile⟩ := exists_relabel d trivial hleft
    obtain ⟨right, rfl, -, hcompile'⟩ := exists_relabel d' trivial hright
    have hcomma : sep.operator? = some .comma := by
      rw [Token.operator?, hsep]
      rfl
    refine ⟨left.tree, sep, right.tree, ⟨_, hall, ?_⟩, fun registry =>
      ⟨hcompile registry, hcompile' registry⟩⟩
    exact parse_eq_ok.2 ⟨.comma left sep hcomma right, rfl, rfl⟩

end Program

namespace Machine

open Reckoner.Tree Program

variable {registry : Registry} {text first second : String} {tree : Tree} {code code' : Program}

theorem compileText_eq_ok :
    compileText registry text = .ok code ↔
      ∃ tree : Tree, tree.IsReadFrom text ∧ compile registry tree = .ok code := by
  constructor
  · intro h
    obtain ⟨tokens, htokens, h⟩ := bind_eq_ok.1 h
    obtain ⟨tree, htree, hcompile⟩ := bind_eq_ok.1 h
    exact ⟨tree, ⟨tokens, mapError_eq_ok.1 htokens, mapError_eq_ok.1 htree⟩, hcompile⟩
  · rintro ⟨tree, ⟨tokens, htokens, htree⟩, hcompile⟩
    exact bind_eq_ok.2 ⟨tokens, mapError_eq_ok.2 htokens,
      bind_eq_ok.2 ⟨tree, mapError_eq_ok.2 htree, hcompile⟩⟩

/-- The comma is the last instruction, and has nothing to do. -/
theorem compileText_comma (h : compileText registry first = .ok code) (h' : tree.IsReadFrom second)
    (hsingle : tree.isList = false) (hcompile : compile registry tree = .ok code') :
    compileText registry (first ++ ", " ++ second) =
      .ok (code ++ code' ++ [.operator .comma]) := by
  obtain ⟨_, hread, hfirst⟩ := compileText_eq_ok.1 h
  obtain ⟨left, sep, right, hjoined, hsame⟩ := exists_isReadFrom_comma hread h' hsingle
  refine compileText_eq_ok.2 ⟨_, hjoined, ?_⟩
  rw [compile, (hsame registry).1, (hsame registry).2, hfirst, hcompile]
  rfl

end Machine

end Reckoner
