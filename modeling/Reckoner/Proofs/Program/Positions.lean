import Reckoner.Proofs.Program.Clauses

/-!
Where tokens stand in a text has no part in what they mean. What is derived from some tokens can be
derived from tokens of the same kinds at other positions, and has the same program.
-/

namespace Reckoner.Program

open Reckoner.Tree Grammar

variable {token token' : Token}

theorem operator?_congr (h : token'.kind = token.kind) : token'.operator? = token.operator? := by
  unfold Token.operator?
  rw [h]

theorem name?_congr (h : token'.kind = token.kind) : token'.name? = token.name? := by
  unfold Token.name?
  rw [h]

theorem among?_congr (h : token'.kind = token.kind) (operators : List Operator) :
    among? operators token' = among? operators token := by
  unfold among?
  rw [operator?_congr h]

theorem leaf_operator?_congr (h : token'.kind = token.kind) :
    (Tree.leaf token').operator? = (Tree.leaf token).operator? := operator?_congr h

theorem leaf_name?_congr (h : token'.kind = token.kind) :
    (Tree.leaf token').name? = (Tree.leaf token).name? := name?_congr h

def SameCode : {s : Symbol} → Derivation s → Derivation s → Prop
  | .arguments, d, d' => d'.tree.children.length = d.tree.children.length ∧
      ∀ registry, compileAll registry d'.tree.children = compileAll registry d.tree.children
  | _, d, d' => d'.tree.name? = d.tree.name? ∧
      ∀ registry, compile registry d'.tree = compile registry d.tree

/-- Tokens of the kinds of two parts and the token between them come in such parts. -/
theorem exists_parts_of_kinds {ts first second : List Token} {op : Token}
    (h : ts.map Token.kind = (first ++ op :: second).map Token.kind) :
    ∃ first' op' second', ts = first' ++ op' :: second' ∧
      first'.map Token.kind = first.map Token.kind ∧ op'.kind = op.kind ∧
      second'.map Token.kind = second.map Token.kind := by
  rw [List.map_append, List.map_cons] at h
  obtain ⟨first', rest, rfl, hfirst, hrest⟩ := List.map_eq_append_iff.1 h
  obtain ⟨op', second', rfl, hop, hsecond⟩ := List.map_eq_cons_iff.1 hrest
  exact ⟨first', op', second', rfl, hfirst, hop, hsecond⟩

theorem exists_cons_of_kinds {ts more : List Token} {op : Token}
    (h : ts.map Token.kind = (op :: more).map Token.kind) :
    ∃ op' more', ts = op' :: more' ∧ op'.kind = op.kind ∧
      more'.map Token.kind = more.map Token.kind := by
  obtain ⟨op', more', rfl, hop, hmore⟩ := List.map_eq_cons_iff.1 h
  exact ⟨op', more', rfl, hop, hmore⟩

variable {registry : Registry}

theorem target_congr {tree tree' : Tree} (h : tree'.name? = tree.name?) :
    target tree' = target tree := by
  unfold target
  rw [h]

theorem operatorOf_congr (h : token'.kind = token.kind) :
    operatorOf (.leaf token') = operatorOf (.leaf token) := by
  unfold operatorOf
  rw [leaf_operator?_congr h]

theorem compileCall_leaf_congr {args args' : List Tree} (hname : token'.kind = token.kind)
    (hlength : args'.length = args.length)
    (hargs : compileAll registry args' = compileAll registry args) :
    compileCall registry (.leaf token') args' = compileCall registry (.leaf token) args := by
  rw [compileCall, compileCall, leaf_name?_congr hname, hlength, hargs]

theorem compileAll_append_congr {trees trees' : List Tree} {tree tree' : Tree}
    (htrees : compileAll registry trees' = compileAll registry trees)
    (htree : compile registry tree' = compile registry tree) :
    compileAll registry (trees' ++ [tree']) = compileAll registry (trees ++ [tree]) := by
  have happend (trees : List Tree) (tree : Tree) :
      compileAll registry (trees ++ [tree]) = do
        let first ← compileAll registry trees
        let others ← compileAll registry [tree]
        return first ++ others := by
    induction trees with
    | nil =>
      rw [List.nil_append, compileAll]
      exact (bind_pure _).symm
    | cons first trees ih =>
      simp only [List.cons_append, compileAll, ih, bind_assoc, pure_bind, List.append_assoc]
  have hone : compileAll registry [tree'] = compileAll registry [tree] := by
    simp only [compileAll, htree]
  rw [happend, happend, htrees, hone]

/-- What tokens derive can be derived from tokens of the same kinds, and has the same program. -/
theorem exists_relabel {s : Symbol} (d : Derivation s) (hs : s.IsProper) {ts : List Token}
    (h : ts.map Token.kind = d.tokens.map Token.kind) :
    ∃ d' : Derivation s, d'.tokens = ts ∧ SameCode d d' := by
  -- What a production asks of its own tokens it asks of their kinds, so it derives the others too.
  induction d generalizing ts with
  | ofAssignment _ ih =>
    obtain ⟨d', rfl, hsame⟩ := ih trivial h
    exact ⟨.ofAssignment d', rfl, hsame⟩
  | ofConditional _ ih =>
    obtain ⟨d', rfl, hsame⟩ := ih trivial h
    exact ⟨.ofConditional d', rfl, hsame⟩
  | suffixTarget _ ih =>
    obtain ⟨d', rfl, hsame⟩ := ih trivial h
    exact ⟨.suffixTarget d', rfl, hsame⟩
  | ofBinary _ ih =>
    obtain ⟨d', rfl, hsame⟩ := ih (List.suffix_refl _) h
    exact ⟨.ofBinary d', rfl, hsame⟩
  | ofTighter _ ih =>
    obtain ⟨d', rfl, hsame⟩ := ih ((List.suffix_cons _ _).trans hs) h
    exact ⟨.ofTighter d', rfl, hsame⟩
  | ofUnary _ ih =>
    obtain ⟨d', rfl, hsame⟩ := ih trivial h
    exact ⟨.ofUnary d', rfl, hsame⟩
  | ofPower _ ih =>
    obtain ⟨d', rfl, hsame⟩ := ih trivial h
    exact ⟨.ofPower d', rfl, hsame⟩
  | ofSuffix _ ih =>
    obtain ⟨d', rfl, hsame⟩ := ih trivial h
    exact ⟨.ofSuffix d', rfl, hsame⟩
  | ofPrimary _ ih =>
    obtain ⟨d', rfl, hsame⟩ := ih trivial h
    exact ⟨.ofPrimary d', rfl, hsame⟩
  | comma left sep hsep right ihl ihr =>
    obtain ⟨_, sep', _, rfl, hl, hkind, hr⟩ := exists_parts_of_kinds h
    obtain ⟨left', rfl, -, hleft⟩ := ihl trivial hl
    obtain ⟨right', rfl, -, hright⟩ := ihr trivial hr
    refine ⟨.comma left' sep' (operator?_congr hkind ▸ hsep) right', rfl, rfl, fun registry => ?_⟩
    simp only [Derivation.tree, compile, hleft, hright]
  | assign left op hop value ihl ihv =>
    obtain ⟨_, op', _, rfl, hl, hkind, hv⟩ := exists_parts_of_kinds h
    obtain ⟨left', rfl, hleft, -⟩ := ihl trivial hl
    obtain ⟨value', rfl, -, hvalue⟩ := ihv trivial hv
    refine ⟨.assign left' op' (operator?_congr hkind ▸ hop) value', rfl, rfl, fun registry => ?_⟩
    simp only [Derivation.tree, compile, target_congr hleft, operatorOf_congr hkind, hvalue]
  | choice condition mark hmark first sep hsep second ihc ihf ihs =>
    obtain ⟨_, mark', _, rfl, hc, hmark', hrest⟩ := exists_parts_of_kinds h
    obtain ⟨_, sep', _, rfl, hf, hsep', hsecond⟩ := exists_parts_of_kinds hrest
    obtain ⟨condition', rfl, -, hcondition⟩ := ihc (List.suffix_refl _) hc
    obtain ⟨first', rfl, -, hfirst⟩ := ihf trivial hf
    obtain ⟨second', rfl, -, hsecond⟩ := ihs trivial hsecond
    refine ⟨.choice condition' mark' (operator?_congr hmark' ▸ hmark) first' sep'
      (operator?_congr hsep' ▸ hsep) second', rfl, rfl, fun registry => ?_⟩
    simp only [Derivation.tree, compile, hcondition, hfirst, hsecond]
  | prefixTarget op hop operand ih =>
    obtain ⟨op', _, rfl, hkind, ho⟩ := exists_cons_of_kinds h
    obtain ⟨operand', rfl, hname, hoperand⟩ := ih trivial ho
    refine ⟨.prefixTarget op' (among?_congr hkind _ ▸ hop) operand', rfl, rfl, fun registry => ?_⟩
    simp only [Derivation.tree, compile, operatorOf_congr hkind, target_congr hname, hoperand]
  | prefixed op hop operand ih =>
    obtain ⟨op', _, rfl, hkind, ho⟩ := exists_cons_of_kinds h
    obtain ⟨operand', rfl, hname, hoperand⟩ := ih trivial ho
    refine ⟨.prefixed op' (among?_congr hkind _ ▸ hop) operand', rfl, rfl, fun registry => ?_⟩
    simp only [Derivation.tree, compile, operatorOf_congr hkind, target_congr hname, hoperand]
  | operation left op hop right ihl ihr =>
    obtain ⟨_, op', _, rfl, hl, hkind, hr⟩ := exists_parts_of_kinds h
    obtain ⟨left', rfl, -, hleft⟩ := ihl hs hl
    obtain ⟨right', rfl, -, hright⟩ := ihr ((List.suffix_cons _ _).trans hs) hr
    refine ⟨.operation left' op' (among?_congr hkind _ ▸ hop) right', rfl, rfl,
      fun registry => ?_⟩
    have hinfix := isInfix_of_mem_levels (hs.subset (List.mem_cons_self ..))
    simp only [Derivation.tree, compile_operation hinfix, hleft, hright, operatorOf_congr hkind]
  | raised base op hop exponent ihb ihe =>
    obtain ⟨_, op', _, rfl, hb, hkind, he⟩ := exists_parts_of_kinds h
    obtain ⟨base', rfl, -, hbase⟩ := ihb trivial hb
    obtain ⟨exponent', rfl, -, hexponent⟩ := ihe trivial he
    refine ⟨.raised base' op' (operator?_congr hkind ▸ hop) exponent', rfl, rfl,
      fun registry => ?_⟩
    have hinfix : isInfix .power := rfl
    simp only [Derivation.tree, compile_operation hinfix, hbase, hexponent, operatorOf_congr hkind]
  | emptyCall name hname left hleft right hright =>
    obtain ⟨name', _, rfl, hname', hrest⟩ := exists_cons_of_kinds h
    obtain ⟨left', _, rfl, hleft', hrest⟩ := exists_cons_of_kinds hrest
    obtain ⟨right', _, rfl, hright', hrest⟩ := exists_cons_of_kinds hrest
    obtain rfl := List.map_eq_nil_iff.1 hrest
    refine ⟨.emptyCall name' (name?_congr hname' ▸ hname) left' (operator?_congr hleft' ▸ hleft)
      right' (operator?_congr hright' ▸ hright), rfl, rfl, fun registry => ?_⟩
    simp only [Derivation.tree, compile, compileCall_leaf_congr hname' rfl rfl]
  | call name hname left hleft args right hright ih =>
    obtain ⟨name', _, rfl, hname', hrest⟩ := exists_cons_of_kinds h
    obtain ⟨left', _, rfl, hleft', hrest⟩ := exists_cons_of_kinds hrest
    obtain ⟨_, right', _, rfl, ha, hright', hrest⟩ := exists_parts_of_kinds hrest
    obtain rfl := List.map_eq_nil_iff.1 hrest
    obtain ⟨args', rfl, hlength, hargs⟩ := ih trivial ha
    refine ⟨.call name' (name?_congr hname' ▸ hname) left' (operator?_congr hleft' ▸ hleft) args'
      right' (operator?_congr hright' ▸ hright), rfl, rfl, fun registry => ?_⟩
    rw [Derivation.tree, Derivation.tree, args.tree_arguments, args'.tree_arguments, compile,
      compile, compileCall_leaf_congr hname' hlength (hargs registry)]
  | step operand op hop ih =>
    obtain ⟨_, op', _, rfl, ho, hkind, hrest⟩ := exists_parts_of_kinds h
    obtain rfl := List.map_eq_nil_iff.1 hrest
    obtain ⟨operand', rfl, hname, -⟩ := ih trivial ho
    refine ⟨.step operand' op' (among?_congr hkind _ ▸ hop), rfl, rfl, fun registry => ?_⟩
    simp only [Derivation.tree, compile, operatorOf_congr hkind, target_congr hname]
  | argument d ih =>
    obtain ⟨d', rfl, -, hsame⟩ := ih trivial h
    refine ⟨.argument d', rfl, rfl, fun registry => ?_⟩
    simp only [Derivation.tree, Tree.children, compileAll, hsame]
  | more before sep hsep next ihb ihn =>
    obtain ⟨_, sep', _, rfl, hb, hkind, hn⟩ := exists_parts_of_kinds h
    obtain ⟨before', rfl, hlength, hbefore⟩ := ihb trivial hb
    obtain ⟨next', rfl, -, hnext⟩ := ihn trivial hn
    refine ⟨.more before' sep' (operator?_congr hkind ▸ hsep) next', rfl, ?_, fun registry => ?_⟩
    · change (before'.tree.children ++ [next'.tree]).length =
        (before.tree.children ++ [next.tree]).length
      rw [List.length_append, hlength, List.length_append]
      rfl
    · exact compileAll_append_congr (hbefore registry) (hnext registry)
  | leaf token htoken =>
    obtain ⟨token', _, rfl, hkind, hrest⟩ := exists_cons_of_kinds h
    obtain rfl := List.map_eq_nil_iff.1 hrest
    refine ⟨.leaf token' (operator?_congr hkind ▸ htoken), rfl, leaf_name?_congr hkind,
      fun registry => ?_⟩
    simp only [Derivation.tree, compile, ofToken, hkind]
  | group left hleft inner right hright ih =>
    obtain ⟨left', _, rfl, hleft', hrest⟩ := exists_cons_of_kinds h
    obtain ⟨_, right', _, rfl, hi, hright', hrest⟩ := exists_parts_of_kinds hrest
    obtain rfl := List.map_eq_nil_iff.1 hrest
    obtain ⟨inner', rfl, -, hinner⟩ := ih trivial hi
    refine ⟨.group left' (operator?_congr hleft' ▸ hleft) inner' right'
      (operator?_congr hright' ▸ hright), rfl, rfl, fun registry => ?_⟩
    simp only [Derivation.tree, compile, hinner]

end Reckoner.Program
