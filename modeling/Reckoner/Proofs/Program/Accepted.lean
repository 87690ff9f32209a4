import Reckoner.Proofs.Program.Resolution

/-!
The trees that compile. Of the trees that are read from tokens, exactly those compile in which only
variables are assigned to and stepped, and the function that every call means can take the call.
The others are refused for a target or a call that is in the tree, and for nothing else.
-/

namespace Reckoner

namespace Tree

def target? : Tree → Option Tree
  | node .assignment [left, _, _] => some left
  | node .unary [op, operand] =>
    if op.operator? = some .increment ∨ op.operator? = some .decrement then some operand else none
  | node .suffix [operand, _] => some operand
  | _ => none

theorem target?_unary {op : Token} {o : Operator} (hop : op.operator? = some o) (operand : Tree) :
    (node .unary [leaf op, operand]).target? =
      if o = .increment ∨ o = .decrement then some operand else none := by
  simp [target?, operator?, token?, hop]

def IsName (tree : Tree) : Prop := ∃ name position, tree = leaf ⟨.name name, position⟩

theorem isName_leaf {token : Token} {name : String} (h : token.name? = some name) :
    (leaf token).IsName := by
  obtain ⟨kind, position⟩ := token
  cases kind <;> cases h
  exact ⟨_, position, rfl⟩

theorem isName_iff {tree : Tree} : tree.IsName ↔ ∃ name, tree.name? = some name := by
  constructor
  · rintro ⟨name, position, rfl⟩
    exact ⟨name, rfl⟩
  · rintro ⟨name, h⟩
    obtain ⟨token, rfl, htoken⟩ := name?_eq_some h
    exact isName_leaf htoken

end Tree

namespace Program

open Reckoner.Tree Grammar

variable {registry : Registry} {tree : Tree} {error : Error}

structure IsFit (registry : Registry) (part : Tree) : Prop where
  target : ∀ tree, part.target? = some tree → tree.IsName
  call : ∀ args, part.arguments? = some args → ∃ name f, part.callee? = some name ∧
    IsChosen registry name args.length f ∧ f.signature.CanTake args.length

def IsAccepted (registry : Registry) (tree : Tree) : Prop :=
  ∀ part ∈ tree.parts, IsFit registry part

/-- Why a tree is refused: the part that is not fit, and what is told about it. -/
inductive Refuses (registry : Registry) (tree : Tree) : Error → Prop where
  | notAssignable {part target : Tree} (hpart : part ∈ tree.parts)
      (htarget : part.target? = some target) (hname : ¬ target.IsName) :
      Refuses registry tree .notAssignable
  | unknownFunction {part : Tree} {name : String} {args : List Tree} (hpart : part ∈ tree.parts)
      (hname : part.callee? = some name) (hargs : part.arguments? = some args)
      (hnone : ∀ f ∈ registry.functions, f.name ≠ name) :
      Refuses registry tree (.unknownFunction name)
  | argumentCount {part : Tree} {name : String} {args : List Tree} {f : Function}
      (hpart : part ∈ tree.parts) (hname : part.callee? = some name)
      (hargs : part.arguments? = some args) (hchosen : IsChosen registry name args.length f)
      (hcount : ¬ f.signature.CanTake args.length) (hfixed : f.signature.variadic = false) :
      Refuses registry tree (.argumentCount name f.arity args.length)
  | tooFewArguments {part : Tree} {name : String} {args : List Tree} {f : Function}
      (hpart : part ∈ tree.parts) (hname : part.callee? = some name)
      (hargs : part.arguments? = some args) (hchosen : IsChosen registry name args.length f)
      (hcount : ¬ f.signature.CanTake args.length) (hvariadic : f.signature.variadic) :
      Refuses registry tree (.tooFewArguments name f.arity args.length)

/-- What is refused is not accepted. -/
theorem Refuses.not_isAccepted (h : Refuses registry tree error) : ¬ IsAccepted registry tree := by
  intro haccepted
  cases h with
  | notAssignable hpart htarget hname => exact hname ((haccepted _ hpart).target _ htarget)
  | unknownFunction hpart hname hargs hnone =>
    obtain ⟨name, f, hname', hchosen, -⟩ := (haccepted _ hpart).call _ hargs
    obtain rfl := Option.some.inj (hname.symm.trans hname')
    exact hnone f hchosen.mem.1 hchosen.mem.2
  | argumentCount hpart hname hargs hchosen hcount
  | tooFewArguments hpart hname hargs hchosen hcount =>
    obtain ⟨name, f, hname', hchosen', htakes⟩ := (haccepted _ hpart).call _ hargs
    obtain rfl := Option.some.inj (hname.symm.trans hname')
    exact hcount (hchosen.unique hchosen' ▸ htakes)

/-- What is refused for a child is refused for the tree. -/
theorem Refuses.of_mem {rule : Rule} {children : List Tree} {child : Tree}
    (hchild : child ∈ children) (h : Refuses registry child error) :
    Refuses registry (.node rule children) error := by
  have hinside {part : Tree} (hpart : part ∈ child.parts) :
      part ∈ (Tree.node rule children).parts :=
    mem_parts_node.2 (.inr ⟨child, hchild, hpart⟩)
  cases h with
  | notAssignable hpart htarget hname => exact .notAssignable (hinside hpart) htarget hname
  | unknownFunction hpart hname hargs hnone =>
    exact .unknownFunction (hinside hpart) hname hargs hnone
  | argumentCount hpart hname hargs hchosen hcount hfixed =>
    exact .argumentCount (hinside hpart) hname hargs hchosen hcount hfixed
  | tooFewArguments hpart hname hargs hchosen hcount hvariadic =>
    exact .tooFewArguments (hinside hpart) hname hargs hchosen hcount hvariadic

/-- Anything that is told about a refused tree is about a target or a call. -/
theorem Refuses.ne (h : Refuses registry tree error) (reason : String) :
    error ≠ .grammar reason ∧ error ≠ .other reason := by
  cases h <;> exact ⟨nofun, nofun⟩

section Accepts

theorem isAccepted_leaf (registry : Registry) (token : Token) :
    IsAccepted registry (.leaf token) := by
  intro part hpart
  obtain rfl := mem_parts_leaf.1 hpart
  exact ⟨nofun, nofun⟩

theorem isAccepted_node {rule : Rule} {children : List Tree}
    (hfit : IsFit registry (.node rule children))
    (hchildren : ∀ child ∈ children, IsAccepted registry child) :
    IsAccepted registry (.node rule children) := by
  intro part hpart
  rcases mem_parts_node.1 hpart with rfl | ⟨child, hchild, hpart⟩
  · exact hfit
  · exact hchildren child hchild part hpart

/-- Parts that are neither calls nor change a variable are fit. -/
theorem isFit_of_none {part : Tree} (htarget : part.target? = none)
    (hargs : part.arguments? = none) : IsFit registry part :=
  ⟨by simp [htarget], by simp [hargs]⟩

theorem isFit_of_isInfix {rule : Rule} (hrule : isInfix rule) (children : List Tree) :
    IsFit registry (.node rule children) := by
  cases rule <;> first | exact isFit_of_none rfl rfl | cases hrule

theorem isFit_target {part target : Tree} (htarget : part.target? = some target)
    (hargs : part.arguments? = none) (hname : target.IsName) : IsFit registry part :=
  ⟨by simp [htarget, hname], by simp [hargs]⟩

theorem isFit_call {part : Tree} {name : String} {args : List Tree} {f : Function}
    {added : Program} (htarget : part.target? = none) (hname : part.callee? = some name)
    (hargs : part.arguments? = some args) (hf : choose registry name args.length = .ok f)
    (hadded : omitted name f args.length = .ok added) : IsFit registry part := by
  refine ⟨by simp [htarget], fun args' hargs' => ?_⟩
  obtain rfl := Option.some.inj (hargs.symm.trans hargs')
  exact ⟨name, f, hname, choose_eq_ok.1 hf, (omitted_eq_ok.1 hadded).1⟩

/-- What is emitted comes from a tree with fit parts only. -/
theorem isAccepted_of_emits {code : Program} (h : Emits registry tree code) :
    IsAccepted registry tree := by
  have hleaf := isAccepted_leaf registry
  induction h with
  | leaf => exact hleaf _
  | list _ _ _ ihl ihr =>
    refine isAccepted_node (isFit_of_none rfl rfl) ?_
    simp only [List.forall_mem_cons]
    exact ⟨ihl, hleaf _, ihr, List.forall_mem_nil _⟩
  | assign hname _ _ _ ih | compound hname _ _ _ _ ih =>
    refine isAccepted_node (isFit_target rfl rfl (isName_leaf hname)) ?_
    simp only [List.forall_mem_cons]
    exact ⟨hleaf _, hleaf _, ih, List.forall_mem_nil _⟩
  | choice _ _ _ _ _ iha ihb ihc =>
    refine isAccepted_node (isFit_of_none rfl rfl) ?_
    simp only [List.forall_mem_cons]
    exact ⟨ihc, hleaf _, iha, hleaf _, ihb, List.forall_mem_nil _⟩
  | stepFirst hop hname hstep =>
    refine isAccepted_node (isFit_target ((target?_unary hop _).trans (if_pos hstep)) rfl
      (isName_leaf hname)) ?_
    simp only [List.forall_mem_cons]
    exact ⟨hleaf _, hleaf _, List.forall_mem_nil _⟩
  | prefixed hop hstep _ _ _ ih =>
    refine isAccepted_node (isFit_of_none ((target?_unary hop _).trans (if_neg hstep)) rfl) ?_
    simp only [List.forall_mem_cons]
    exact ⟨hleaf _, ih, List.forall_mem_nil _⟩
  | stepAfter hname _ =>
    refine isAccepted_node (isFit_target rfl rfl (isName_leaf hname)) ?_
    simp only [List.forall_mem_cons]
    exact ⟨hleaf _, hleaf _, List.forall_mem_nil _⟩
  | emptyCall hname hf hadded =>
    refine isAccepted_node (isFit_call rfl hname rfl hf hadded) ?_
    simp only [List.forall_mem_cons]
    exact ⟨hleaf _, hleaf _, hleaf _, List.forall_mem_nil _⟩
  | @call token left right name f args added hname hf _ _ hadded ih =>
    have hlength : (args.map Prod.fst).length = args.length := List.length_map _
    refine isAccepted_node (isFit_call rfl hname rfl (hlength ▸ hf) (hlength ▸ hadded)) ?_
    simp only [List.forall_mem_cons]
    refine ⟨hleaf _, hleaf _, isAccepted_node (isFit_of_none rfl rfl) ?_, hleaf _,
      List.forall_mem_nil _⟩
    intro child hchild
    obtain ⟨arg, harg, rfl⟩ := List.mem_map.1 hchild
    exact ih arg harg
  | group _ ih =>
    refine isAccepted_node (isFit_of_none rfl rfl) ?_
    simp only [List.forall_mem_cons]
    exact ⟨hleaf _, ih, hleaf _, List.forall_mem_nil _⟩
  | operation hrule _ _ _ _ _ _ ihl ihr =>
    refine isAccepted_node (isFit_of_isInfix hrule _) ?_
    simp only [List.forall_mem_cons]
    exact ⟨ihl, hleaf _, ihr, List.forall_mem_nil _⟩

end Accepts

section Refusals

theorem target_eq_error {target : Tree} (h : Program.target target = .error error) :
    error = .notAssignable ∧ ¬ target.IsName := by
  unfold Program.target at h
  split at h
  · cases h
  · next hname =>
    cases h
    refine ⟨rfl, fun hsome => ?_⟩
    obtain ⟨name, hsome⟩ := isName_iff.1 hsome
    rw [hname] at hsome
    cases hsome

theorem operatorOf_ne_error {op : Token} {o : Operator} (h : op.operator? = some o) :
    operatorOf (.leaf op) ≠ .error error := by
  rw [operatorOf_leaf h]
  nofun

theorem ofToken_ne_error {token : Token} (h : token.operator? = none) :
    ofToken token ≠ .error error := by
  obtain ⟨kind, position⟩ := token
  cases kind with
  | operator op => cases h
  | name | integer | real | string => nofun

theorem compileAll_eq_error {trees : List Tree} (h : compileAll registry trees = .error error) :
    ∃ tree ∈ trees, compile registry tree = .error error := by
  induction trees with
  | nil =>
    rw [compileAll] at h
    cases h
  | cons tree more ih =>
    rw [compileAll] at h
    rcases bind_eq_error.1 h with htree | ⟨first, -, h⟩
    · exact ⟨tree, .head _, htree⟩
    rcases bind_eq_error.1 h with hmore | ⟨others, -, h⟩
    · obtain ⟨tree, htree, herror⟩ := ih hmore
      exact ⟨tree, .tail _ htree, herror⟩
    · cases h

/-- A call is refused for the function that it means or for one of its arguments. -/
theorem refuses_call {rule : Rule} {children args : List Tree} {name : String}
    (hname : (Tree.node rule children).callee? = some name)
    (hargs : (Tree.node rule children).arguments? = some args)
    (h : compile registry (.node rule children) = .error error)
    (hinside : compileAll registry args = .error error →
      Refuses registry (.node rule children) error) :
    Refuses registry (.node rule children) error := by
  have hself := mem_parts_self (.node rule children)
  rcases (compile_call_eq_error hname hargs).1 h with
    ⟨rfl, hnone⟩ | ⟨f, hf, hrefused | ⟨_, -, hcount, rfl⟩⟩
  · exact .unknownFunction hself hname hargs hnone
  · exact hinside hrefused
  · unfold Function.refusal
    split
    · next hvariadic => exact .tooFewArguments hself hname hargs hf hcount hvariadic
    · next hfixed => exact .argumentCount hself hname hargs hf hcount (by simpa using hfixed)

/-- An assignment is refused for its target or its value. -/
theorem refuses_assign {left right : Tree} {op : Token} {o : Operator}
    (h : compile registry (.node .assignment [left, .leaf op, right]) = .error error)
    (hop : op.operator? = some o)
    (hright : compile registry right = .error error → Refuses registry right error) :
    Refuses registry (.node .assignment [left, .leaf op, right]) error := by
  rw [compile] at h
  rcases bind_eq_error.1 h with hname | ⟨name, -, h⟩
  · obtain ⟨rfl, hnot⟩ := target_eq_error hname
    exact .notAssignable (mem_parts_self _) rfl hnot
  rcases bind_eq_error.1 h with hop' | ⟨o', -, h⟩
  · exact absurd hop' (operatorOf_ne_error hop)
  rcases bind_eq_error.1 h with hvalue | ⟨value, -, h⟩
  · exact .of_mem (by simp) (hright hvalue)
  · split at h <;> cases h

/-- A prefix operator is refused for its operand, which has to be a name below a step. -/
theorem refuses_prefixed {operand : Tree} {op : Token} {o : Operator}
    (h : compile registry (.node .unary [.leaf op, operand]) = .error error)
    (hop : op.operator? = some o)
    (hoperand : compile registry operand = .error error → Refuses registry operand error) :
    Refuses registry (.node .unary [.leaf op, operand]) error := by
  rw [compile] at h
  rcases bind_eq_error.1 h with hop' | ⟨o', ho', h⟩
  · exact absurd hop' (operatorOf_ne_error hop)
  obtain rfl : o = o' := Option.some.inj (hop.symm.trans (operatorOf_eq_ok ho'))
  split at h
  · next hstep =>
    rcases bind_eq_error.1 h with hname | ⟨name, -, ⟨⟩⟩
    obtain ⟨rfl, hnot⟩ := target_eq_error hname
    have htarget := (target?_unary hop operand).trans (if_pos hstep)
    exact .notAssignable (mem_parts_self _) htarget hnot
  · rcases bind_eq_error.1 h with hvalue | ⟨value, -, ⟨⟩⟩
    exact .of_mem (by simp) (hoperand hvalue)

/-- A step behind its variable is refused for what stands there instead of one. -/
theorem refuses_step {operand : Tree} {op : Token} {o : Operator}
    (h : compile registry (.node .suffix [operand, .leaf op]) = .error error)
    (hop : op.operator? = some o) :
    Refuses registry (.node .suffix [operand, .leaf op]) error := by
  rw [compile] at h
  rcases bind_eq_error.1 h with hname | ⟨name, -, h⟩
  · obtain ⟨rfl, hnot⟩ := target_eq_error hname
    exact .notAssignable (mem_parts_self _) rfl hnot
  rcases bind_eq_error.1 h with hop' | ⟨o', -, ⟨⟩⟩
  exact absurd hop' (operatorOf_ne_error hop)

/-- An operation is refused for one of its operands. -/
theorem refuses_operation {rule : Rule} {left right : Tree} {op : Token} {o : Operator}
    (hrule : isInfix rule)
    (h : compile registry (.node rule [left, .leaf op, right]) = .error error)
    (hop : op.operator? = some o)
    (hleft : compile registry left = .error error → Refuses registry left error)
    (hright : compile registry right = .error error → Refuses registry right error) :
    Refuses registry (.node rule [left, .leaf op, right]) error := by
  rw [compile_operation hrule] at h
  rcases bind_eq_error.1 h with hl | ⟨l, -, h⟩
  · exact .of_mem (by simp) (hleft hl)
  rcases bind_eq_error.1 h with hr | ⟨r, -, h⟩
  · exact .of_mem (by simp) (hright hr)
  rcases bind_eq_error.1 h with hop' | ⟨o', -, ⟨⟩⟩
  exact absurd hop' (operatorOf_ne_error hop)

def RefusesAs (registry : Registry) : {s : Symbol} → Derivation s → Prop
  | .arguments, d => ∀ error, ∀ child ∈ d.tree.children,
      compile registry child = .error error → Refuses registry child error
  | _, d => ∀ error, compile registry d.tree = .error error → Refuses registry d.tree error

theorem refusesAs {s : Symbol} (d : Derivation s) (hs : s.IsProper) : RefusesAs registry d := by
  induction d with
  | ofAssignment _ ih | ofConditional _ ih | suffixTarget _ ih | ofUnary _ ih | ofPower _ ih
  | ofSuffix _ ih | ofPrimary _ ih => exact ih trivial
  | ofBinary _ ih => exact ih (List.suffix_refl _)
  | ofTighter _ ih => exact ih ((List.suffix_cons _ _).trans hs)
  | comma left sep _ right ihl ihr =>
    intro error h
    rw [Derivation.tree, compile] at h
    rcases bind_eq_error.1 h with hl | ⟨l, -, h⟩
    · exact .of_mem (by simp) (ihl trivial error hl)
    rcases bind_eq_error.1 h with hr | ⟨r, -, ⟨⟩⟩
    exact .of_mem (by simp) (ihr trivial error hr)
  | assign left op hop value _ ih =>
    intro error h
    obtain ⟨o, -, ho⟩ := operator?_of_any hop
    exact refuses_assign h ho (ih trivial error)
  | choice condition mark _ first sep _ second ihc ihf ihs =>
    intro error h
    rw [Derivation.tree, compile] at h
    rcases bind_eq_error.1 h with ha | ⟨a, -, h⟩
    · exact .of_mem (by simp) (ihf trivial error ha)
    rcases bind_eq_error.1 h with hb | ⟨b, -, h⟩
    · exact .of_mem (by simp) (ihs trivial error hb)
    rcases bind_eq_error.1 h with hc | ⟨c, -, ⟨⟩⟩
    exact .of_mem (by simp) (ihc (List.suffix_refl _) error hc)
  | prefixTarget op hop operand ih | prefixed op hop operand ih =>
    intro error h
    obtain ⟨o, -, ho⟩ := operator?_of_among? hop
    exact refuses_prefixed h ho (ih trivial error)
  | operation left op hop right ihl ihr =>
    intro error h
    obtain ⟨o, -, ho⟩ := operator?_of_among? hop
    exact refuses_operation (isInfix_of_mem_levels (hs.subset (List.mem_cons_self ..))) h ho
      (ihl hs error) (ihr ((List.suffix_cons _ _).trans hs) error)
  | raised base op hop exponent ihb ihe =>
    intro error h
    exact refuses_operation rfl h hop (ihb trivial error) (ihe trivial error)
  | step operand op hop _ =>
    intro error h
    obtain ⟨o, -, ho⟩ := operator?_of_among? hop
    exact refuses_step h ho
  | emptyCall name hname left _ right _ =>
    intro error h
    obtain ⟨callee, hcallee⟩ := Option.isSome_iff_exists.1 hname
    refine refuses_call hcallee rfl h fun hargs => ?_
    rw [compileAll] at hargs
    cases hargs
  | call name hname left _ args right _ ih =>
    intro error h
    obtain ⟨callee, hcallee⟩ := Option.isSome_iff_exists.1 hname
    rw [Derivation.tree, args.tree_arguments] at h ⊢
    refine refuses_call hcallee rfl h fun hargs => ?_
    obtain ⟨child, hchild, hrefused⟩ := compileAll_eq_error hargs
    have harguments : Refuses registry (.node .arguments args.tree.children) error :=
      .of_mem hchild (ih trivial error child hchild hrefused)
    exact .of_mem (by simp) harguments
  | argument d ih =>
    intro error child hchild h
    obtain rfl := List.mem_singleton.1 hchild
    exact ih trivial error h
  | more before sep _ next ihb ihn =>
    intro error child hchild h
    rcases List.mem_append.1 hchild with hbefore | hnext
    · exact ihb trivial error child hbefore h
    · obtain rfl := List.mem_singleton.1 hnext
      exact ihn trivial error h
  | leaf token htoken =>
    intro error h
    rw [Derivation.tree, compile] at h
    exact absurd h (ofToken_ne_error htoken)
  | group left _ inner right _ ih =>
    intro error h
    rw [Derivation.tree, compile] at h
    exact .of_mem (by simp) (ih trivial error h)

end Refusals

/-- A tree that is read from tokens compiles exactly when all its targets are names and the
functions that its calls mean can take them. When it does not, the error is about a target or a
call in the tree. -/
theorem compiles_iff_isAccepted {tokens : List Token} (hparse : Tree.parse tokens = .ok tree)
    (registry : Registry) :
    ((∃ program, compile registry tree = .ok program) ↔ IsAccepted registry tree) ∧
      ∀ error, compile registry tree = .error error →
        Refuses registry tree error ∧
          ∀ reason, error ≠ .grammar reason ∧ error ≠ .other reason := by
  obtain ⟨d, rfl, -⟩ := parse_eq_ok.1 hparse
  have hrefuses : ∀ error, compile registry d.tree = .error error →
      Refuses registry d.tree error := refusesAs d trivial
  refine ⟨⟨?_, ?_⟩, fun error herror => ⟨hrefuses error herror, (hrefuses error herror).ne⟩⟩
  · rintro ⟨program, hprogram⟩
    exact isAccepted_of_emits (emits_of_parse hparse hprogram)
  · intro haccepted
    cases hcompile : compile registry d.tree with
    | error error => exact absurd haccepted (hrefuses error hcompile).not_isAccepted
    | ok program => exact ⟨program, rfl⟩

/-- A call with too few arguments is accepted when the last overload may leave the others out. -/
theorem isAccepted_callOfOne :
    Tree.parse [⟨.name "f", 0⟩, ⟨.operator .openBracket, 1⟩, ⟨.integer 1, 2⟩,
        ⟨.operator .closeBracket, 3⟩] = .ok callOfOne ∧
      IsAccepted (overloads "f" [bothNeeded, secondOptional]) callOfOne ∧
      ¬ IsAccepted (overloads "f" [secondOptional, bothNeeded]) callOfOne := by
  have hparse : Tree.parse [⟨.name "f", 0⟩, ⟨.operator .openBracket, 1⟩, ⟨.integer 1, 2⟩,
      ⟨.operator .closeBracket, 3⟩] = .ok callOfOne := by cbv
  refine ⟨hparse, ?_, ?_⟩
  · rw [← (compiles_iff_isAccepted hparse _).1]
    exact ⟨[.openCall, .value (.integer 1), .value .null, .call "f" (some ⟨1⟩)], by cbv⟩
  · rw [← (compiles_iff_isAccepted hparse _).1]
    have hrefused : compile (overloads "f" [secondOptional, bothNeeded]) callOfOne =
        .error (.argumentCount "f" 2 1) := by cbv
    simp [hrefused]

end Program

end Reckoner
