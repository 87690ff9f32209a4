import Reckoner.Program.Compile
import Reckoner.Proofs.Grammar.Unambiguous

/-!
What is emitted for the trees that are read from tokens, one clause for each form of a tree.
Later proofs about emitted code go by these clauses, and open neither the compiler nor the grammar.
-/

namespace Reckoner

namespace Signature

variable {signature : Signature} {count : Nat}

/-- A call may write so many arguments: as many as are declared, more when more may follow, or
fewer when all that are not written may be left out. -/
def CanTake (signature : Signature) (count : Nat) : Prop :=
  count = signature.arity ∨ (signature.variadic ∧ signature.arity ≤ count) ∨
    (count < signature.arity ∧ ∀ kinds ∈ signature.kinds.drop count, kinds.absent)

instance (signature : Signature) (count : Nat) : Decidable (signature.CanTake count) :=
  inferInstanceAs (Decidable (_ ∨ _ ∨ _))

theorem accepts_iff : signature.accepts count ↔
    count = signature.arity ∨ signature.variadic ∧ signature.arity ≤ count := by
  simp [accepts]

theorem CanTake.of_accepts (h : signature.accepts count) : signature.CanTake count :=
  (accepts_iff.1 h).imp id .inl

/-- Fewer arguments than declared are taken when the others may be left out. -/
theorem canTake_of_lt (h : count < signature.arity) :
    signature.CanTake count ↔ signature.optionalFrom count := by
  simp only [CanTake, optionalFrom, List.all_eq_true]
  constructor
  · rintro (heq | ⟨-, hle⟩ | ⟨-, hall⟩)
    · omega
    · omega
    · exact hall
  · exact fun hall => .inr (.inr ⟨h, hall⟩)

/-- More arguments than declared are taken when more may follow. -/
theorem canTake_of_gt (h : signature.arity < count) :
    signature.CanTake count ↔ signature.variadic := by
  constructor
  · rintro (heq | ⟨hvariadic, -⟩ | ⟨hlt, -⟩)
    · omega
    · exact hvariadic
    · omega
  · exact fun hvariadic => .inr (.inl ⟨hvariadic, h.le⟩)

end Signature

def Function.refusal (f : Function) (name : String) (count : Nat) : Error :=
  if f.signature.variadic then .tooFewArguments name f.arity count
  else .argumentCount name f.arity count

namespace Operator

def takesOne : Operator → Bool
  | logicalNot | bitNot | unaryPlus | unaryMinus => true
  | _ => false

def takesTwo : Operator → Bool
  | power | times | divide | modulus | plus | minus | shiftLeft | shiftRight
  | less | lessEqual | greater | greaterEqual | equal | notEqual | approxEqual
  | bitAnd | bitXor | bitOr | logicalAnd | logicalOr => true
  | _ => false

theorem takesTwo_of_compoundBase {op base : Operator} (h : op.compoundBase = some base) :
    base.takesTwo := by
  cases op <;> cases h <;> rfl

end Operator

namespace Tree

def isList (tree : Tree) : Bool := tree.rule? == some .list

def elements : Tree → List Tree
  | node .list [left, _, right] => left.elements ++ [right]
  | tree => [tree]

theorem elements_of_isList_eq_false {tree : Tree} (h : tree.isList = false) :
    tree.elements = [tree] := by
  unfold elements
  split
  · cases h
  · rfl

theorem name?_eq_some {tree : Tree} {name : String} (h : tree.name? = some name) :
    ∃ token, tree = leaf token ∧ token.name? = some name := by
  cases tree with
  | leaf token => exact ⟨token, rfl, h⟩
  | node rule children => cases h

mutual

def isPlain : Tree → Bool
  | leaf _ => true
  | node rule children =>
    (rule != .group || children.all fun child => !child.isList) && allPlain children

def allPlain : List Tree → Bool
  | [] => true
  | child :: more => child.isPlain && allPlain more

end

theorem allPlain_eq (trees : List Tree) : allPlain trees = trees.all isPlain := by
  induction trees with
  | nil => rfl
  | cons tree more ih => rw [allPlain, ih, List.all_cons]

/-- No node holds a part that is not plain, and brackets hold no comma list. -/
theorem isPlain_node {rule : Rule} {children : List Tree} :
    (node rule children).isPlain ↔
      (rule = .group → ∀ child ∈ children, child.isList = false) ∧
        ∀ child ∈ children, child.isPlain := by
  rw [isPlain, allPlain_eq]
  by_cases h : rule = .group <;> simp [h]

theorem isPlain_of_mem {rule : Rule} {children : List Tree} {child : Tree}
    (h : (node rule children).isPlain) (hchild : child ∈ children) : child.isPlain :=
  (isPlain_node.1 h).2 child hchild

end Tree

namespace Program

open Reckoner.Tree Grammar

def isInfix (rule : Rule) : Bool :=
  rule ∉ [.list, .assignment, .conditional, .unary, .suffix, .group, .arguments]

theorem isList_of_isInfix {rule : Rule} (h : isInfix rule) (children : List Tree) :
    (Tree.node rule children).isList = false := by
  cases rule <;> first | rfl | cases h

/-- The code for a tree, by the form of the tree. Comma lists are the root, the first branch of a
conditional, the left part of another list, or in brackets. -/
inductive Emits (registry : Registry) : Tree → Program → Prop where
  | leaf {token : Token} {code : Program} (h : ofToken token = .ok code) :
      Emits registry (.leaf token) code
  | list {sep : Token} {left right : Tree} {l r : Program} (hleft : Emits registry left l)
      (hright : Emits registry right r) (hsingle : right.isList = false) :
      Emits registry (.node .list [left, .leaf sep, right])
        (l ++ r ++ [Instruction.operator .comma])
  | assign {token op : Token} {right : Tree} {name : String} {value : Program}
      (hname : token.name? = some name) (hop : op.operator? = some .assign)
      (hvalue : Emits registry right value) (hsingle : right.isList = false) :
      Emits registry (.node .assignment [.leaf token, .leaf op, right])
        ([Instruction.name name] ++ value ++ [Instruction.operator .assign])
  | compound {token op : Token} {right : Tree} {name : String} {o base : Operator}
      {value : Program} (hname : token.name? = some name) (hop : op.operator? = some o)
      (hbase : o.compoundBase = some base)
      (hvalue : Emits registry right value) (hsingle : right.isList = false) :
      Emits registry (.node .assignment [.leaf token, .leaf op, right])
        ([Instruction.name name, .name name] ++ value ++
          [Instruction.operator base, .operator .assign])
  | choice {mark sep : Token} {condition first second : Tree} {a b c : Program}
      (hfirst : Emits registry first a) (hsecond : Emits registry second b)
      (hcondition : Emits registry condition c)
      (hsingle : condition.isList = false) (hsecondSingle : second.isList = false) :
      Emits registry (.node .conditional [condition, .leaf mark, first, .leaf sep, second])
        ([Instruction.startBlock] ++ a ++ [Instruction.endBlock, .startBlock] ++ b ++
          [Instruction.endBlock] ++ c ++ [Instruction.operator .question])
  | stepFirst {token op : Token} {name : String} {o : Operator}
      (hop : op.operator? = some o) (hname : token.name? = some name)
      (hstep : o = .increment ∨ o = .decrement) :
      Emits registry (.node .unary [.leaf op, .leaf token]) (step name o)
  | prefixed {op : Token} {operand : Tree} {o : Operator} {value : Program}
      (hop : op.operator? = some o) (hstep : ¬ (o = .increment ∨ o = .decrement))
      (hone : (prefixed o).takesOne)
      (hvalue : Emits registry operand value) (hsingle : operand.isList = false) :
      Emits registry (.node .unary [.leaf op, operand])
        (value ++ [Instruction.operator (Program.prefixed o)])
  | stepAfter {token op : Token} {name : String} {o : Operator}
      (hname : token.name? = some name) (hop : op.operator? = some o) :
      Emits registry (.node .suffix [.leaf token, .leaf op]) (step name o ++ undo o)
  | emptyCall {token left right : Token} {name : String} {f : Function}
      {added : Program} (hname : token.name? = some name) (hf : choose registry name 0 = .ok f)
      (hadded : omitted name f 0 = .ok added) :
      Emits registry (.node .suffix [.leaf token, .leaf left, .leaf right])
        ([Instruction.openCall] ++ added ++ [Instruction.call name (some f.id)])
  | call {token left right : Token} {name : String} {f : Function}
      {args : List (Tree × Program)} {added : Program} (hname : token.name? = some name)
      (hf : choose registry name args.length = .ok f)
      (hargs : ∀ arg ∈ args, Emits registry arg.1 arg.2)
      (hsingle : ∀ arg ∈ args, arg.1.isList = false)
      (hadded : omitted name f args.length = .ok added) :
      Emits registry
        (.node .suffix [.leaf token, .leaf left, .node .arguments (args.map Prod.fst), .leaf right])
        ([Instruction.openCall] ++ args.flatMap Prod.snd ++ added ++
          [Instruction.call name (some f.id)])
  | group {left right : Token} {inner : Tree} {code : Program}
      (hinner : Emits registry inner code) :
      Emits registry (.node .group [.leaf left, inner, .leaf right]) code
  | operation {rule : Rule} {op : Token} {left right : Tree} {o : Operator} {l r : Program}
      (hrule : isInfix rule) (hop : op.operator? = some o) (htwo : o.takesTwo)
      (hleft : Emits registry left l) (hright : Emits registry right r)
      (hleftSingle : left.isList = false) (hrightSingle : right.isList = false) :
      Emits registry (.node rule [left, .leaf op, right]) (l ++ r ++ [Instruction.operator o])

/-- The code of a conditional, one block after the other. -/
theorem choice_eq_cons (a b c : Program) :
    [Instruction.startBlock] ++ a ++ [Instruction.endBlock, .startBlock] ++ b ++
        [Instruction.endBlock] ++ c ++ [Instruction.operator .question] =
      Instruction.startBlock :: (a ++ Instruction.endBlock :: Instruction.startBlock ::
        (b ++ Instruction.endBlock :: (c ++ [Instruction.operator .question]))) := by
  simp

variable {registry : Registry}

theorem bind_eq_ok {α β : Type} {x : Except Error α} {f : α → Except Error β} {b : β} :
    (x >>= f) = .ok b ↔ ∃ a, x = .ok a ∧ f a = .ok b := by
  cases x with
  | error e => exact ⟨nofun, nofun⟩
  | ok a => exact ⟨fun h => ⟨a, rfl, h⟩, fun ⟨_, ha, h⟩ => Except.ok.inj ha ▸ h⟩

theorem bind_eq_error {α β : Type} {x : Except Error α} {f : α → Except Error β} {error : Error} :
    (x >>= f) = .error error ↔ x = .error error ∨ ∃ a, x = .ok a ∧ f a = .error error := by
  cases x with
  | error e => exact ⟨fun h => .inl (Except.error.inj h ▸ rfl), fun h => h.elim (· ▸ rfl) nofun⟩
  | ok a => exact ⟨fun h => .inr ⟨a, rfl, h⟩,
      fun h => h.elim nofun fun ⟨_, ha, h⟩ => Except.ok.inj ha ▸ h⟩

theorem mapError_eq_ok {ε α : Type} {x : Except ε α} {f : ε → Error} {a : α} :
    x.mapError f = .ok a ↔ x = .ok a := by
  cases x with
  | error e => exact ⟨nofun, nofun⟩
  | ok b => exact ⟨fun h => congrArg Except.ok (Except.ok.inj h), fun h => Except.ok.inj h ▸ rfl⟩

/-- What is left out of a call that the function can take is passed as absent. -/
theorem omitted_eq (name : String) (f : Function) (count : Nat) :
    omitted name f count =
      if f.signature.CanTake count then .ok (List.replicate (f.arity - count) (.value .null))
      else .error (f.refusal name count) := by
  rcases Nat.lt_trichotomy count f.arity with hlt | heq | hgt
  · simp only [omitted, if_pos hlt, Signature.canTake_of_lt hlt, Function.refusal]
    cases f.signature.variadic <;> rfl
  · have hsub : f.arity - count = 0 := by omega
    simp [omitted, hsub, heq.not_lt, heq.not_gt, show f.signature.CanTake count from .inl heq]
  · have hsub : f.arity - count = 0 := by omega
    simp only [omitted, if_neg hgt.not_gt, hgt, true_and, Signature.canTake_of_gt hgt, hsub,
      Function.refusal]
    cases f.signature.variadic <;> rfl

theorem omitted_eq_ok {name : String} {f : Function} {count : Nat} {added : Program} :
    omitted name f count = .ok added ↔
      f.signature.CanTake count ∧ added = List.replicate (f.arity - count) (.value .null) := by
  rw [omitted_eq]
  split
  · next hcount =>
    simp [hcount, eq_comm]
  · next hcount =>
    simp [hcount]

/-- The arguments that are left out are passed as absent values. -/
theorem eq_replicate_of_omitted {name : String} {f : Function} {count : Nat} {added : Program}
    (h : omitted name f count = .ok added) :
    added = List.replicate (f.arity - count) (.value .null) :=
  (omitted_eq_ok.1 h).2

theorem target_eq_ok {tree : Tree} {name : String} (h : target tree = .ok name) :
    ∃ token, tree = .leaf token ∧ token.name? = some name := by
  unfold target at h
  split at h
  · next hname =>
    cases h
    exact name?_eq_some hname
  · cases h

theorem operatorOf_eq_ok {token : Token} {op : Operator} (h : operatorOf (.leaf token) = .ok op) :
    token.operator? = some op := by
  unfold operatorOf at h
  split at h
  · next hop =>
    cases h
    exact hop
  · cases h

theorem compile_operation {rule : Rule} (h : isInfix rule) (left op right : Tree) :
    compile registry (.node rule [left, op, right]) = do
      let l ← compile registry left
      let r ← compile registry right
      let o ← operatorOf op
      return l ++ r ++ [Instruction.operator o] := by
  cases rule <;> first | exact absurd h (by decide) | rw [compile] <;> simp

theorem compile_operation_eq_ok {rule : Rule} (h : isInfix rule) {left right : Tree} {op : Token}
    {code : Program} (hcompile : compile registry (.node rule [left, .leaf op, right]) = .ok code) :
    ∃ l r o, compile registry left = .ok l ∧ compile registry right = .ok r ∧
      op.operator? = some o ∧ code = l ++ r ++ [Instruction.operator o] := by
  rw [compile_operation h] at hcompile
  obtain ⟨l, hl, hcompile⟩ := bind_eq_ok.1 hcompile
  obtain ⟨r, hr, hcompile⟩ := bind_eq_ok.1 hcompile
  obtain ⟨o, ho, hcompile⟩ := bind_eq_ok.1 hcompile
  exact ⟨l, r, o, hl, hr, operatorOf_eq_ok ho, (Except.ok.inj hcompile).symm⟩

theorem compileCall_eq_ok {token : Token} {args : List Tree} {code : Program}
    (h : compileCall registry (.leaf token) args = .ok code) :
    ∃ name f written added, token.name? = some name ∧ choose registry name args.length = .ok f ∧
      compileAll registry args = .ok written ∧ omitted name f args.length = .ok added ∧
      code = [Instruction.openCall] ++ written ++ added ++ [Instruction.call name (some f.id)] := by
  rw [compileCall] at h
  cases hname : token.name? with
  | none =>
    simp only [Tree.name?, Tree.token?, Option.bind_some, hname] at h
    cases h
  | some name =>
    simp only [Tree.name?, Tree.token?, Option.bind_some, hname] at h
    obtain ⟨_, ⟨⟩, h⟩ := bind_eq_ok.1 h
    obtain ⟨f, hf, h⟩ := bind_eq_ok.1 h
    obtain ⟨written, hwritten, h⟩ := bind_eq_ok.1 h
    obtain ⟨added, hadded, h⟩ := bind_eq_ok.1 h
    exact ⟨name, f, written, added, rfl, hf, hwritten, hadded, (Except.ok.inj h).symm⟩

/-- No tree of a nonterminal other than that of lists is a comma list. -/
theorem isList_eq_false {s : Symbol} (d : Derivation s) (hs : s.IsProper)
    (hlist : s ≠ .list) : d.tree.isList = false := by
  have hroots : Rule.list ∉ s.roots := by
    cases s with
    | list => exact absurd rfl hlist
    | binary remaining =>
      have hsuffix : binaryRoots remaining <:+ binaryRoots levels :=
        List.suffix_append_self_iff.2 (hs.map _)
      intro hmem
      exact absurd (hsuffix.subset hmem) (by decide)
    | assignment | target | conditional | unary | power | suffix | arguments | primary => decide
  have hrule := d.rule?_ne hroots
  simpa [isList] using hrule

def EmitsAs (registry : Registry) : {s : Symbol} → Derivation s → Prop
  | .arguments, d => ∀ code, compileAll registry d.tree.children = .ok code →
      ∃ args : List (Tree × Program), args.map Prod.fst = d.tree.children ∧
        args.flatMap Prod.snd = code ∧
        ∀ arg ∈ args, Emits registry arg.1 arg.2 ∧ arg.1.isList = false
  | _, d => ∀ code, compile registry d.tree = .ok code → Emits registry d.tree code

theorem compileAll_append {trees more : List Tree} {code : Program}
    (h : compileAll registry (trees ++ more) = .ok code) :
    ∃ first others, compileAll registry trees = .ok first ∧
      compileAll registry more = .ok others ∧ code = first ++ others := by
  induction trees generalizing code with
  | nil => exact ⟨[], code, by rw [compileAll], h, rfl⟩
  | cons tree trees ih =>
    rw [List.cons_append, compileAll] at h
    obtain ⟨first, hfirst, h⟩ := bind_eq_ok.1 h
    obtain ⟨others, hothers, h⟩ := bind_eq_ok.1 h
    obtain ⟨middle, last, hmiddle, hlast, rfl⟩ := ih hothers
    refine ⟨first ++ middle, last, ?_, hlast, ?_⟩
    · rw [compileAll, hfirst, hmiddle]
      rfl
    · rw [List.append_assoc]
      exact (Except.ok.inj h).symm

theorem compileAll_singleton {tree : Tree} {code : Program}
    (h : compileAll registry [tree] = .ok code) : compile registry tree = .ok code := by
  rw [compileAll] at h
  obtain ⟨first, hfirst, h⟩ := bind_eq_ok.1 h
  obtain ⟨others, hothers, h⟩ := bind_eq_ok.1 h
  rw [compileAll] at hothers
  cases hothers
  rw [hfirst, ← h, List.append_nil]
  rfl

/-- Only a variable can be assigned to. -/
theorem emits_assign {left right : Tree} {op : Token} {code : Program}
    (hcompile : compile registry (.node .assignment [left, .leaf op, right]) = .ok code)
    (hop : op.operator?.any Operator.isAssignment)
    (hright : ∀ value, compile registry right = .ok value → Emits registry right value)
    (hsingle : right.isList = false) :
    Emits registry (.node .assignment [left, .leaf op, right]) code := by
  rw [compile] at hcompile
  obtain ⟨name, hname, hcompile⟩ := bind_eq_ok.1 hcompile
  obtain ⟨o, ho, hcompile⟩ := bind_eq_ok.1 hcompile
  obtain ⟨value, hvalue, hemitted⟩ := bind_eq_ok.1 hcompile
  obtain ⟨token, rfl, htoken⟩ := target_eq_ok hname
  have ho := operatorOf_eq_ok ho
  cases hbase : o.compoundBase with
  | some base =>
    rw [hbase] at hemitted
    cases hemitted
    exact .compound htoken ho hbase (hright value hvalue) hsingle
  | none =>
    rw [hbase] at hemitted
    cases hemitted
    rw [ho] at hop
    have heq : o = .assign := by simpa [Operator.isAssignment, hbase] using hop
    exact .assign htoken (heq ▸ ho) (hright value hvalue) hsingle

theorem emits_choice {mark sep : Token} {condition first second : Tree} {code : Program}
    (hcompile : compile registry
      (.node .conditional [condition, .leaf mark, first, .leaf sep, second]) = .ok code)
    (hcondition : ∀ c, compile registry condition = .ok c → Emits registry condition c)
    (hfirst : ∀ a, compile registry first = .ok a → Emits registry first a)
    (hsecond : ∀ b, compile registry second = .ok b → Emits registry second b)
    (hsingle : condition.isList = false) (hsecondSingle : second.isList = false) :
    Emits registry (.node .conditional [condition, .leaf mark, first, .leaf sep, second]) code := by
  rw [compile] at hcompile
  obtain ⟨a, ha, hcompile⟩ := bind_eq_ok.1 hcompile
  obtain ⟨b, hb, hcompile⟩ := bind_eq_ok.1 hcompile
  obtain ⟨c, hc, hcompile⟩ := bind_eq_ok.1 hcompile
  cases hcompile
  exact .choice (hfirst a ha) (hsecond b hb) (hcondition c hc) hsingle hsecondSingle

theorem takesOne_prefixed {op : Operator} (h : op ∈ unaryOperators)
    (hstep : ¬ (op = .increment ∨ op = .decrement)) : (prefixed op).takesOne := by
  revert op
  decide

theorem emits_prefixed {operand : Tree} {op : Token} {code : Program}
    (hcompile : compile registry (.node .unary [.leaf op, operand]) = .ok code)
    (hop : (among? unaryOperators op).isSome)
    (hoperand : ∀ value, compile registry operand = .ok value → Emits registry operand value)
    (hsingle : operand.isList = false) :
    Emits registry (.node .unary [.leaf op, operand]) code := by
  obtain ⟨o, hmem, ho⟩ := operator?_of_among? hop
  rw [compile] at hcompile
  obtain ⟨o', ho', hcompile⟩ := bind_eq_ok.1 hcompile
  obtain rfl : o = o' := Option.some.inj (ho.symm.trans (operatorOf_eq_ok ho'))
  split at hcompile
  · next hstep =>
    obtain ⟨name, hname, hstepped⟩ := bind_eq_ok.1 hcompile
    obtain ⟨token, rfl, htoken⟩ := target_eq_ok hname
    cases hstepped
    exact .stepFirst ho htoken hstep
  · next hstep =>
    obtain ⟨value, hvalue, hcompile⟩ := bind_eq_ok.1 hcompile
    cases hcompile
    exact .prefixed ho hstep (takesOne_prefixed hmem hstep) (hoperand value hvalue) hsingle

theorem emits_step {operand : Tree} {op : Token} {code : Program}
    (hcompile : compile registry (.node .suffix [operand, .leaf op]) = .ok code) :
    Emits registry (.node .suffix [operand, .leaf op]) code := by
  rw [compile] at hcompile
  obtain ⟨name, hname, hcompile⟩ := bind_eq_ok.1 hcompile
  obtain ⟨o, ho, hstepped⟩ := bind_eq_ok.1 hcompile
  obtain ⟨token, rfl, htoken⟩ := target_eq_ok hname
  cases hstepped
  exact .stepAfter htoken (operatorOf_eq_ok ho)

theorem emits_operation {rule : Rule} {left right : Tree} {op : Token} {operators : List Operator}
    {code : Program} (hrule : isInfix rule)
    (hcompile : compile registry (.node rule [left, .leaf op, right]) = .ok code)
    (hop : ∃ o ∈ operators, op.operator? = some o) (htwo : ∀ o ∈ operators, o.takesTwo)
    (hleft : ∀ l, compile registry left = .ok l → Emits registry left l)
    (hright : ∀ r, compile registry right = .ok r → Emits registry right r)
    (hleftSingle : left.isList = false) (hrightSingle : right.isList = false) :
    Emits registry (.node rule [left, .leaf op, right]) code := by
  obtain ⟨l, r, o, hl, hr, ho, rfl⟩ := compile_operation_eq_ok hrule hcompile
  obtain ⟨o', hmem, ho'⟩ := hop
  obtain rfl : o' = o := Option.some.inj (ho'.symm.trans ho)
  exact .operation hrule ho (htwo _ hmem) (hleft l hl) (hright r hr) hleftSingle hrightSingle

theorem isInfix_of_mem_levels {level : Level} (h : level ∈ levels) : isInfix level.rule := by
  revert level
  decide

theorem takesTwo_of_mem_levels {level : Level} (h : level ∈ levels) :
    ∀ o ∈ level.operators, o.takesTwo := by
  revert level
  decide

theorem emitsAs {s : Symbol} (d : Derivation s) (hs : s.IsProper) : EmitsAs registry d := by
  induction d with
  | ofAssignment _ ih | ofConditional _ ih | suffixTarget _ ih | ofUnary _ ih | ofPower _ ih
  | ofSuffix _ ih | ofPrimary _ ih => exact ih trivial
  | ofBinary _ ih => exact ih (List.suffix_refl _)
  | ofTighter _ ih => exact ih ((List.suffix_cons _ _).trans hs)
  | comma left sep _ right ihl ihr =>
    intro code hcompile
    rw [Derivation.tree, compile] at hcompile
    obtain ⟨l, hl, hcompile⟩ := bind_eq_ok.1 hcompile
    obtain ⟨r, hr, hcompile⟩ := bind_eq_ok.1 hcompile
    cases hcompile
    exact .list (ihl trivial l hl) (ihr trivial r hr) (isList_eq_false right trivial (by simp))
  | assign left op hop value _ ih =>
    intro code hcompile
    exact emits_assign hcompile hop (ih trivial) (isList_eq_false value trivial (by simp))
  | choice condition mark _ first sep _ second ihc ihf ihs =>
    intro code hcompile
    exact emits_choice hcompile (ihc (List.suffix_refl _)) (ihf trivial) (ihs trivial)
      (isList_eq_false condition (List.suffix_refl _) (by simp))
      (isList_eq_false second trivial (by simp))
  | prefixTarget op hop operand ih | prefixed op hop operand ih =>
    intro code hcompile
    exact emits_prefixed hcompile hop (ih trivial) (isList_eq_false operand trivial (by simp))
  | operation left op hop right ihl ihr =>
    intro code hcompile
    have hlevel := hs.subset (List.mem_cons_self ..)
    have htighter := (List.suffix_cons _ _).trans hs
    exact emits_operation (isInfix_of_mem_levels hlevel) hcompile (operator?_of_among? hop)
      (takesTwo_of_mem_levels hlevel) (ihl hs) (ihr htighter)
      (isList_eq_false left hs (by simp)) (isList_eq_false right htighter (by simp))
  | raised base op hop exponent ihb ihe =>
    intro code hcompile
    have hpower : ∃ o ∈ [Operator.power], op.operator? = some o := ⟨_, .head _, hop⟩
    exact emits_operation rfl hcompile hpower (by decide) (ihb trivial) (ihe trivial)
      (isList_eq_false base trivial (by simp)) (isList_eq_false exponent trivial (by simp))
  | step operand op _ _ =>
    intro code hcompile
    exact emits_step hcompile
  | emptyCall name _ left _ right _ =>
    intro code hcompile
    rw [Derivation.tree, compile] at hcompile
    obtain ⟨callee, f, written, added, hname, hf, hwritten, hadded, rfl⟩ :=
      compileCall_eq_ok hcompile
    rw [compileAll] at hwritten
    cases hwritten
    exact .emptyCall hname hf hadded
  | call name _ left _ args right _ ih =>
    intro code hcompile
    rw [Derivation.tree, args.tree_arguments, compile] at hcompile
    obtain ⟨callee, f, written, added, hname, hf, hwritten, hadded, rfl⟩ :=
      compileCall_eq_ok hcompile
    obtain ⟨pairs, hpairs, rfl, hemits⟩ := ih trivial written hwritten
    have hlength : args.tree.children.length = pairs.length := by
      rw [← hpairs, List.length_map]
    rw [Derivation.tree, args.tree_arguments, ← hpairs]
    exact .call hname (hlength ▸ hf) (fun arg harg => (hemits arg harg).1)
      (fun arg harg => (hemits arg harg).2) (hlength ▸ hadded)
  | argument d ih =>
    intro code hcompile
    have hemits := ih trivial code (compileAll_singleton hcompile)
    refine ⟨[(d.tree, code)], rfl, List.append_nil _, ?_⟩
    rintro arg (_ | ⟨_, ⟨⟩⟩)
    exact ⟨hemits, isList_eq_false d trivial (by simp)⟩
  | more before sep _ next ihb ihn =>
    intro code hcompile
    obtain ⟨first, others, hfirst, hothers, rfl⟩ := compileAll_append hcompile
    obtain ⟨pairs, hpairs, rfl, hemits⟩ := ihb trivial first hfirst
    have hnext := ihn trivial others (compileAll_singleton hothers)
    refine ⟨pairs ++ [(next.tree, others)], ?_, ?_, ?_⟩
    · simp [Derivation.tree, Tree.children, hpairs]
    · simp
    · intro arg harg
      rcases List.mem_append.1 harg with harg | harg
      · exact hemits arg harg
      · obtain rfl := List.mem_singleton.1 harg
        exact ⟨hnext, isList_eq_false next trivial (by simp)⟩
  | leaf token _ =>
    intro code hcompile
    rw [Derivation.tree, compile] at hcompile
    exact .leaf hcompile
  | group left _ inner right _ ih =>
    intro code hcompile
    rw [Derivation.tree, compile] at hcompile
    exact .group (ih trivial code hcompile)

theorem operator?_eq_none_of_ofToken {token : Token} {code : Program}
    (h : ofToken token = .ok code) : token.operator? = none := by
  obtain ⟨kind, position⟩ := token
  cases kind <;> first | rfl | cases h

theorem target_leaf {token : Token} {name : String} (h : token.name? = some name) :
    target (.leaf token) = .ok name := by
  simp [target, Tree.name?, Tree.token?, h]

theorem operatorOf_leaf {token : Token} {op : Operator} (h : token.operator? = some op) :
    operatorOf (.leaf token) = .ok op := by
  simp [operatorOf, Tree.operator?, Tree.token?, h]

theorem compileCall_leaf {token : Token} {args : List Tree} {name : String} {f : Function}
    {written added : Program} (hname : token.name? = some name)
    (hf : choose registry name args.length = .ok f)
    (hwritten : compileAll registry args = .ok written)
    (hadded : omitted name f args.length = .ok added) :
    compileCall registry (.leaf token) args =
      .ok ([Instruction.openCall] ++ written ++ added ++ [Instruction.call name (some f.id)]) := by
  have hcallee : (Tree.leaf token).name? = some name := hname
  rw [compileCall, hcallee]
  simp [bind, Except.bind, hf, hwritten, hadded, pure, Except.pure]

theorem compileAll_map {args : List (Tree × Program)}
    (h : ∀ arg ∈ args, compile registry arg.1 = .ok arg.2) :
    compileAll registry (args.map Prod.fst) = .ok (args.flatMap Prod.snd) := by
  induction args with
  | nil => rw [List.map_nil, compileAll, List.flatMap_nil]
  | cons arg args ih =>
    rw [List.map_cons, compileAll, h arg (.head _), ih fun a ha => h a (.tail _ ha)]
    rfl

/-- The clauses are those of the compiler. -/
theorem compile_of_emits {tree : Tree} {code : Program} (h : Emits registry tree code) :
    compile registry tree = .ok code := by
  induction h with
  | leaf h => rw [compile, h]
  | list _ _ _ ihl ihr =>
    rw [compile, ihl, ihr]
    rfl
  | assign hname hop _ _ ih =>
    rw [compile, target_leaf hname, operatorOf_leaf hop, ih]
    rfl
  | compound hname hop hbase _ _ ih =>
    rw [compile, target_leaf hname, operatorOf_leaf hop, ih]
    simp [bind, Except.bind, hbase, pure, Except.pure]
  | choice _ _ _ _ _ iha ihb ihc =>
    rw [compile, iha, ihb, ihc]
    rfl
  | stepFirst hop hname hstep =>
    rw [compile, operatorOf_leaf hop, target_leaf hname]
    simp [bind, Except.bind, hstep, pure, Except.pure]
  | prefixed hop hstep _ _ _ ih =>
    rw [compile, operatorOf_leaf hop, ih]
    simp [bind, Except.bind, hstep, pure, Except.pure]
  | stepAfter hname hop =>
    rw [compile, target_leaf hname, operatorOf_leaf hop]
    rfl
  | emptyCall hname hf hadded =>
    rw [compile]
    exact compileCall_leaf hname hf (by rw [compileAll]) hadded
  | @call token left right name f args added hname hf _ _ hadded ih =>
    have hlength : (args.map Prod.fst).length = args.length := List.length_map _
    rw [compile]
    exact compileCall_leaf hname (hlength ▸ hf) (compileAll_map ih) (hlength ▸ hadded)
  | group _ ih => rw [compile, ih]
  | operation hrule hop _ _ _ _ _ ihl ihr =>
    rw [compile_operation hrule, ihl, ihr, operatorOf_leaf hop]
    rfl

/-- What is read from tokens and compiles is emitted clause by clause. -/
theorem emits_of_parse {tokens : List Token} {tree : Tree} {code : Program}
    (hparse : Tree.parse tokens = .ok tree) (hcompile : compile registry tree = .ok code) :
    Emits registry tree code := by
  obtain ⟨d, rfl, -⟩ := parse_eq_ok.1 hparse
  exact emitsAs d trivial code hcompile

end Program

end Reckoner
