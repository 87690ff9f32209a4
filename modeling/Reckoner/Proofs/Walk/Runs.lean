import Mathlib
import Reckoner.Proofs.Walk.Calls

/-!
Running and walking. By the clauses of the compiler, the code of an expression does what walking the
expression does, and so does the program of a comma list at any fuel.
-/

namespace Reckoner.Walk

open Machine Program

section Expressions

variable {base : Registry} {runner : Runner} {walker : Walker} {depth : Nat}

theorem simulates_expressions {args : List (Tree × Program)}
    (h : ∀ arg ∈ args, Simulates base runner depth id arg.2 (expression walker depth arg.1)
      Operand.push) :
    Simulates base runner depth id (args.flatMap Prod.snd)
      (expressions walker depth (args.map Prod.fst)) pushAll := by
  induction args with
  | nil =>
    rw [List.map_nil, expressions]
    exact .pure fun _ _ => rfl
  | cons arg args ih =>
    rw [List.map_cons, expressions]
    refine (h arg (.head _)).bind fun first => ?_
    have hothers := (ih fun a ha => h a (.tail _ ha)).above first.push
    exact hothers.map fun others stack => pushAll_cons first others stack

theorem simulates_literal {token : Token} {code : Program} (h : ofToken token = .ok code) :
    Simulates base runner depth id code (pure (literal token)) Operand.push := by
  obtain ⟨kind, position⟩ := token
  cases kind with
  | name name =>
    cases h
    exact simulates_name name
  | integer i =>
    cases h
    exact simulates_value (.integer i)
  | real r =>
    cases h
    exact simulates_value (.real r)
  | string s =>
    cases h
    exact simulates_value (.string s)
  | operator op => cases h

theorem simulates_choice {mark sep : Token} {condition first second : Tree} {a b c : Program}
    (hwalker : WalkerAgrees base runner walker)
    (hfirst : Emits base first a) (hsecond : Emits base second b)
    (hfirstPlain : first.isPlain) (hsecondPlain : second.isPlain)
    (hcondition : Simulates base runner depth id c (expression walker depth condition)
      Operand.push) :
    Simulates base runner depth id
      ([Instruction.startBlock] ++ a ++ [Instruction.endBlock, .startBlock] ++ b ++
        [Instruction.endBlock] ++ c ++ [Instruction.operator .question])
      (expression walker depth
        (.node .conditional [condition, .leaf mark, first, .leaf sep, second]))
      Operand.push := by
  have hfirstBlock := simulates_block base runner depth (balanced_of_emits hfirst)
  have hsecondBlock := simulates_block base runner depth (balanced_of_emits hsecond)
  have hblocks := hfirstBlock.bind fun _ =>
    (hsecondBlock.above (.block a :: ·)).bind fun _ =>
      (hcondition.above fun stack => .block b :: .block a :: stack).bind fun condition =>
        simulates_question hwalker depth hfirst hsecond hfirstPlain hsecondPlain condition
  rw [expression]
  simpa using hblocks

theorem expression_operation {rule : Rule} (h : isInfix rule) (left right : Tree) {token : Token}
    {op : Operator} (hop : token.operator? = some op) :
    expression walker depth (.node rule [left, .leaf token, right]) =
      (do let l ← expression walker depth left
          let r ← expression walker depth right
          binary op l r) := by
  have hleaf : (Tree.leaf token).operator? = some op := hop
  cases rule <;> first | exact absurd h (by decide) | rw [expression, hleaf] <;> simp

/-- The code of an expression that is no comma list does what walking it does. -/
theorem simulates_expression (hwalker : WalkerAgrees base runner walker)
    (hbodies : PlainBodies base) {tree : Tree} {code : Program} (h : Emits base tree code)
    (hplain : tree.isPlain) (hsingle : tree.isList = false) :
    Simulates base runner depth id code (expression walker depth tree) Operand.push := by
  induction h with
  | leaf h =>
    rw [expression]
    exact simulates_literal h
  | list => cases hsingle
  | @assign token op right name value hname hop hvalue hrightSingle ih =>
    have htarget : (Tree.leaf token).name? = some name := hname
    have hassign : (Tree.leaf op).operator? = some .assign := hop
    rw [expression, htarget, hassign]
    exact simulates_assignment name (ih (Tree.isPlain_of_mem hplain (by simp)) hrightSingle)
  | @compound token op right name o operation value hname hop hbase hvalue hrightSingle ih =>
    have htarget : (Tree.leaf token).name? = some name := hname
    have hcompound : (Tree.leaf op).operator? = some o := hop
    have hright := ih (Tree.isPlain_of_mem hplain (by simp)) hrightSingle
    have hsum := simulates_operation (Operator.takesTwo_of_compoundBase hbase)
      (simulates_name name) hright
    rw [expression, htarget, hcompound, Option.bind_some, hbase]
    simpa [pure_bind] using simulates_assignment name hsum
  | choice hfirst hsecond hcondition hconditionSingle _ _ _ ihc =>
    exact simulates_choice hwalker hfirst hsecond (Tree.isPlain_of_mem hplain (by simp))
      (Tree.isPlain_of_mem hplain (by simp))
      (ihc (Tree.isPlain_of_mem hplain (by simp)) hconditionSingle)
  | @stepFirst token op name o hop hname hstep =>
    have htarget : (Tree.leaf token).name? = some name := hname
    have hop : (Tree.leaf op).operator? = some o := hop
    rw [expression, hop, htarget]
    simpa [hstep] using simulates_step name o
  | @prefixed op operand o value hop hstep hone hvalue hoperandSingle ih =>
    have hop : (Tree.leaf op).operator? = some o := hop
    have hoperand := ih (Tree.isPlain_of_mem hplain (by simp)) hoperandSingle
    rw [expression, hop]
    simpa [hstep] using simulates_prefixed hone hoperand
  | @stepAfter token op name o hname hop =>
    have htarget : (Tree.leaf token).name? = some name := hname
    have hop : (Tree.leaf op).operator? = some o := hop
    have htwo : (if o = .increment then Operator.minus else .plus).takesTwo := by
      split <;> rfl
    have hone : Simulates base runner depth id [.value (.integer 1)] (pure (.value (.integer 1)))
        Operand.push := simulates_value (.integer 1)
    have hundo := simulates_operation htwo (simulates_step name o) hone
    rw [expression, hop, htarget]
    simpa [undo] using hundo
  | @emptyCall token left right name f added hname hf hadded =>
    have hcallee : (Tree.leaf token).name? = some name := hname
    have hcode := (simulates_openCall base runner depth).bind fun _ =>
      simulates_call hwalker depth hbodies hf []
    rw [expression, hcallee, eq_replicate_of_omitted hadded]
    simpa using hcode
  | @call token left right name f args added hname hf hargs hargsSingle hadded ih =>
    have hcallee : (Tree.leaf token).name? = some name := hname
    have hargsPlain : ∀ arg ∈ args, arg.1.isPlain := by
      intro arg harg
      have hlist : (Tree.node .arguments (args.map Prod.fst)).isPlain :=
        Tree.isPlain_of_mem hplain (by simp)
      exact Tree.isPlain_of_mem hlist (List.mem_map_of_mem harg)
    have hwritten := simulates_expressions fun arg harg =>
      ih arg harg (hargsPlain arg harg) (hargsSingle arg harg)
    have hcode := (simulates_openCall base runner depth).bind fun _ =>
      (hwritten.above (.openCall :: ·)).bind fun operands =>
        simulates_call hwalker depth hbodies hf operands
    rw [expression, hcallee, eq_replicate_of_omitted hadded]
    simpa using hcode
  | group hinner ih =>
    have hinnerSingle := (Tree.isPlain_node.1 hplain).1 rfl
    rw [expression]
    exact ih (Tree.isPlain_of_mem hplain (by simp)) (hinnerSingle _ (by simp))
  | operation hrule hop htwo hleft hright hleftSingle hrightSingle ihl ihr =>
    rw [expression_operation hrule _ _ hop]
    exact simulates_operation htwo (ihl (Tree.isPlain_of_mem hplain (by simp)) hleftSingle)
      (ihr (Tree.isPlain_of_mem hplain (by simp)) hrightSingle)

theorem expressions_append (trees more : List Tree) :
    expressions walker depth (trees ++ more) = do
      let operands ← expressions walker depth trees
      let others ← expressions walker depth more
      return operands ++ others := by
  induction trees with
  | nil => simp [expressions]
  | cons tree trees ih => simp [expressions, ih]

theorem simulates_comma (operands : List Operand) (operand : Operand) :
    Simulates base runner depth (fun stack => operand.push (pushAll operands stack))
      [.operator .comma] (pure (operands ++ [operand])) pushAll := by
  refine .pure fun more stack => ?_
  rw [List.singleton_append, perform_operator, pushAll_append]
  rfl

/-- The code of a comma list leaves an entry for each of its expressions. -/
theorem simulates_elements (hwalker : WalkerAgrees base runner walker)
    (hbodies : PlainBodies base) {tree : Tree} {code : Program} (h : Emits base tree code)
    (hplain : tree.isPlain) :
    Simulates base runner depth id code (expressions walker depth tree.elements) pushAll := by
  by_cases hlist : tree.isList
  · cases h with
    | @list sep left right l r hleft hright hsingle =>
      have hall := simulates_elements hwalker hbodies hleft
        (Tree.isPlain_of_mem hplain (by simp))
      have hlast : Simulates base runner depth id r (expression walker depth right)
          Operand.push :=
        simulates_expression hwalker hbodies hright (Tree.isPlain_of_mem hplain (by simp)) hsingle
      have hcode := hall.bind fun operands => (hlast.above (pushAll operands)).bind fun operand =>
        simulates_comma operands operand
      rw [Tree.elements, expressions_append]
      simpa [expressions] using hcode
    | operation hrule =>
      rw [isList_of_isInfix hrule] at hlist
      cases hlist
    | _ => cases hlist
  · have hsingle : tree.isList = false := by simpa using hlist
    rw [Tree.elements_of_isList_eq_false hsingle]
    simp only [expressions, pure_bind]
    exact (simulates_expression hwalker hbodies h hplain hsingle).map fun _ _ => rfl
termination_by tree

end Expressions

theorem walkerAgrees_walkWith {base : Registry} {runner : Runner} {walker : Walker}
    (hwalker : WalkerAgrees base runner walker) (hbodies : PlainBodies base) :
    WalkerAgrees base (runWith runner) (walkWith walker) := by
  intro depth tree program env env' journal hemits hplain henv
  have hcode : Simulates base runner depth id program (expressions walker depth tree.elements)
      pushAll := simulates_elements hwalker hbodies hemits hplain
  have hstack := hcode.agree (R := fun stack operands => stack = pushAll operands []) [] [] pure
    fun operands => by rw [perform_nil]; exact agree_pure rfl
  rw [List.append_nil, bind_pure] at hstack
  have hwork : Agree base Eq
      (do
        let stack ← perform runner depth program []
        Machine.collect stack.reverse)
      (do
        let operands ← expressions walker depth tree.elements
        collect operands) := by
    refine hstack.bind fun stack operands h => ?_
    rw [h, pushAll, List.append_nil, List.reverse_reverse, ← collect_map_slot]
    exact agree_collect _
  exact (hwork ⟨env, journal, FirstError.none⟩ ⟨env', journal, FirstError.none⟩
    ⟨henv, rfl, rfl⟩).result?

/-- Runs and walks agree at any fuel. -/
theorem walkerAgrees_walk {base : Registry} (hbodies : PlainBodies base) (fuel : Nat) :
    WalkerAgrees base (run fuel) (walk fuel) := by
  induction fuel with
  | zero => exact fun _ _ _ _ _ _ _ _ _ => .none
  | succ fuel ih => exact walkerAgrees_walkWith ih hbodies

/-- Where no brackets directly hold a comma list, neither in the text nor in a formula, running a
compiled text and walking its tree end alike at any fuel: in the same values and the same first
failure, with the same variables, after the same reads, writes and calls in the same order. -/
theorem run_rel_walk {tokens : List Token} {tree : Tree} {program : Program} {env : Environment}
    (hparse : Tree.parse tokens = .ok tree) (hplain : tree.isPlain)
    (hcompile : compile env.registry tree = .ok program) (hcoherent : env.registry.Coherent)
    (hbodies : PlainBodies env.registry) (fuel depth : Nat) (journal : List Event) :
    Option.Rel (fun ran walked => ran.1 = walked.1 ∧ ran.2.1.scope = walked.2.1.scope ∧
        ran.2.2 = walked.2.2)
      (run fuel depth program env journal) (walk fuel depth tree env journal) := by
  have hreset : compile env.registry.reset tree = .ok program :=
    (compile_congr (sameChoices_of_reset_eq env.registry.reset_reset) tree).trans hcompile
  have hrel := walkerAgrees_walk (plainBodies_reset hbodies) fuel depth tree program env env journal
    (emits_of_parse hparse hreset) hplain (.refl hcoherent)
  generalize run fuel depth program env journal = o at hrel ⊢
  generalize walk fuel depth tree env journal = o' at hrel ⊢
  cases hrel with
  | none => exact .none
  | some h => exact .some ⟨h.execution, h.env.scope, h.journal⟩

def successor : Registry :=
  (Registry.empty.insert "f" (.formula ["x"] "x + 1") ⟨[Kinds.any], false⟩ false false).2

def assignedCall : Tree :=
  .node .list [
    .node .assignment [.leaf ⟨.name "y", 0⟩, .leaf ⟨.operator .assign, 2⟩,
      .node .suffix [.leaf ⟨.name "f", 4⟩, .leaf ⟨.operator .openBracket, 5⟩,
        .node .arguments [.leaf ⟨.integer 3, 6⟩], .leaf ⟨.operator .closeBracket, 7⟩]],
    .leaf ⟨.operator .comma, 8⟩, .leaf ⟨.name "y", 10⟩]

theorem plainBodies_successor : PlainBodies successor := by
  intro f hf parameters text hbody body hread
  obtain rfl := List.mem_singleton.1 hf
  cases hbody
  have hsum : bodyOf successor "x + 1" = .ok (.node .additive
      [.leaf ⟨.name "x", 0⟩, .leaf ⟨.operator .plus, 2⟩, .leaf ⟨.integer 1, 4⟩]) := by cbv
  rw [hsum] at hread
  cases hread
  cbv

theorem run_rel_walk_of_assignedCall :
    ∃ tokens program, Token.tokenize "y = f(3), y" = .ok tokens ∧
      Tree.parse tokens = .ok assignedCall ∧ compile successor assignedCall = .ok program ∧
      (∀ fuel, Option.Rel (fun ran walked => ran.1 = walked.1 ∧
          ran.2.1.scope = walked.2.1.scope ∧ ran.2.2 = walked.2.2)
        (run fuel 0 program { registry := successor } [])
        (walk fuel 0 assignedCall { registry := successor } [])) ∧
      (walk 2 0 assignedCall { registry := successor } []).map (fun walked => walked.1.values) =
        some [.integer 4, .integer 4] := by
  have hcoherent : successor.Coherent := Registry.coherent_insert Registry.coherent_empty ..
  refine ⟨[⟨.name "y", 0⟩, ⟨.operator .assign, 2⟩, ⟨.name "f", 4⟩, ⟨.operator .openBracket, 5⟩,
      ⟨.integer 3, 6⟩, ⟨.operator .closeBracket, 7⟩, ⟨.operator .comma, 8⟩, ⟨.name "y", 10⟩],
    [.name "y", .openCall, .value (.integer 3), .call "f" (some ⟨0⟩), .operator .assign,
      .name "y", .operator .comma],
    by cbv, ?parse, ?compile, fun fuel => run_rel_walk ?parse (by cbv) ?compile hcoherent
      plainBodies_successor fuel 0 [], by cbv⟩
  case parse => cbv
  case compile => cbv

end Reckoner.Walk
