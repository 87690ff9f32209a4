import Reckoner.Proofs.Machine.Emitted
import Reckoner.Proofs.Machine.Steps

/-!
Emitted code on a stack. It does the same on any stack as on an empty one, and what it leaves comes
on top of what there was. When the tree is an expression, it leaves a variable to be read later only
if the tree is that variable.
-/

namespace Reckoner

def Tree.variable? : Tree → Option String
  | leaf token => token.name?
  | node .group [_, inner, _] => inner.variable?
  | node _ _ => none

def Instruction.givesResult : Instruction → Bool
  | operator op => op != .comma
  | call _ _ => true
  | _ => false

namespace Machine

open Program

variable {runner : Runner} {depth : Nat}

theorem ends_slotOf (result : Except Error Value) :
    Ends (slotOf result) fun slot => slot.shape = .operand :=
  ends_of_yields (yields_slotOf result)

theorem ends_push {m : Machine Slot} (rest : Stack)
    (h : Ends m fun slot => slot.shape = .operand) :
    Ends (do return (← m) :: rest) (IsPushed rest) :=
  h.bind fun slot hslot => ends_pure ⟨slot, hslot, rfl⟩

/-- An assignment takes two entries, whatever the target is. -/
theorem ends_assign (value target : Slot) (rest : Stack) :
    Ends (assign (value :: target :: rest)) (IsPushed rest) := by
  refine (ends_of_yields (yields_popValue value (target :: rest))).bind ?_
  rintro ⟨v, _⟩ rfl
  have hfail := ends_push rest (ends_of_yields (yields_fail .notAssignable))
  cases target with
  | name name =>
    cases v with
    | none => exact ends_pure ⟨.failed, rfl, rfl⟩
    | some v => exact ends_push rest (ends_of_yields (yields_writeName name v))
  | failed => exact ends_pure ⟨.failed, rfl, rfl⟩
  | value _ | block _ | openCall => exact hfail

/-- A conditional that finds no branches stops the run. -/
theorem conditional_stuck {condition other : Slot} (hother : other.shape.isReadable)
    (rest : Stack) :
    conditional runner depth (condition :: other :: rest) =
      resolve condition >>= fun _ => stop (.other "Missing block for '?:'") := by
  simp only [conditional, popValue, bind_assoc, pure_bind]
  refine bind_congr fun v => ?_
  cases other with
  | block body => cases hother
  | name | value | failed | openCall => rfl

theorem ends_stuck {condition other : Slot} (hother : other.shape.isReadable) (rest : Stack) :
    Ends (conditional runner depth (condition :: other :: rest)) fun _ => False := by
  rw [conditional_stuck hother]
  exact ends_after fun _ _ _ _ hdone => nomatch hdone

theorem openCall_notMem {slots : List Slot} (hread : ∀ slot ∈ slots, slot.shape.isReadable) :
    Slot.openCall ∉ slots := fun hmem => nomatch hread _ hmem

/-- Every run of emitted code that is done leaves what can be left by its instructions. -/
theorem isHandedBack_ends (registry : Registry) (runner : Runner) (depth : Nat)
    (P : Stack → Prop) :
    IsHandedBack registry fun program stack => Ends (perform runner depth program stack) P where
  name h := by
    rw [perform_name]
    exact h
  value h := by
    rw [perform_value]
    exact h
  openCall h := by
    rw [perform_openCall]
    exact h
  startBlock hsplit h := by
    rw [perform_startBlock _ _ _ hsplit]
    exact h
  comma h := by
    rw [perform_operator]
    exact h
  takesOne hone _ _ _ h := by
    rw [perform_operator, operator_of_takesOne hone]
    exact (ends_of_yields (yields_unary _ _ _)).bind h
  takesTwo htwo _ _ _ _ h := by
    rw [perform_operator, operator_of_takesTwo htwo]
    exact (ends_of_yields (yields_binary _ _ _ _)).bind h
  assign h := by
    rw [perform_operator]
    exact (ends_assign _ _ _).bind h
  choice _ _ _ _ _ h := by
    rw [perform_operator]
    exact (ends_of_yields (yields_conditional (fun _ => trivial) _ _ _ _ _)).bind h
  stuck hother _ _ := by
    rw [perform_operator]
    exact (ends_stuck hother _).bind fun _ h => h.elim
  call _ _ hread _ _ below h := by
    rw [perform_call]
    have hsplit := splitCall_append (openCall_notMem hread) [] below
    exact (ends_of_yields (yields_call (fun _ => trivial) _ _ _ hsplit)).bind h

/-- The code of a tree leaves entries that can be read, as many as the tree is wide. -/
theorem ends_emitted {registry : Registry} {tree : Tree} {code : Program}
    (h : Emits registry tree code) :
    Ends (perform runner depth code []) fun stack =>
      stack.length = tree.width ∧ ∀ slot ∈ stack, slot.shape.isReadable := by
  have hcode := (carries_of_emits (isHandedBack_ends registry runner depth fun stack =>
    stack.length = tree.width ∧ ∀ slot ∈ stack, slot.shape.isReadable) h) [] []
    fun slots hslots hread => by
      dsimp only
      rw [perform_nil, List.append_nil]
      exact ends_pure ⟨hslots, hread⟩
  rwa [List.append_nil] at hcode

theorem ends_length {registry : Registry} {tree : Tree} {code : Program}
    (h : Emits registry tree code) :
    Ends (perform runner depth code []) fun stack => stack.length = tree.width :=
  (ends_emitted h).mono fun _ => And.left

/-! Instructions on a higher stack. -/

theorem unary_append (op : Operator) (operand : Slot) (rest below : Stack) :
    unary op (operand :: (rest ++ below)) = do
      let stack ← unary op (operand :: rest)
      return stack ++ below := by
  simp only [unary, popValue, bind_assoc, pure_bind]
  refine bind_congr fun v => ?_
  cases v with
  | none => rfl
  | some v => simp only [bind_assoc, pure_bind, List.cons_append]

theorem binary_append (op : Operator) (right left : Slot) (rest below : Stack) :
    binary op (right :: left :: (rest ++ below)) = do
      let stack ← binary op (right :: left :: rest)
      return stack ++ below := by
  simp only [binary, popValue, bind_assoc, pure_bind]
  refine bind_congr fun r => bind_congr fun l => ?_
  cases l with
  | none => rfl
  | some l =>
    cases r with
    | none => rfl
    | some r => simp only [bind_assoc, pure_bind, List.cons_append]

theorem assign_append (value target : Slot) (rest below : Stack) :
    assign (value :: target :: (rest ++ below)) = do
      let stack ← assign (value :: target :: rest)
      return stack ++ below := by
  simp only [assign, popValue, bind_assoc, pure_bind]
  refine bind_congr fun v => ?_
  cases target with
  | name name =>
    cases v with
    | none => rfl
    | some v => simp only [bind_assoc, pure_bind, List.cons_append]
  | failed => rfl
  | value _ | block _ | openCall =>
    simp only [bind_assoc, pure_bind, List.cons_append, List.drop_one, List.tail_cons]

theorem conditional_append (condition : Slot) (second first : Program) (rest below : Stack) :
    conditional runner depth (condition :: .block second :: .block first :: (rest ++ below)) = do
      let stack ← conditional runner depth (condition :: .block second :: .block first :: rest)
      return stack ++ below := by
  simp only [conditional, popValue, bind_assoc, pure_bind, List.cons_append]

/-- A call takes no more than the entries above its mark. -/
theorem splitCall_append_right {args slots : List Slot} {stack rest : Stack}
    (hsplit : splitCall args stack = some (slots, rest)) (below : Stack) :
    splitCall args (stack ++ below) = some (slots, rest ++ below) := by
  fun_induction splitCall args stack with
  | case1 => cases hsplit
  | case2 args stack =>
    cases hsplit
    rfl
  | case3 args slot stack hslot ih =>
    rw [List.cons_append, splitCall]
    · exact ih hsplit
    · exact hslot

theorem call_append (name : String) (target : Option FunctionId) {stack slots rest : Stack}
    (hsplit : splitCall [] stack = some (slots, rest)) (below : Stack) :
    call runner depth name target (stack ++ below) = do
      let after ← call runner depth name target stack
      return after ++ below := by
  simp only [call, hsplit, splitCall_append_right hsplit, bind_assoc]
  refine bind_congr fun env => ?_
  cases target.bind env.registry.find? with
  | none => simp only [bind_assoc, pure_bind, List.cons_append]
  | some f =>
    simp only [bind_assoc]
    refine bind_congr fun args => ?_
    cases args with
    | none => rfl
    | some args => simp only [bind_assoc, pure_bind, List.cons_append]

/-- Emitted code does the same above other entries and before other code. -/
theorem isHandedBack_append (registry : Registry) (runner : Runner) (depth : Nat)
    (tail : Program) (extra : Stack) :
    IsHandedBack registry fun program stack =>
      perform runner depth (program ++ tail) (stack ++ extra) = do
        let after ← perform runner depth program stack
        perform runner depth tail (after ++ extra) where
  name h := by
    rw [List.cons_append, perform_name, perform_name]
    exact h
  value h := by
    rw [List.cons_append, perform_value, perform_value]
    exact h
  openCall h := by
    rw [List.cons_append, perform_openCall, perform_openCall]
    exact h
  startBlock hsplit h := by
    rw [List.cons_append, perform_startBlock _ _ _ (splitBlock_append tail hsplit),
      perform_startBlock _ _ _ hsplit]
    exact h
  comma h := by
    rw [List.cons_append, perform_operator, perform_operator]
    exact h
  takesOne hone operand more below h := by
    rw [List.cons_append, List.cons_append, perform_operator, perform_operator,
      operator_of_takesOne hone, unary_append, bind_assoc, bind_assoc]
    exact (ends_of_yields (yields_unary _ _ _)).bind_congr fun stack hstack => h stack hstack
  takesTwo htwo right left more below h := by
    rw [List.cons_append, List.cons_append, List.cons_append, perform_operator, perform_operator,
      operator_of_takesTwo htwo, binary_append, bind_assoc, bind_assoc]
    exact (ends_of_yields (yields_binary _ _ _ _)).bind_congr fun stack hstack => h stack hstack
  assign {value target more below} h := by
    have hassign := assign_append value target below extra
    rw [List.cons_append, List.cons_append, List.cons_append, perform_operator, perform_operator]
    simp only [operator]
    rw [hassign, bind_assoc, bind_assoc]
    exact (ends_assign _ _ _).bind_congr fun stack hstack => h stack hstack
  choice {first second a b} _ _ condition more below h := by
    have hchoice := @conditional_append runner depth condition b a below extra
    simp only [List.cons_append]
    rw [perform_operator, perform_operator]
    simp only [operator]
    rw [hchoice, bind_assoc, bind_assoc]
    exact (ends_of_yields (yields_conditional (fun _ => trivial) _ _ _ _ _)).bind_congr
      fun stack hstack => h stack hstack
  stuck hother more below := by
    simp only [List.cons_append]
    rw [perform_operator, perform_operator]
    simp only [operator]
    rw [conditional_stuck hother, conditional_stuck hother, bind_assoc, bind_assoc, bind_assoc]
    rfl
  call {name count f} _ slots hread _ more below h := by
    have hsplit := splitCall_append (openCall_notMem hread) [] below
    rw [List.cons_append, perform_call, perform_call, call_append name (some f.id) hsplit,
      bind_assoc, bind_assoc]
    exact (ends_of_yields (yields_call (fun _ => trivial) _ _ _ hsplit)).bind_congr
      fun stack hstack => h stack hstack

/-- Behind the code of a tree, what it left is on the stack. -/
theorem perform_emitted {registry : Registry} {tree : Tree} {code : Program}
    (h : Emits registry tree code) (tail : Program) (below : Stack) :
    perform runner depth (code ++ tail) below =
      perform runner depth code [] >>= fun stack => perform runner depth tail (stack ++ below) := by
  have hcode := (carries_of_emits (isHandedBack_append registry runner depth tail below) h)
    [] [] fun slots _ _ => by
      dsimp only
      rw [List.nil_append, perform_nil, pure_bind]
  simpa only [List.append_nil, List.nil_append] using hcode

/-! What code leaves on top. -/

theorem ends_unary (op : Operator) (stack : Stack) :
    Ends (unary op stack) fun after => ∃ rest, IsPushed rest after := by
  refine ends_after fun popped => ?_
  obtain ⟨v, rest⟩ := popped
  cases v with
  | none => exact ends_pure ⟨rest, .failed, rfl, rfl⟩
  | some v => exact (ends_push rest (ends_slotOf _)).mono fun _ h => ⟨rest, h⟩

theorem ends_binary (op : Operator) (stack : Stack) :
    Ends (binary op stack) fun after => ∃ rest, IsPushed rest after := by
  refine ends_after fun popped => ends_after fun popped' => ?_
  obtain ⟨l, rest⟩ := popped'
  cases l with
  | none => exact ends_pure ⟨rest, .failed, rfl, rfl⟩
  | some l =>
    cases popped.1 with
    | none => exact ends_pure ⟨rest, .failed, rfl, rfl⟩
    | some r => exact (ends_push rest (ends_slotOf _)).mono fun _ h => ⟨rest, h⟩

theorem ends_assign_any (stack : Stack) :
    Ends (assign stack) fun after => ∃ rest, IsPushed rest after := by
  refine ends_after fun popped => ?_
  obtain ⟨v, rest⟩ := popped
  dsimp only
  split
  · next name rest =>
    cases v with
    | none => exact ends_pure ⟨rest, .failed, rfl, rfl⟩
    | some v =>
      exact (ends_push rest (ends_of_yields (yields_writeName name v))).mono fun _ h => ⟨rest, h⟩
  · next rest => exact ends_pure ⟨rest, .failed, rfl, rfl⟩
  · exact (ends_push _ (ends_of_yields (yields_fail .notAssignable))).mono fun _ h => ⟨_, h⟩

theorem ends_conditional (stack : Stack) :
    Ends (conditional runner depth stack) fun after => ∃ rest, IsPushed rest after := by
  refine ends_after fun popped => ?_
  obtain ⟨v, rest⟩ := popped
  dsimp only
  split
  · next rest =>
    exact ends_after fun _ => (ends_push rest (ends_slotOf _)).mono fun _ h => ⟨rest, h⟩
  · exact fun _ _ _ hdone => nomatch hdone

theorem ends_operator {op : Operator} (hop : op ≠ .comma) (stack : Stack) :
    Ends (operator runner depth op stack) fun after => ∃ rest, IsPushed rest after := by
  by_cases hone : op.takesOne
  · rw [operator_of_takesOne hone]
    exact ends_unary op stack
  · by_cases htwo : op.takesTwo
    · rw [operator_of_takesTwo htwo]
      exact ends_binary op stack
    · cases op with
      | comma => exact absurd rfl hop
      | assign => exact ends_assign_any stack
      | question => exact ends_conditional stack
      | _ =>
        first
        | exact absurd rfl hone
        | exact absurd rfl htwo
        | exact fun _ _ _ hdone => nomatch hdone

theorem ends_call (name : String) (target : Option FunctionId) (stack : Stack) :
    Ends (call runner depth name target stack) fun after => ∃ rest, IsPushed rest after := by
  cases hsplit : splitCall [] stack with
  | none =>
    unfold call
    rw [hsplit]
    exact fun _ _ _ hdone => nomatch hdone
  | some parts =>
    obtain ⟨slots, rest⟩ := parts
    exact (ends_of_yields (yields_call (fun _ => trivial) _ _ _ hsplit)).mono fun _ h => ⟨rest, h⟩

/-- A block that was opened is closed before what is left behind it. -/
theorem eq_append_of_splitBlock {inner : Nat} {program body rest : Program}
    (h : splitBlock inner program = some (body, rest)) : program = body ++ .endBlock :: rest := by
  fun_induction splitBlock inner program generalizing body rest with
  | case1 => cases h
  | case2 inner more ih =>
    obtain ⟨⟨b, r⟩, hbr, heq⟩ := Option.map_eq_some_iff.1 h
    cases heq
    rw [ih hbr, List.cons_append]
  | case3 more =>
    cases h
    rfl
  | case4 more inner ih =>
    obtain ⟨⟨b, r⟩, hbr, heq⟩ := Option.map_eq_some_iff.1 h
    cases heq
    rw [ih hbr, List.cons_append]
  | case5 inner instruction more _ _ ih =>
    obtain ⟨⟨b, r⟩, hbr, heq⟩ := Option.map_eq_some_iff.1 h
    cases heq
    rw [ih hbr, List.cons_append]

/-- A program whose last instruction pushes a result has it on top when it is done. -/
theorem ends_perform_append (program : Program) {last : Instruction} (hlast : last.givesResult)
    (stack : Stack) :
    Ends (perform runner depth (program ++ [last]) stack)
      fun after => ∃ rest, IsPushed rest after := by
  induction hlength : program.length using Nat.strongRecOn generalizing program stack with
  | ind length ih =>
    cases program with
    | nil =>
      rw [List.nil_append]
      cases last with
      | operator op =>
        rw [perform_operator]
        have hop : op ≠ .comma := by simpa [Instruction.givesResult] using hlast
        refine (ends_operator hop stack).bind fun after hafter => ?_
        rw [perform_nil]
        exact ends_pure hafter
      | call name target =>
        rw [perform_call]
        refine (ends_call name target stack).bind fun after hafter => ?_
        rw [perform_nil]
        exact ends_pure hafter
      | name | value | openCall | startBlock | endBlock => cases hlast
    | cons instruction more =>
      have hmore := ih more.length (hlength ▸ Nat.lt_succ_self _) more
      rw [List.cons_append]
      cases instruction with
      | name name =>
        rw [perform_name]
        exact hmore _ rfl
      | value v =>
        rw [perform_value]
        exact hmore _ rfl
      | openCall =>
        rw [perform_openCall]
        exact hmore _ rfl
      | startBlock =>
        cases hsplit : splitBlock 0 (more ++ [last]) with
        | none =>
          rw [perform_unterminated _ _ _ hsplit]
          exact fun _ _ _ hdone => nomatch hdone
        | some parts =>
          obtain ⟨body, rest⟩ := parts
          rw [perform_startBlock _ _ _ hsplit]
          have hparts := eq_append_of_splitBlock hsplit
          -- The block does not end with the last instruction, so that one is left behind it.
          rcases List.eq_nil_or_concat rest with rfl | ⟨front, back, rfl⟩
          · obtain ⟨-, heq⟩ := List.append_inj' hparts rfl
            cases heq
            cases hlast
          · rw [List.concat_eq_append, ← List.cons_append, ← List.append_assoc] at hparts
            obtain ⟨rfl, heq⟩ := List.append_inj' hparts rfl
            cases heq
            rw [List.concat_eq_append]
            refine ih front.length ?_ front _ rfl
            rw [← hlength]
            simp only [List.length_cons, List.length_append]
            omega
      | endBlock =>
        rw [perform_endBlock]
        exact fun _ _ _ hdone => nomatch hdone
      | call name target =>
        rw [perform_call]
        exact ends_after fun after => hmore after rfl
      | operator op =>
        rw [perform_operator]
        exact ends_after fun after => hmore after rfl

/-- A tree that leaves one entry leaves a result, unless it is a variable. -/
theorem variable?_or_ends {registry : Registry} {tree : Tree} {code : Program}
    (h : Emits registry tree code) (hwidth : tree.width = 1) :
    (∃ name, tree.variable? = some name ∧ code = [.name name]) ∨
      tree.variable? = none ∧
        Ends (perform runner depth code []) fun after => ∃ rest, IsPushed rest after := by
  have hresult (program : Program) {last : Instruction} (hlast : last.givesResult) :
      Ends (perform runner depth (program ++ [last]) []) fun after => ∃ rest, IsPushed rest after :=
    ends_perform_append program hlast []
  have hvalue (v : Value) :
      Ends (perform runner depth [.value v] []) fun after => ∃ rest, IsPushed rest after := by
    rw [perform_value, perform_nil]
    exact ends_pure ⟨[], .value v, rfl, rfl⟩
  induction h with
  | @leaf token code h =>
    obtain ⟨kind, position⟩ := token
    cases kind with
    | name name =>
      cases h
      exact .inl ⟨name, rfl, rfl⟩
    | integer | real | string =>
      cases h
      exact .inr ⟨rfl, hvalue _⟩
    | operator op => cases h
  | @list _ left right =>
    have hleft := left.one_le_width
    have hright := right.one_le_width
    rw [Tree.width] at hwidth
    omega
  | assign => exact .inr ⟨rfl, hresult _ rfl⟩
  | @compound _ _ _ name _ base value =>
    have hcode := hresult ([.name name, .name name] ++ value ++ [.operator base])
      (rfl : (Instruction.operator .assign).givesResult = true)
    exact .inr ⟨rfl, by simpa using hcode⟩
  | choice => exact .inr ⟨rfl, hresult _ rfl⟩
  | @stepFirst _ _ name =>
    exact .inr ⟨rfl, hresult [.name name, .name name, .value (.integer 1), .operator _] rfl⟩
  | @prefixed _ _ o _ _ _ hone =>
    refine .inr ⟨rfl, hresult _ ?_⟩
    generalize Program.prefixed o = op at hone
    cases op <;> first | rfl | cases hone
  | @stepAfter _ _ name o =>
    have hback : (Instruction.operator (if o = .increment then .minus else .plus)).givesResult := by
      split <;> rfl
    have hcode := hresult (step name o ++ [.value (.integer 1)]) hback
    exact .inr ⟨rfl, by simpa [undo] using hcode⟩
  | emptyCall | call => exact .inr ⟨rfl, hresult _ rfl⟩
  | group _ ih =>
    rw [Tree.width] at hwidth
    exact ih hwidth
  | @operation rule _ _ _ o _ _ hrule _ htwo =>
    refine .inr ⟨?_, hresult _ ?_⟩
    · cases rule <;> first | rfl | cases hrule
    · cases o <;> first | rfl | cases htwo

end Machine

end Reckoner
