import Reckoner.Proofs.Machine.Shape

/-!
What every configuration has that emitted code can go through. A property that is handed back from
the configurations behind an instruction to the one before it is handed back through the code of a
whole expression, brackets with comma lists included: wherever the code starts, it leaves as many
entries that can be read as the tree is wide and touches nothing below them, or the run is stopped.
-/

namespace Reckoner

/-- How many entries the code of a tree leaves. Brackets around a comma list leave one for each of
its expressions, of which an operator next to them takes the nearest. -/
def Tree.width : Tree → Nat
  | leaf _ => 1
  | node .list [left, _, right] => left.width + right.width
  | node .assignment [_, _, value] => value.width
  | node .conditional _ => 1
  | node .unary [_, operand] => operand.width
  | node .suffix _ => 1
  | node .group [_, inner, _] => inner.width
  | node _ [left, _, right] => left.width + right.width - 1
  | _ => 1

theorem Tree.width_operation {rule : Rule} (h : Program.isInfix rule) (left op right : Tree) :
    (node rule [left, op, right]).width = left.width + right.width - 1 := by
  cases rule <;> first | exact absurd h (by decide) | rw [width] <;> simp

/-- Every tree leaves something. -/
theorem Tree.one_le_width (tree : Tree) : 1 ≤ tree.width := by
  fun_induction width tree <;> omega

namespace Machine

open Program

/-- How a property of what is left to perform and of the stack comes back through the instructions
that are emitted for a registry. -/
structure IsHandedBack (registry : Registry) (C : Program → Stack → Prop) : Prop where
  name {name : String} {more : Program} {stack : Stack} (h : C more (.name name :: stack)) :
    C (.name name :: more) stack
  value {v : Value} {more : Program} {stack : Stack} (h : C more (.value v :: stack)) :
    C (.value v :: more) stack
  openCall {more : Program} {stack : Stack} (h : C more (.openCall :: stack)) :
    C (.openCall :: more) stack
  startBlock {more body rest : Program} {stack : Stack}
    (hsplit : splitBlock 0 more = some (body, rest)) (h : C rest (.block body :: stack)) :
    C (.startBlock :: more) stack
  comma {more : Program} {stack : Stack} (h : C more stack) : C (.operator .comma :: more) stack
  takesOne {op : Operator} (hone : op.takesOne) {operand : Slot} {more : Program} {below : Stack}
    (h : ∀ stack, IsPushed below stack → C more stack) :
    C (.operator op :: more) (operand :: below)
  takesTwo {op : Operator} (htwo : op.takesTwo) {right left : Slot} {more : Program}
    {below : Stack} (h : ∀ stack, IsPushed below stack → C more stack) :
    C (.operator op :: more) (right :: left :: below)
  assign {value target : Slot} {more : Program} {below : Stack}
    (h : ∀ stack, IsPushed below stack → C more stack) :
    C (.operator .assign :: more) (value :: target :: below)
  choice {first second : Tree} {a b : Program} (hfirst : Emits registry first a)
    (hsecond : Emits registry second b) {condition : Slot} {more : Program} {below : Stack}
    (h : ∀ stack, IsPushed below stack → C more stack) :
    C (.operator .question :: more) (condition :: .block b :: .block a :: below)
  /-- A comma list in brackets as a condition leaves more entries than the conditional takes. -/
  stuck {condition other : Slot} (hother : other.shape.isReadable) {more : Program}
    {below : Stack} : C (.operator .question :: more) (condition :: other :: below)
  call {name : String} {count : Nat} {f : Function} (hf : choose registry name count = .ok f)
    {slots : List Slot} (hread : ∀ slot ∈ slots, slot.shape.isReadable)
    (harity : f.arity ≤ slots.length) {more : Program} {below : Stack}
    (h : ∀ stack, IsPushed below stack → C more stack) :
    C (.call name (some f.id) :: more) (slots ++ .openCall :: below)

def Carries (C : Program → Stack → Prop) (count : Nat) (code : Program) : Prop :=
  ∀ more below,
    (∀ slots : List Slot, slots.length = count → (∀ slot ∈ slots, slot.shape.isReadable) →
      C more (slots ++ below)) →
    C (code ++ more) below

variable {registry : Registry} {C : Program → Stack → Prop} {code : Program}

theorem Carries.nil : Carries C 0 [] := fun _ _ h => h [] rfl nofun

theorem Carries.append {m n : Nat} {code' : Program} (h : Carries C m code)
    (h' : Carries C n code') : Carries C (m + n) (code ++ code') := by
  intro more below hmore
  rw [List.append_assoc]
  refine h _ below fun slots hslots hread => ?_
  refine h' more _ fun slots' hslots' hread' => ?_
  rw [← List.append_assoc]
  refine hmore _ (by rw [List.length_append]; omega) fun slot hslot => ?_
  exact (List.mem_append.1 hslot).elim (hread' slot) (hread slot)

/-- What pushes an entry onto those that are left. -/
theorem isPushed_append {left : List Slot} {below stack : Stack}
    (hleft : ∀ slot ∈ left, slot.shape.isReadable) (h : IsPushed (left ++ below) stack) :
    ∃ slots : List Slot, slots.length = left.length + 1 ∧
      (∀ slot ∈ slots, slot.shape.isReadable) ∧ stack = slots ++ below := by
  obtain ⟨slot, hslot, rfl⟩ := h
  refine ⟨slot :: left, rfl, List.forall_mem_cons.2 ⟨?_, hleft⟩, rfl⟩
  rw [hslot]
  rfl

section IsHandedBack

variable (hC : IsHandedBack registry C)

include hC

theorem carries_name (name : String) : Carries C 1 [.name name] :=
  fun _ _ h => hC.name (h [.name name] rfl (List.forall_mem_singleton.2 rfl))

theorem carries_value (v : Value) : Carries C 1 [.value v] :=
  fun _ _ h => hC.value (h [.value v] rfl (List.forall_mem_singleton.2 rfl))

theorem carries_takesOne {op : Operator} (hone : op.takesOne) {count : Nat} (hcount : 1 ≤ count)
    (hcode : Carries C count code) : Carries C count (code ++ [.operator op]) := by
  intro more below hmore
  rw [List.append_assoc]
  refine hcode _ below fun slots hslots hread => ?_
  match slots with
  | [] => exact absurd hslots (by simp; omega)
  | operand :: left =>
    refine hC.takesOne hone fun stack hstack => ?_
    obtain ⟨slots', hlength, hread', rfl⟩ := isPushed_append (List.forall_mem_cons.1 hread).2 hstack
    exact hmore slots' (hlength.trans hslots) hread'

theorem carries_takesTwo {op : Operator} (htwo : op.takesTwo) {count : Nat} (hcount : 1 ≤ count)
    (hcode : Carries C (count + 1) code) : Carries C count (code ++ [.operator op]) := by
  intro more below hmore
  rw [List.append_assoc]
  refine hcode _ below fun slots hslots hread => ?_
  match slots with
  | [] => exact absurd hslots (by simp)
  | [_] => exact absurd hslots (by simp; omega)
  | right :: left :: rest =>
    refine hC.takesTwo htwo fun stack hstack => ?_
    have hrest : ∀ slot ∈ rest, slot.shape.isReadable :=
      fun slot hslot => hread slot (by simp [hslot])
    obtain ⟨slots', hlength, hread', rfl⟩ := isPushed_append hrest hstack
    exact hmore slots' (hlength.trans (Nat.succ.inj hslots)) hread'

theorem carries_assign {count : Nat} (hcount : 1 ≤ count) (hcode : Carries C (count + 1) code) :
    Carries C count (code ++ [.operator .assign]) := by
  intro more below hmore
  rw [List.append_assoc]
  refine hcode _ below fun slots hslots hread => ?_
  match slots with
  | [] => exact absurd hslots (by simp)
  | [_] => exact absurd hslots (by simp; omega)
  | value :: target :: rest =>
    refine hC.assign fun stack hstack => ?_
    have hrest : ∀ slot ∈ rest, slot.shape.isReadable :=
      fun slot hslot => hread slot (by simp [hslot])
    obtain ⟨slots', hlength, hread', rfl⟩ := isPushed_append hrest hstack
    exact hmore slots' (hlength.trans (Nat.succ.inj hslots)) hread'

/-- Both branches are on the stack when the condition is computed. -/
theorem carries_choice {first second : Tree} {a b c : Program} (hfirst : Emits registry first a)
    (hsecond : Emits registry second b) {count : Nat} (hcount : 1 ≤ count)
    (hc : Carries C count c) :
    Carries C 1 ([Instruction.startBlock] ++ a ++ [Instruction.endBlock, .startBlock] ++ b ++
      [Instruction.endBlock] ++ c ++ [Instruction.operator .question]) := by
  intro more below hmore
  have ha := (balanced_of_emits hfirst).splitBlock_append
    (.startBlock :: (b ++ .endBlock :: (c ++ .operator .question :: more)))
  have hb := (balanced_of_emits hsecond).splitBlock_append (c ++ .operator .question :: more)
  simp only [List.append_assoc, List.cons_append, List.nil_append]
  refine hC.startBlock ha (hC.startBlock hb (hc _ _ fun slots hslots hread => ?_))
  match slots with
  | [] => exact absurd hslots (by simp; omega)
  | [condition] =>
    refine hC.choice hfirst hsecond fun stack hstack => ?_
    obtain ⟨slots', hlength, hread', rfl⟩ := @isPushed_append [] _ _ nofun hstack
    exact hmore slots' hlength hread'
  | condition :: other :: rest => exact hC.stuck (hread other (by simp))

theorem carries_step (name : String) (op : Operator) : Carries C 1 (step name op) := by
  have hread : Carries C 1 ([.name name, .value (.integer 1)] ++
      [Instruction.operator (if op = .increment then .plus else .minus)]) := by
    refine carries_takesTwo hC ?_ le_rfl ((carries_name hC name).append (carries_value hC _))
    split <;> rfl
  exact carries_assign hC le_rfl ((carries_name hC name).append hread)

theorem carries_stepBack (name : String) (op : Operator) :
    Carries C 1 (step name op ++ undo op) := by
  have htwo : (if op = .increment then Operator.minus else .plus).takesTwo := by split <;> rfl
  have hcode := carries_takesTwo hC htwo le_rfl
    ((carries_step hC name op).append (carries_value hC (.integer 1)))
  rwa [List.append_assoc] at hcode

omit hC in
/-- The arguments leave at least one entry each. -/
theorem carries_flatMap {args : List (Tree × Program)}
    (hargs : ∀ arg ∈ args, Emits registry arg.1 arg.2)
    (h : ∀ arg ∈ args, Carries C arg.1.width arg.2) :
    ∃ count, args.length ≤ count ∧ Carries C count (args.flatMap Prod.snd) := by
  induction args with
  | nil => exact ⟨0, le_rfl, .nil⟩
  | cons arg args ih =>
    have hpos := arg.1.one_le_width
    obtain ⟨count, hcount, hmore⟩ :=
      ih (fun a ha => hargs a (.tail _ ha)) fun a ha => h a (.tail _ ha)
    exact ⟨arg.1.width + count, by rw [List.length_cons]; omega, (h arg (.head _)).append hmore⟩

theorem carries_replicate (count : Nat) (v : Value) :
    Carries C count (List.replicate count (.value v)) := by
  induction count with
  | zero => exact .nil
  | succ count ih =>
    rw [List.replicate_succ, Nat.add_comm]
    exact (carries_value hC v).append ih

/-- With the values for arguments that were left out, there are as many as the function has. -/
theorem carries_call {name : String} {given count : Nat} {f : Function} {args added : Program}
    (hf : choose registry name given = .ok f) (hcount : given ≤ count)
    (hargs : Carries C count args) (hadded : omitted name f given = .ok added) :
    Carries C 1 ([Instruction.openCall] ++ args ++ added ++ [.call name (some f.id)]) := by
  have hall : Carries C (count + (f.arity - given)) (args ++ added) := by
    rw [eq_replicate_of_omitted hadded]
    exact hargs.append (carries_replicate hC _ _)
  intro more below hmore
  have hopened : C (args ++ added ++ .call name (some f.id) :: more) (.openCall :: below) := by
    refine hall _ _ fun slots hslots hread => hC.call hf hread (by omega) fun stack hstack => ?_
    obtain ⟨slots', hlength, hread', rfl⟩ := @isPushed_append [] _ _ nofun hstack
    exact hmore slots' hlength hread'
  simpa using hC.openCall hopened

/-- The code of every tree leaves as many entries as the tree is wide. -/
theorem carries_of_emits {tree : Tree} (h : Emits registry tree code) :
    Carries C tree.width code := by
  induction h with
  | @leaf token code h =>
    rw [Tree.width]
    unfold ofToken at h
    split at h <;> cases h
    · exact carries_name hC _
    all_goals exact carries_value hC _
  | list _ _ _ ihl ihr =>
    rw [Tree.width]
    intro more below hmore
    rw [List.append_assoc]
    exact (ihl.append ihr) _ below fun slots hslots hread => hC.comma (hmore slots hslots hread)
  | assign _ _ hvalue _ ih =>
    rw [Tree.width]
    refine carries_assign hC (Tree.one_le_width _) ?_
    rw [Nat.add_comm]
    exact (carries_name hC _).append ih
  | @compound _ _ right name _ base value _ _ hbase hvalue _ ih =>
    rw [Tree.width]
    have htwo := Operator.takesTwo_of_compoundBase hbase
    have hpos := right.one_le_width
    have hread : Carries C (right.width + 1) ([.name name] ++ value) := by
      rw [Nat.add_comm]
      exact (carries_name hC name).append ih
    have hassign : Carries C right.width
        ([.name name] ++ ([.name name] ++ value ++ [.operator base]) ++ [.operator .assign]) := by
      refine carries_assign hC hpos ?_
      rw [Nat.add_comm]
      exact (carries_name hC name).append (carries_takesTwo hC htwo hpos hread)
    simpa using hassign
  | choice hfirst hsecond hcondition _ _ _ _ ihc =>
    rw [Tree.width]
    exact carries_choice hC hfirst hsecond (Tree.one_le_width _) ihc
  | stepFirst =>
    rw [Tree.width, Tree.width]
    exact carries_step hC _ _
  | prefixed _ _ hone hvalue _ ih =>
    rw [Tree.width]
    exact carries_takesOne hC hone (Tree.one_le_width _) ih
  | stepAfter =>
    rw [Tree.width]
    exact carries_stepBack hC _ _
  | emptyCall _ hf hadded =>
    rw [Tree.width]
    exact carries_call hC hf le_rfl .nil hadded
  | call _ hf hargs _ hadded ih =>
    rw [Tree.width]
    obtain ⟨count, hcount, hcarries⟩ := carries_flatMap hargs ih
    exact carries_call hC hf hcount hcarries hadded
  | group _ ih =>
    rw [Tree.width]
    exact ih
  | @operation _ _ left right _ _ _ hrule _ htwo hleft hright _ _ ihl ihr =>
    rw [Tree.width_operation hrule]
    have hpos := left.one_le_width
    have hpos' := right.one_le_width
    refine carries_takesTwo hC htwo (by omega) ?_
    rw [Nat.sub_add_cancel (by omega)]
    exact ihl.append ihr

end IsHandedBack

end Machine

end Reckoner
