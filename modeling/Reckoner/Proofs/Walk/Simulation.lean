import Reckoner.Proofs.Machine.Agree
import Reckoner.Proofs.Walk.Basic

/-!
Code that does on the stack what walking does with operands. The operands that were walked and not
consumed yet are on the stack, and code composes as walking does.
-/

namespace Reckoner.Walk

open Machine Program

namespace Operand

def slot : Operand → Slot
  | name n => .name n
  | value v => .value v
  | failed => .failed

def push (operand : Operand) (stack : Stack) : Stack := operand.slot :: stack

end Operand

def pushAll (operands : List Operand) (stack : Stack) : Stack :=
  (operands.map Operand.slot).reverse ++ stack

theorem pushAll_cons (operand : Operand) (others : List Operand) (stack : Stack) :
    pushAll (operand :: others) stack = pushAll others (operand.push stack) := by
  simp [pushAll, Operand.push]

theorem pushAll_append (operands others : List Operand) (stack : Stack) :
    pushAll (operands ++ others) stack = pushAll others (pushAll operands stack) := by
  simp [pushAll]

/-! The machine's computations on entries. -/

theorem resolve_slot (operand : Operand) : resolve operand.slot = operand.read := by
  cases operand <;> rfl

theorem popValue_push (operand : Operand) (stack : Stack) :
    popValue (operand.push stack) = do
      let v ← operand.read
      return (v, stack) := by
  rw [Operand.push, popValue, resolve_slot]

theorem slotOf_eq (result : Except Error Value) :
    slotOf result = do
      let operand ← ofResult result
      return operand.slot := by
  cases result <;> rfl

theorem unary_push (op : Operator) (operand : Operand) (stack : Stack) :
    Machine.unary op (operand.push stack) = do
      let result ← unary op operand
      return result.push stack := by
  rw [Machine.unary, unary, popValue_push, bind_assoc, bind_assoc]
  refine bind_congr fun v => ?_
  rw [pure_bind]
  cases v with
  | none => rfl
  | some v => simp only [slotOf_eq, bind_assoc, pure_bind, Operand.push]

theorem binary_push (op : Operator) (left right : Operand) (stack : Stack) :
    Machine.binary op (right.push (left.push stack)) = do
      let result ← binary op left right
      return result.push stack := by
  rw [Machine.binary, binary, popValue_push, bind_assoc, bind_assoc]
  refine bind_congr fun r => ?_
  rw [pure_bind]
  dsimp only
  rw [popValue_push, bind_assoc, bind_assoc]
  refine bind_congr fun l => ?_
  rw [pure_bind]
  cases l with
  | none => rfl
  | some l =>
    cases r with
    | none => rfl
    | some r => simp only [slotOf_eq, bind_assoc, pure_bind, Operand.push]

theorem writeName_eq (name : String) (v : Value) :
    writeName name v = do
      let operand ← write name v
      return operand.slot := by
  rw [writeName, write, bind_assoc]
  refine bind_congr fun env => ?_
  cases env.scope.set name v with
  | error e => rfl
  | ok scope =>
    rcases env.scope.find? name with _ | ⟨_, _ | _⟩ <;> rfl

theorem assign_push (name : String) (operand : Operand) (stack : Stack) :
    Machine.assign (operand.push (.name name :: stack)) = do
      let result ← assign name operand
      return result.push stack := by
  rw [Machine.assign, assign, popValue_push, bind_assoc, bind_assoc]
  refine bind_congr fun v => ?_
  rw [pure_bind]
  cases v with
  | none => rfl
  | some v => simp only [writeName_eq, bind_assoc, pure_bind, Operand.push]

theorem readArguments_map_slot (f : Function) (index : Nat) (operands : List Operand) :
    readArguments f index (operands.map Operand.slot) = arguments f index operands := by
  induction operands generalizing index with
  | nil => rfl
  | cons operand more ih =>
    rw [List.map_cons, readArguments, arguments, resolve_slot]
    refine bind_congr fun v => ?_
    cases v with
    | none => simp only [ih]
    | some v =>
      dsimp only
      cases convertArgument v (f.signature.kindsAt index) <;> simp only [ih]

theorem collect_map_slot (operands : List Operand) :
    Machine.collect (operands.map Operand.slot) = collect operands := by
  induction operands with
  | nil => rfl
  | cons operand more ih =>
    rw [List.map_cons, Machine.collect, collect, resolve_slot]
    refine bind_congr fun v => ?_
    cases v <;> simp only [ih]

theorem splitCall_pushAll (operands : List Operand) (stack : Stack) :
    splitCall [] (pushAll operands (.openCall :: stack)) =
      some (operands.map Operand.slot, stack) := by
  have hslots : Slot.openCall ∉ (operands.map Operand.slot).reverse := by
    intro hmem
    obtain ⟨operand, -, hslot⟩ := List.mem_map.1 (List.mem_reverse.1 hmem)
    cases operand <;> cases hslot
  rw [pushAll, splitCall_append hslots, List.reverse_reverse, List.append_nil]

theorem perform_values (runner : Runner) (depth count : Nat) (v : Value) (more : Program)
    (stack : Stack) :
    perform runner depth (List.replicate count (.value v) ++ more) stack =
      perform runner depth more (pushAll (List.replicate count (.value v)) stack) := by
  induction count generalizing stack with
  | zero => rfl
  | succ count ih =>
    rw [List.replicate_succ, List.cons_append, perform_value, ih, List.replicate_succ, pushAll_cons]
    rfl

/-- Where the code starts on what `enter` makes of a stack, it leads to what `leave` makes of that
stack and of the result of the computation, in states that are alike. -/
structure Simulates {α : Type} (base : Registry) (runner : Runner) (depth : Nat)
    (enter : Stack → Stack) (code : Program) (m : Machine α) (leave : α → Stack → Stack) :
    Prop where
  agree : ∀ {β : Type} {R : Stack → β → Prop} (more : Program) (stack : Stack) (k : α → Machine β),
    (∀ a, Agree base R (perform runner depth more (leave a stack)) (k a)) →
      Agree base R (perform runner depth (code ++ more) (enter stack)) (m >>= k)

namespace Simulates

variable {α β : Type} {base : Registry} {runner : Runner} {depth : Nat} {enter : Stack → Stack}
  {code code' : Program} {m : Machine α} {f : α → Machine β} {leave : α → Stack → Stack}
  {leave' : β → Stack → Stack}

theorem pure {a : α}
    (h : ∀ more stack, perform runner depth (code ++ more) (enter stack) =
      perform runner depth more (leave a stack)) :
    Simulates base runner depth enter code (Pure.pure a) leave := by
  refine ⟨fun more stack k hk => ?_⟩
  rw [h, pure_bind]
  exact hk a

theorem bind (h : Simulates base runner depth enter code m leave)
    (h' : ∀ a, Simulates base runner depth (leave a) code' (f a) leave') :
    Simulates base runner depth enter (code ++ code') (m >>= f) leave' := by
  refine ⟨fun more stack k hk => ?_⟩
  rw [List.append_assoc, bind_assoc]
  exact h.agree _ _ _ fun a => (h' a).agree _ _ _ hk

/-- The result may be taken for another one that stands for the same entries. -/
theorem map (h : Simulates base runner depth enter code m leave) {g : α → β}
    (hg : ∀ a stack, leave' (g a) stack = leave a stack) :
    Simulates base runner depth enter code (do let a ← m; return g a) leave' := by
  refine ⟨fun more stack k hk => ?_⟩
  rw [bind_assoc]
  refine h.agree _ _ _ fun a => ?_
  rw [pure_bind, ← hg]
  exact hk (g a)

/-- Code that takes a stack as it is may run on top of anything. -/
theorem above (h : Simulates base runner depth id code m leave) (enter : Stack → Stack) :
    Simulates base runner depth enter code m fun a stack => leave a (enter stack) :=
  ⟨fun more stack k hk => h.agree more (enter stack) k hk⟩

/-- One instruction whose effect is known. -/
theorem operator {op : Operator}
    (h : ∀ stack, Agree base (fun after a => after = leave a stack)
      (Machine.operator runner depth op (enter stack)) m) :
    Simulates base runner depth enter [.operator op] m leave := by
  refine ⟨fun more stack k hk => ?_⟩
  rw [List.singleton_append, perform_operator]
  refine (h stack).bind fun after a hafter => ?_
  rw [hafter]
  exact hk a

end Simulates

/-- A computation that agrees with itself does so whatever is made of its result. -/
theorem agree_of_eq_map {α β : Type} {base : Registry} {m : Machine α} {m' : Machine β} {g : β → α}
    (h : Agree base Eq m m) (hm : m = do let b ← m'; return g b) :
    Agree base (fun a b => a = g b) m m' := by
  intro s s' hs
  have hrel := h s s' hs
  nth_rewrite 2 [hm] at hrel
  rw [bind_eq] at hrel
  generalize m s = o at hrel ⊢
  generalize m' s' = o' at hrel ⊢
  cases o' with
  | done b t =>
    cases hrel with
    | done hR ht => exact .done hR ht
  | stopped error t =>
    cases hrel with
    | stopped _ ht => exact .stopped error ht
  | outOfFuel =>
    cases hrel with
    | outOfFuel => exact .outOfFuel

section Operators

variable {base : Registry} {runner : Runner} {depth : Nat}

theorem simulates_name (name : String) :
    Simulates base runner depth id [.name name] (pure (.name name)) Operand.push :=
  .pure fun more stack => perform_name runner depth stack name more

theorem simulates_value (v : Value) :
    Simulates base runner depth id [.value v] (pure (.value v)) Operand.push :=
  .pure fun more stack => perform_value runner depth stack v more

theorem simulates_unary {op : Operator} (h : op.takesOne) (operand : Operand) :
    Simulates base runner depth operand.push [.operator op] (unary op operand) Operand.push := by
  refine .operator fun stack => ?_
  rw [operator_of_takesOne h]
  exact agree_of_eq_map (agree_unary op _) (unary_push op operand stack)

theorem simulates_binary {op : Operator} (h : op.takesTwo) (left right : Operand) :
    Simulates base runner depth (fun stack => right.push (left.push stack)) [.operator op]
      (binary op left right) Operand.push := by
  refine .operator fun stack => ?_
  rw [operator_of_takesTwo h]
  exact agree_of_eq_map (agree_binary op _) (binary_push op left right stack)

theorem simulates_assign (name : String) (operand : Operand) :
    Simulates base runner depth (fun stack => operand.push (.name name :: stack))
      [.operator .assign] (assign name operand) Operand.push := by
  refine .operator fun stack => ?_
  exact agree_of_eq_map (agree_assign _) (assign_push name operand stack)

variable {left right value : Program} {l r m : Machine Operand}

theorem simulates_prefixed {op : Operator} (h : op.takesOne)
    (hvalue : Simulates base runner depth id value m Operand.push) :
    Simulates base runner depth id (value ++ [Instruction.operator op]) (m >>= unary op)
      Operand.push :=
  hvalue.bind fun operand => simulates_unary h operand

theorem simulates_operation {op : Operator} (h : op.takesTwo)
    (hleft : Simulates base runner depth id left l Operand.push)
    (hright : Simulates base runner depth id right r Operand.push) :
    Simulates base runner depth id (left ++ right ++ [Instruction.operator op])
      (do let a ← l; let b ← r; binary op a b) Operand.push := by
  rw [List.append_assoc]
  refine hleft.bind fun a => ?_
  refine (hright.above a.push).bind fun b => ?_
  exact simulates_binary h a b

theorem simulates_assignment (name : String)
    (hvalue : Simulates base runner depth id value m Operand.push) :
    Simulates base runner depth id
      ([Instruction.name name] ++ value ++ [Instruction.operator .assign]) (m >>= assign name)
      Operand.push := by
  have htarget : Simulates base runner depth id [.name name] (pure ())
      fun _ stack => .name name :: stack :=
    .pure fun more stack => perform_name runner depth stack name more
  have hassign := htarget.bind fun _ =>
    (hvalue.above (.name name :: ·)).bind fun operand => simulates_assign name operand
  rw [List.append_assoc]
  exact hassign

theorem simulates_step (name : String) (op : Operator) :
    Simulates base runner depth id (Program.step name op) (step name op) Operand.push := by
  have htwo : (if op = .increment then Operator.plus else .minus).takesTwo := by
    split <;> rfl
  exact simulates_assignment name
    (simulates_operation htwo (simulates_name name) (simulates_value (.integer 1)))

variable (base runner depth)

/-- A block goes onto the stack as it is. -/
theorem simulates_block {body : Program} (h : Balanced body) :
    Simulates base runner depth id ([Instruction.startBlock] ++ body ++ [Instruction.endBlock])
      (pure ()) fun _ stack => .block body :: stack := by
  refine .pure fun more stack => ?_
  have hsplit := h.splitBlock_append more
  rw [List.append_assoc, List.append_assoc, List.singleton_append, List.singleton_append]
  exact perform_startBlock _ _ _ hsplit

theorem simulates_openCall :
    Simulates base runner depth id [.openCall] (pure ()) fun _ stack => .openCall :: stack :=
  .pure fun more stack => perform_openCall runner depth stack more

end Operators

end Reckoner.Walk
