import Reckoner.Proofs.Machine.Basic

/-!
The shapes of stacks. What kind of entry stands where on the stack does not depend on values, so a
program can be checked against the shapes it starts with. A step keeps the check going and leaves
the entries below those that it was checked against alone.
-/

namespace Reckoner.Machine

inductive Shape where
  /-- A variable that was not read yet. -/
  | name
  /-- A value, or the failure to give one. -/
  | operand
  | block
  | openCall
deriving DecidableEq, Repr

def Shape.isReadable : Shape → Bool
  | name | operand => true
  | block | openCall => false

def Slot.shape : Slot → Shape
  | .name _ => .name
  | .value _ | .failed => .operand
  | .block _ => .block
  | .openCall => .openCall

def belowCall : List Shape → Option (List Shape)
  | [] => none
  | .openCall :: rest => some rest
  | shape :: rest => if shape.isReadable then belowCall rest else none

def belowReadable : Nat → List Shape → Option (List Shape)
  | 0, shapes => some shapes
  | _ + 1, [] => none
  | count + 1, shape :: rest => if shape.isReadable then belowReadable count rest else none

def afterOperator (op : Operator) (shapes : List Shape) : Option (List Shape) :=
  match op with
  | .comma => some shapes
  | .assign =>
    match belowReadable 1 shapes with
    | some (.name :: rest) => some (.operand :: rest)
    | _ => none
  | .question =>
    match belowReadable 1 shapes with
    | some (.block :: .block :: rest) => some (.operand :: rest)
    | _ => none
  | op =>
    if op.takesOne then (belowReadable 1 shapes).map (.operand :: ·)
    else if op.takesTwo then (belowReadable 2 shapes).map (.operand :: ·)
    else none

theorem afterOperator_of_takesOne {op : Operator} (h : op.takesOne) (shapes : List Shape) :
    afterOperator op shapes = (belowReadable 1 shapes).map (.operand :: ·) := by
  cases op <;> first | rfl | cases h

theorem afterOperator_of_takesTwo {op : Operator} (h : op.takesTwo) (shapes : List Shape) :
    afterOperator op shapes = (belowReadable 2 shapes).map (.operand :: ·) := by
  cases op <;> first | rfl | cases h

def effect (program : Program) (shapes : List Shape) : Option (List Shape) :=
  match program with
  | [] => some shapes
  | .name _ :: more => effect more (.name :: shapes)
  | .value _ :: more => effect more (.operand :: shapes)
  | .openCall :: more => effect more (.openCall :: shapes)
  | .startBlock :: more =>
    match h : splitBlock 0 more with
    | none => none
    | some (_, rest) =>
      have := length_splitBlock h
      effect rest (.block :: shapes)
  | .endBlock :: _ => none
  | .call _ _ :: more => (belowCall shapes).bind fun rest => effect more (.operand :: rest)
  | .operator op :: more => (afterOperator op shapes).bind fun after => effect more after
termination_by program.length

/-! No computation of an instruction stops the run when it finds what it needs. -/

variable {out : Prop}

theorem yields_environment : Yields out environment fun _ => True := fun _ => trivial

theorem yields_setEnvironment (env : Environment) : Yields out (setEnvironment env) fun _ => True :=
  fun _ => trivial

theorem yields_note (event : Event) : Yields out (note event) fun _ => True := fun _ => trivial

theorem yields_report (error : Error) : Yields out (report error) fun _ => True := fun _ => trivial

theorem yields_fail (error : Error) : Yields out (fail error) fun slot => slot.shape = .operand :=
  (yields_report error).bind fun _ _ => .pure rfl

theorem yields_slotOf (result : Except Error Value) :
    Yields out (slotOf result) fun slot => slot.shape = .operand := by
  cases result with
  | ok v => exact .pure rfl
  | error e => exact yields_fail e

theorem yields_readName (name : String) : Yields out (readName name) fun _ => True := by
  refine yields_environment.bind fun env _ => ?_
  split
  · exact (yields_report _).bind fun _ _ => .pure trivial
  · split
    · exact (yields_note _).bind fun _ _ => .pure trivial
    · exact .bind (.pure (P := fun _ => True) trivial) fun _ _ => .pure trivial

theorem yields_resolve (slot : Slot) : Yields out (resolve slot) fun _ => True := by
  cases slot with
  | name name => exact yields_readName name
  | value v => exact .pure trivial
  | failed => exact .pure trivial
  | block body => exact (yields_report _).bind fun _ _ => .pure trivial
  | openCall => exact (yields_report _).bind fun _ _ => .pure trivial

theorem yields_popValue (slot : Slot) (rest : Stack) :
    Yields out (popValue (slot :: rest)) fun popped => popped.2 = rest :=
  (yields_resolve slot).bind fun _ _ => .pure rfl

def IsPushed (rest : Stack) (stack : Stack) : Prop :=
  ∃ slot : Slot, slot.shape = .operand ∧ stack = slot :: rest

theorem yields_push {m : Machine Slot} (rest : Stack)
    (h : Yields out m fun slot => slot.shape = .operand) :
    Yields out (do return (← m) :: rest) (IsPushed rest) :=
  h.bind fun slot hslot => .pure ⟨slot, hslot, rfl⟩

theorem yields_unary (op : Operator) (slot : Slot) (rest : Stack) :
    Yields out (unary op (slot :: rest)) (IsPushed rest) := by
  refine (yields_popValue slot rest).bind ?_
  rintro ⟨v, _⟩ rfl
  cases v with
  | none => exact .pure ⟨.failed, rfl, rfl⟩
  | some v => exact yields_push _ (yields_slotOf _)

theorem yields_binary (op : Operator) (right left : Slot) (rest : Stack) :
    Yields out (binary op (right :: left :: rest)) (IsPushed rest) := by
  refine (yields_popValue right (left :: rest)).bind ?_
  rintro ⟨r, _⟩ rfl
  refine (yields_popValue left rest).bind ?_
  rintro ⟨l, _⟩ rfl
  cases l with
  | none => exact .pure ⟨.failed, rfl, rfl⟩
  | some l =>
    cases r with
    | none => exact .pure ⟨.failed, rfl, rfl⟩
    | some r => exact yields_push _ (yields_slotOf _)

theorem yields_writeName (name : String) (v : Value) :
    Yields out (writeName name v) fun slot => slot.shape = .operand := by
  refine yields_environment.bind fun env _ => ?_
  split
  · exact yields_fail _
  · next scope hscope =>
    have hset : Yields out (do setEnvironment { env with scope }; return Slot.value v)
        fun slot => slot.shape = .operand := (yields_setEnvironment _).bind fun _ _ => .pure rfl
    split
    · exact (yields_note _).bind fun _ _ => hset
    · exact hset

theorem yields_assign (value : Slot) (name : String) (rest : Stack) :
    Yields out (assign (value :: .name name :: rest)) (IsPushed rest) := by
  refine (yields_popValue value (.name name :: rest)).bind ?_
  rintro ⟨v, _⟩ rfl
  cases v with
  | none => exact .pure ⟨.failed, rfl, rfl⟩
  | some v => exact yields_push _ (yields_writeName name v)

section Runner

variable {runner : Runner} (hout : runner.LacksFuel → out) (depth : Nat)

include hout

theorem yields_nested (program : Program) :
    Yields out (nested runner depth program) fun _ => True := by
  intro s
  unfold nested
  cases h : runner depth program s.env s.journal with
  | none => exact hout ⟨depth, program, s.env, s.journal, h⟩
  | some result => trivial

theorem yields_conditional (condition : Slot) (second first : Program) (rest : Stack) :
    Yields out (conditional runner depth (condition :: .block second :: .block first :: rest))
      (IsPushed rest) := by
  refine (yields_popValue condition _).bind ?_
  rintro ⟨v, _⟩ rfl
  exact (yields_nested hout depth _).bind fun _ _ => yields_push _ (yields_slotOf _)

omit hout in
theorem yields_formulaProgram (f : Function) (text : String) :
    Yields out (formulaProgram f text) fun _ => True := by
  unfold formulaProgram
  split
  · exact .pure trivial
  · refine yields_environment.bind fun env _ => ?_
    split
    · exact .pure trivial
    · exact (yields_setEnvironment _).bind fun _ _ => .pure trivial

theorem yields_callFormula (f : Function) (parameters : List String) (text : String)
    (args : List Value) :
    Yields out (callFormula runner depth f parameters text args) fun _ => True := by
  refine yields_environment.bind fun env _ => ?_
  split
  · exact .pure trivial
  · refine (yields_formulaProgram f text).bind fun compiled _ => ?_
    cases compiled with
    | error e => exact .pure trivial
    | ok program =>
      exact yields_environment.bind fun _ _ => (yields_setEnvironment _).bind fun _ _ =>
        (yields_note _).bind fun _ _ => (yields_nested hout _ _).bind fun _ _ =>
        yields_environment.bind fun _ _ => (yields_setEnvironment _).bind fun _ _ =>
        (yields_note _).bind fun _ _ => .pure trivial

theorem yields_apply (f : Function) (args : List Value) :
    Yields out (apply runner depth f args) fun _ => True := by
  unfold apply
  split
  · exact .pure trivial
  · split
    · exact yields_callFormula hout depth f _ _ args
    · exact yields_environment.bind fun _ _ => (yields_note _).bind fun _ _ => .pure trivial

omit hout in
theorem yields_readArguments (f : Function) (index : Nat) (slots : List Slot) :
    Yields out (readArguments f index slots) fun _ => True := by
  induction slots generalizing index with
  | nil => exact .pure trivial
  | cons slot more ih =>
    refine (yields_resolve slot).bind fun v _ => ?_
    have hothers (argument : Option Value) :
        Yields out (do
            let others ← readArguments f (index + 1) more
            return argument.bind fun v => others.map (v :: ·)) fun _ => True :=
      (ih (index + 1)).bind fun _ _ => Yields.pure trivial
    cases v with
    | none => exact hothers none
    | some v =>
      dsimp only
      split
      · exact hothers _
      · exact (yields_report _).bind fun _ _ => hothers none

theorem yields_call (name : String) (target : Option FunctionId) {stack : Stack}
    {slots : List Slot} {rest : Stack} (h : splitCall [] stack = some (slots, rest)) :
    Yields out (call runner depth name target stack) (IsPushed rest) := by
  unfold call
  rw [h]
  refine yields_environment.bind fun env _ => ?_
  split
  · exact yields_push _ (yields_fail _)
  · next f _ =>
    refine (yields_readArguments f 0 slots).bind fun args _ => ?_
    cases args with
    | none => exact .pure ⟨.failed, rfl, rfl⟩
    | some args =>
      exact (yields_apply hout depth f args).bind fun _ _ => yields_push _ (yields_slotOf _)

end Runner

/-! Checked stacks. The entries that a program is checked against lie above others. -/

theorem belowReadable_map {count : Nat} {slots : List Slot} {rest : List Shape}
    (h : belowReadable count (slots.map Slot.shape) = some rest) :
    ∃ taken left, slots = taken ++ left ∧ taken.length = count ∧ left.map Slot.shape = rest := by
  induction count generalizing slots with
  | zero => exact ⟨[], slots, rfl, rfl, Option.some.inj h⟩
  | succ count ih =>
    cases slots with
    | nil => cases h
    | cons slot slots =>
      rw [List.map_cons, belowReadable] at h
      split at h
      · obtain ⟨taken, left, rfl, hlength, hleft⟩ := ih h
        exact ⟨slot :: taken, left, rfl, by rw [List.length_cons, hlength], hleft⟩
      · cases h

theorem splitCall_of_belowCall {slots : List Slot} {rest : List Shape} (below : Stack)
    (args : List Slot) (h : belowCall (slots.map Slot.shape) = some rest) :
    ∃ taken left, splitCall args (slots ++ below) = some (taken, left ++ below) ∧
      left.map Slot.shape = rest := by
  induction slots generalizing args with
  | nil => cases h
  | cons slot slots ih =>
    cases slot with
    | openCall => exact ⟨args, slots, rfl, Option.some.inj h⟩
    | block body => cases h
    | name _ | value _ | failed => exact ih _ h

def Holds (below : Stack) (shapes : List Shape) (stack : Stack) : Prop :=
  ∃ slots : List Slot, slots.map Slot.shape = shapes ∧ stack = slots ++ below

variable {below : Stack} {shapes : List Shape} {stack : Stack}

theorem Holds.push (h : Holds below shapes stack) (slot : Slot) :
    Holds below (slot.shape :: shapes) (slot :: stack) := by
  obtain ⟨slots, rfl, rfl⟩ := h
  exact ⟨slot :: slots, rfl, rfl⟩

theorem holds_of_isPushed {left : List Slot} (h : IsPushed (left ++ below) stack) :
    Holds below (.operand :: left.map Slot.shape) stack := by
  obtain ⟨slot, hslot, rfl⟩ := h
  exact ⟨slot :: left, by rw [List.map_cons, hslot], rfl⟩

theorem Slot.eq_name {slot : Slot} (h : slot.shape = .name) : ∃ name, slot = .name name := by
  cases slot <;> first | exact ⟨_, rfl⟩ | cases h

theorem Slot.eq_block {slot : Slot} (h : slot.shape = .block) : ∃ body, slot = .block body := by
  cases slot <;> first | exact ⟨_, rfl⟩ | cases h

/-- The entries of a checked stack that an operator takes as its first operands. -/
theorem Holds.split {count : Nat} {rest : List Shape} (h : Holds below shapes stack)
    (hrest : belowReadable count shapes = some rest) :
    ∃ taken left, stack = taken ++ (left ++ below) ∧ taken.length = count ∧
      left.map Slot.shape = rest := by
  obtain ⟨slots, rfl, rfl⟩ := h
  obtain ⟨taken, left, rfl, hlength, hleft⟩ := belowReadable_map hrest
  exact ⟨taken, left, List.append_assoc .., hlength, hleft⟩

/-- An assignment finds a name below its value. -/
theorem Holds.assign {after : List Shape} (h : Holds below shapes stack)
    (hafter : afterOperator .assign shapes = some after) :
    ∃ value name left, stack = value :: .name name :: (left ++ below) ∧
      after = .operand :: left.map Slot.shape := by
  simp only [afterOperator] at hafter
  split at hafter
  · next rest hrest =>
    obtain ⟨taken, left, rfl, hlength, hleft⟩ := h.split hrest
    obtain ⟨value, rfl⟩ := List.length_eq_one_iff.1 hlength
    obtain ⟨slot, left, rfl, hslot, rfl⟩ := List.map_eq_cons_iff.1 hleft
    obtain ⟨name, rfl⟩ := Slot.eq_name hslot
    cases hafter
    exact ⟨value, name, left, rfl, rfl⟩
  · cases hafter

/-- A conditional finds both of its branches below the condition. -/
theorem Holds.question {after : List Shape} (h : Holds below shapes stack)
    (hafter : afterOperator .question shapes = some after) :
    ∃ condition second first left,
      stack = condition :: .block second :: .block first :: (left ++ below) ∧
      after = .operand :: left.map Slot.shape := by
  simp only [afterOperator] at hafter
  split at hafter
  · next rest hrest =>
    obtain ⟨taken, left, rfl, hlength, hleft⟩ := h.split hrest
    obtain ⟨condition, rfl⟩ := List.length_eq_one_iff.1 hlength
    obtain ⟨slot, left, rfl, hslot, hleft⟩ := List.map_eq_cons_iff.1 hleft
    obtain ⟨slot', left, rfl, hslot', rfl⟩ := List.map_eq_cons_iff.1 hleft
    obtain ⟨second, rfl⟩ := Slot.eq_block hslot
    obtain ⟨first, rfl⟩ := Slot.eq_block hslot'
    cases hafter
    exact ⟨condition, second, first, left, rfl, rfl⟩
  · cases hafter

theorem Holds.takesOne {op : Operator} {after : List Shape} (h : Holds below shapes stack)
    (hone : op.takesOne) (hafter : afterOperator op shapes = some after) :
    ∃ operand left, stack = operand :: (left ++ below) ∧
      after = .operand :: left.map Slot.shape := by
  rw [afterOperator_of_takesOne hone] at hafter
  obtain ⟨rest, hrest, rfl⟩ := Option.map_eq_some_iff.1 hafter
  obtain ⟨taken, left, rfl, hlength, rfl⟩ := h.split hrest
  obtain ⟨operand, rfl⟩ := List.length_eq_one_iff.1 hlength
  exact ⟨operand, left, rfl, rfl⟩

theorem Holds.takesTwo {op : Operator} {after : List Shape} (h : Holds below shapes stack)
    (htwo : op.takesTwo) (hafter : afterOperator op shapes = some after) :
    ∃ right left more, stack = right :: left :: (more ++ below) ∧
      after = .operand :: more.map Slot.shape := by
  rw [afterOperator_of_takesTwo htwo] at hafter
  obtain ⟨rest, hrest, rfl⟩ := Option.map_eq_some_iff.1 hafter
  obtain ⟨taken, more, rfl, hlength, rfl⟩ := h.split hrest
  obtain ⟨right, left, rfl⟩ := List.length_eq_two.1 hlength
  exact ⟨right, left, more, rfl, rfl⟩

/-- What an operator leaves has the shapes that were computed for it. -/
theorem yields_operator {runner : Runner} (hout : runner.LacksFuel → out) (depth : Nat)
    {op : Operator} {after : List Shape} (h : Holds below shapes stack)
    (hafter : afterOperator op shapes = some after) :
    Yields out (operator runner depth op stack) (Holds below after) := by
  by_cases hone : op.takesOne
  · obtain ⟨operand, left, rfl, rfl⟩ := h.takesOne hone hafter
    rw [operator_of_takesOne hone]
    exact (yields_unary op operand _).mono fun _ => holds_of_isPushed
  · by_cases htwo : op.takesTwo
    · obtain ⟨right, left, more, rfl, rfl⟩ := h.takesTwo htwo hafter
      rw [operator_of_takesTwo htwo]
      exact (yields_binary op right left _).mono fun _ => holds_of_isPushed
    · cases op with
      | comma =>
        cases hafter
        exact .pure h
      | assign =>
        obtain ⟨value, name, left, rfl, rfl⟩ := h.assign hafter
        exact (yields_assign value name _).mono fun _ => holds_of_isPushed
      | question =>
        obtain ⟨condition, second, first, left, rfl, rfl⟩ := h.question hafter
        exact (yields_conditional hout depth condition second first _).mono
          fun _ => holds_of_isPushed
      | _ => first | exact absurd rfl hone | exact absurd rfl htwo | cases hafter

theorem Holds.call {rest : List Shape} (h : Holds below shapes stack)
    (hrest : belowCall shapes = some rest) :
    ∃ args left, splitCall [] stack = some (args, left ++ below) ∧ left.map Slot.shape = rest := by
  obtain ⟨slots, rfl, rfl⟩ := h
  exact splitCall_of_belowCall below [] hrest

end Reckoner.Machine
