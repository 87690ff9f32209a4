import Reckoner.Proofs.Machine.Mirror
import Reckoner.Proofs.Machine.Readings
import Reckoner.Proofs.Machine.Stacked

/-!
The two halves of an instruction. First comes what it does alone, and then, if it is a conditional
or the call of a formula, something nested whose result is pushed. What the first half can do to the
stack and the state is said here once.
-/

namespace Reckoner.Machine

inductive Inner where
  | branch (body : Program)
  | formula (f : Function) (parameters : List String) (text : String) (args : List Value)

inductive Turn where
  | ended (stack : Stack)
  /-- The result of what is nested goes on top of these entries. -/
  | pending (inner : Inner) (below : Stack)

def conditionalTurn (stack : Stack) : Machine Turn := do
  let (v, rest) ← popValue stack
  let holds := (v.bind Value.toBoolean?).getD false
  match rest with
  | .block second :: .block first :: below =>
    return .pending (.branch (if holds then first else second)) below
  | _ => stop (.other "Missing block for '?:'")

def operatorTurn (op : Operator) (stack : Stack) : Machine Turn :=
  if op.takesOne then do return .ended (← unary op stack)
  else if op.takesTwo then do return .ended (← binary op stack)
  else
    match op with
    | .comma => return .ended stack
    | .assign => do return .ended (← assign stack)
    | .question => conditionalTurn stack
    | _ => stop (.invalidOperator op.symbol)

def applyTurn (f : Function) (args : List Value) (below : Stack) : Machine Turn := do
  match f.validate args with
  | .error error => return .ended ((← fail error) :: below)
  | .ok () =>
    match f.body with
    | .formula parameters text => return .pending (.formula f parameters text args) below
    | _ =>
      let env ← environment
      note (.invoked f.id args)
      return .ended ((← slotOf (f.invoke env.view args)) :: below)

def callTurn (name : String) (target : Option FunctionId) (stack : Stack) : Machine Turn := do
  match splitCall [] stack with
  | none => stop (.other s!"Missing argument marker for '{name}'")
  | some (slots, below) =>
    let env ← environment
    match target.bind env.registry.find? with
    | none => return .ended ((← fail (.unknownFunction name)) :: below)
    | some f =>
      match ← readArguments f 0 slots with
      | none => return .ended (.failed :: below)
      | some args => applyTurn f args below

def turn (instruction : Instruction) (more : Program) (stack : Stack) :
    Machine (Turn × Program) :=
  match instruction with
  | .name name => return (.ended (.name name :: stack), more)
  | .value v => return (.ended (.value v :: stack), more)
  | .openCall => return (.ended (.openCall :: stack), more)
  | .startBlock =>
    match splitBlock 0 more with
    | none => stop (.other "Unterminated block")
    | some (body, after) => return (.ended (.block body :: stack), after)
  | .endBlock => stop (.other "Unmatched end of block")
  | .call name target => do return (← callTurn name target stack, more)
  | .operator op => do return (← operatorTurn op stack, more)

def Inner.answer (runner : Runner) (depth : Nat) : Inner → Machine (Except Error Value)
  | branch body => do
    let execution ← nested runner depth body
    return execution.last
  | formula f parameters text args => callFormula runner depth f parameters text args

def Turn.complete (runner : Runner) (depth : Nat) : Turn → Machine Stack
  | ended stack => return stack
  | pending inner below => do
    let result ← inner.answer runner depth
    return (← slotOf result) :: below

/-! Both halves make the instruction. -/

theorem bind_eq_done {α β : Type} {m : Machine α} {f : α → Machine β} {s s' : State} {b : β} :
    (m >>= f) s = .done b s' ↔ ∃ a t, m s = .done a t ∧ f a t = .done b s' := by
  rw [bind_eq]
  cases m s with
  | done a t => exact ⟨fun h => ⟨a, t, rfl, h⟩, fun ⟨_, _, ht, h⟩ => by cases ht; exact h⟩
  | stopped | outOfFuel => exact ⟨nofun, fun ⟨_, _, ht, _⟩ => nomatch ht⟩

section Halves

variable {runner : Runner} {depth : Nat}

theorem conditional_eq (stack : Stack) :
    conditional runner depth stack = conditionalTurn stack >>= Turn.complete runner depth := by
  rw [conditional, conditionalTurn, bind_assoc]
  refine bind_congr fun popped => ?_
  obtain ⟨v, rest⟩ := popped
  cases rest with
  | nil => rfl
  | cons second rest =>
    cases second with
    | block second =>
      cases rest with
      | nil => rfl
      | cons first below =>
        cases first with
        | block first => simp only [pure_bind, Turn.complete, Inner.answer, bind_assoc]
        | name | value | openCall | failed => rfl
    | name | value | openCall | failed => rfl

theorem operatorTurn_of_takesOne {op : Operator} (h : op.takesOne) (stack : Stack) :
    operatorTurn op stack = do return .ended (← unary op stack) := by
  cases op <;> first | rfl | cases h

theorem operatorTurn_of_takesTwo {op : Operator} (h : op.takesTwo) (stack : Stack) :
    operatorTurn op stack = do return .ended (← binary op stack) := by
  cases op <;> first | rfl | cases h

theorem operator_eq (op : Operator) (stack : Stack) :
    operator runner depth op stack = operatorTurn op stack >>= Turn.complete runner depth := by
  by_cases hone : op.takesOne
  · simp only [operator_of_takesOne hone, operatorTurn_of_takesOne hone, bind_assoc, pure_bind,
      Turn.complete, bind_pure]
  · by_cases htwo : op.takesTwo
    · simp only [operator_of_takesTwo htwo, operatorTurn_of_takesTwo htwo, bind_assoc, pure_bind,
        Turn.complete, bind_pure]
    · cases op with
      | comma => rfl
      | assign => simp only [operator, operatorTurn, Operator.takesOne, Operator.takesTwo,
          Bool.false_eq_true, if_false, bind_assoc, pure_bind, Turn.complete, bind_pure]
      | question => exact conditional_eq stack
      | _ => first | exact absurd rfl hone | exact absurd rfl htwo | rfl

theorem call_eq (name : String) (target : Option FunctionId) (stack : Stack) :
    call runner depth name target stack =
      callTurn name target stack >>= Turn.complete runner depth := by
  rw [call, callTurn]
  cases splitCall [] stack with
  | none => rfl
  | some parts =>
    obtain ⟨slots, below⟩ := parts
    simp only [bind_assoc]
    refine bind_congr fun env => ?_
    cases target.bind env.registry.find? with
    | none => simp only [bind_assoc, pure_bind, Turn.complete]
    | some f =>
      simp only [bind_assoc]
      refine bind_congr fun args => ?_
      cases args with
      | none => rfl
      | some args =>
        simp only [apply, applyTurn]
        cases f.validate args with
        | error e => simp only [pure_bind, slotOf, bind_assoc, Turn.complete]
        | ok _ =>
          cases f.body with
          | formula parameters text => simp only [pure_bind, Turn.complete, Inner.answer]
          | native | object => simp only [bind_assoc, pure_bind, Turn.complete]

/-- A program goes on behind both halves of its first instruction. -/
theorem perform_cons (instruction : Instruction) (more : Program) (stack : Stack) :
    perform runner depth (instruction :: more) stack =
      turn instruction more stack >>= fun (half, after) =>
        half.complete runner depth >>= perform runner depth after := by
  cases instruction with
  | name name => rw [perform_name]; rfl
  | value v => rw [perform_value]; rfl
  | openCall => rw [perform_openCall]; rfl
  | startBlock =>
    rw [turn]
    cases h : splitBlock 0 more with
    | none => rw [perform_unterminated _ _ _ h]; rfl
    | some parts =>
      obtain ⟨body, after⟩ := parts
      rw [perform_startBlock _ _ _ h]
      rfl
  | endBlock => rw [perform_endBlock]; rfl
  | call name target => simp only [perform_call, call_eq, turn, bind_assoc, pure_bind]
  | operator op => simp only [perform_operator, operator_eq, turn, bind_assoc, pure_bind]

variable {c c' : Config}

theorem exists_turn_of_step (h : Step runner depth c c') :
    ∃ instruction more half s, c.program = instruction :: more ∧
      turn instruction more c.stack c.state = .done (half, c'.program) s ∧
      half.complete runner depth s = .done c'.stack c'.state := by
  cases h with
  | name | value | openCall => exact ⟨_, _, _, _, rfl, rfl, rfl⟩
  | @startBlock more body _ hsplit stack s =>
    refine ⟨.startBlock, more, .ended (.block body :: stack), s, rfl, ?_, rfl⟩
    rw [turn, hsplit]
    rfl
  | call more hcall =>
    rw [call_eq, bind_eq_done] at hcall
    obtain ⟨half, t, hturn, hcomplete⟩ := hcall
    exact ⟨_, more, half, t, rfl, bind_eq_done.2 ⟨half, t, hturn, rfl⟩, hcomplete⟩
  | operator more hoperator =>
    rw [operator_eq, bind_eq_done] at hoperator
    obtain ⟨half, t, hturn, hcomplete⟩ := hoperator
    exact ⟨_, more, half, t, rfl, bind_eq_done.2 ⟨half, t, hturn, rfl⟩, hcomplete⟩

theorem step_of_turn {instruction : Instruction} {more rest : Program} {stack after : Stack}
    {s t s' : State} {half : Turn} (hturn : turn instruction more stack s = .done (half, rest) t)
    (hcomplete : half.complete runner depth t = .done after s') :
    Step runner depth ⟨instruction :: more, stack, s⟩ ⟨rest, after, s'⟩ := by
  cases instruction with
  | name name =>
    cases hturn
    cases hcomplete
    exact .name name _ _ _
  | value v =>
    cases hturn
    cases hcomplete
    exact .value v _ _ _
  | openCall =>
    cases hturn
    cases hcomplete
    exact .openCall _ _ _
  | startBlock =>
    rw [turn] at hturn
    cases hsplit : splitBlock 0 more with
    | none =>
      rw [hsplit] at hturn
      cases hturn
    | some parts =>
      rw [hsplit] at hturn
      cases hturn
      cases hcomplete
      exact .startBlock hsplit _ _
  | endBlock => cases hturn
  | call name target =>
    obtain ⟨half', t', hcall, hpure⟩ := bind_eq_done.1 hturn
    cases hpure
    refine .call _ ?_
    rw [call_eq]
    exact bind_eq_done.2 ⟨half, t, hcall, hcomplete⟩
  | operator op =>
    obtain ⟨half', t', hoperator, hpure⟩ := bind_eq_done.1 hturn
    cases hpure
    refine .operator _ ?_
    rw [operator_eq]
    exact bind_eq_done.2 ⟨half, t, hoperator, hcomplete⟩

end Halves

/-! The first half, seen in two machines side by side. -/

section Mirror

variable {lax : Prop} {R : State → State → Prop} (hR : IsKept lax R)

include hR

theorem mirrors_conditionalTurn (stack : Stack) :
    Mirrors lax R Eq (conditionalTurn stack) (conditionalTurn stack) := by
  refine (mirrors_popValue hR stack).bindEq fun popped => ?_
  obtain ⟨v, rest⟩ := popped
  dsimp only
  split
  · exact mirrors_pure rfl
  · exact mirrors_stop _

theorem mirrors_operatorTurn (op : Operator) (stack : Stack) :
    Mirrors lax R Eq (operatorTurn op stack) (operatorTurn op stack) := by
  by_cases hone : op.takesOne
  · rw [operatorTurn_of_takesOne hone]
    exact (mirrors_unary hR op stack).bindEq fun _ => mirrors_pure rfl
  · by_cases htwo : op.takesTwo
    · rw [operatorTurn_of_takesTwo htwo]
      exact (mirrors_binary hR op stack).bindEq fun _ => mirrors_pure rfl
    · cases op with
      | comma => exact mirrors_pure rfl
      | assign => exact (mirrors_assign hR stack).bindEq fun _ => mirrors_pure rfl
      | question => exact mirrors_conditionalTurn hR stack
      | _ => first | exact absurd rfl hone | exact absurd rfl htwo | exact mirrors_stop _

theorem mirrors_applyTurn {f : Function} (hunseen : Unseen R f) (args : List Value)
    (below : Stack) :
    Mirrors lax R Eq (applyTurn f args below) (applyTurn f args below) := by
  have hinvoke (view : View) : Mirrors lax R Eq
      (do note (.invoked f.id args); return Turn.ended ((← slotOf (f.invoke view args)) :: below))
      (do note (.invoked f.id args); return Turn.ended ((← slotOf (f.invoke view args)) :: below)) :=
    (hR.note _).bindEq fun _ => (mirrors_slotOf hR _).bindEq fun _ => mirrors_pure rfl
  rw [applyTurn]
  cases f.validate args with
  | error e => exact (mirrors_fail hR e).bindEq fun _ => mirrors_pure rfl
  | ok _ =>
    cases f.body with
    | formula parameters text => exact mirrors_pure rfl
    | native | object =>
      intro s s' h
      have hmirrors := hinvoke s'.env.view h
      simp only [bind_eq environment, environment, hunseen h]
      exact hmirrors

theorem mirrors_callTurn (hregistry : ∀ s s', R s s' → s.env.registry = s'.env.registry)
    (hunseen : ∀ s s', R s s' → ∀ f ∈ s.env.registry.functions, Unseen R f)
    (name : String) (target : Option FunctionId) (stack : Stack) :
    Mirrors lax R Eq (callTurn name target stack) (callTurn name target stack) := by
  rw [callTurn]
  cases splitCall [] stack with
  | none => exact mirrors_stop _
  | some parts =>
    obtain ⟨slots, below⟩ := parts
    intro s s' h
    simp only [bind_eq environment, environment]
    rw [← hregistry s s' h]
    cases hfound : target.bind s.env.registry.find? with
    | none => exact ((mirrors_fail hR _).bindEq fun _ => mirrors_pure rfl) h
    | some f =>
      obtain ⟨id, -, hfind⟩ := Option.bind_eq_some_iff.1 hfound
      have hf := hunseen s s' h f (List.mem_of_find?_eq_some hfind)
      refine ((mirrors_readArguments hR rfl rfl 0 slots).bind ?_) h
      rintro args _ ⟨rfl, -⟩
      cases args with
      | none => exact mirrors_pure rfl
      | some args => exact mirrors_applyTurn hR hf args below

theorem mirrors_turn (hregistry : ∀ s s', R s s' → s.env.registry = s'.env.registry)
    (hunseen : ∀ s s', R s s' → ∀ f ∈ s.env.registry.functions, Unseen R f)
    (instruction : Instruction) (more : Program) (stack : Stack) :
    Mirrors lax R Eq (turn instruction more stack) (turn instruction more stack) := by
  cases instruction with
  | name | value | openCall => exact mirrors_pure rfl
  | startBlock =>
    rw [turn]
    cases splitBlock 0 more with
    | none => exact mirrors_stop _
    | some parts => exact mirrors_pure rfl
  | endBlock => exact mirrors_stop _
  | call name target =>
    exact (mirrors_callTurn hR hregistry hunseen name target stack).bindEq fun _ => mirrors_pure rfl
  | operator op => exact (mirrors_operatorTurn hR op stack).bindEq fun _ => mirrors_pure rfl

end Mirror

end Reckoner.Machine
