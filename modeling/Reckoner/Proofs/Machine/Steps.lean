import Mathlib.Logic.Relation
import Reckoner.Proofs.Machine.Shape

/-!
Runs step by step. A checked program runs to its end or out of fuel. Each configuration on its way
is ready for the next instruction, and the entries below those that it was checked against stay.
-/

namespace Reckoner.Machine

theorem effect_nil (shapes : List Shape) : effect [] shapes = some shapes := by rw [effect]

theorem effect_name (name : String) (more : Program) (shapes : List Shape) :
    effect (.name name :: more) shapes = effect more (.name :: shapes) := by rw [effect]

theorem effect_value (v : Value) (more : Program) (shapes : List Shape) :
    effect (.value v :: more) shapes = effect more (.operand :: shapes) := by rw [effect]

theorem effect_openCall (more : Program) (shapes : List Shape) :
    effect (.openCall :: more) shapes = effect more (.openCall :: shapes) := by rw [effect]

theorem effect_startBlock {more body rest : Program} (h : splitBlock 0 more = some (body, rest))
    (shapes : List Shape) :
    effect (.startBlock :: more) shapes = effect rest (.block :: shapes) := by
  rw [effect]
  split
  · next hnone => rw [h] at hnone; cases hnone
  · next body' rest' hsome =>
    rw [h] at hsome
    cases hsome
    rfl

theorem effect_call (name : String) (target : Option FunctionId) (more : Program)
    (shapes : List Shape) :
    effect (.call name target :: more) shapes =
      (belowCall shapes).bind fun rest => effect more (.operand :: rest) := by rw [effect]

theorem effect_operator (op : Operator) (more : Program) (shapes : List Shape) :
    effect (.operator op :: more) shapes =
      (afterOperator op shapes).bind fun after => effect more after := by rw [effect]

structure Config where
  program : Program
  stack : Stack
  state : State

namespace Config

def finish (runner : Runner) (depth : Nat) (c : Config) : Outcome Stack :=
  perform runner depth c.program c.stack c.state

/-- The next instruction finds what it needs: an assignment a name below its value, a conditional
both branches below its condition, a call its mark, and a block its end. -/
def IsReady (c : Config) : Prop :=
  match c.program with
  | .operator .comma :: _ => True
  | .operator .assign :: _ => ∃ value name rest, c.stack = value :: .name name :: rest
  | .operator .question :: _ =>
    ∃ condition second first rest, c.stack = condition :: .block second :: .block first :: rest
  | .operator op :: _ =>
    (op.takesOne ∧ ∃ operand rest, c.stack = operand :: rest) ∨
      (op.takesTwo ∧ ∃ right left rest, c.stack = right :: left :: rest)
  | .call _ _ :: _ => (splitCall [] c.stack).isSome
  | .startBlock :: more => (splitBlock 0 more).isSome
  | .endBlock :: _ => False
  | _ => True

end Config

inductive Step (runner : Runner) (depth : Nat) : Config → Config → Prop where
  | name (name : String) (more : Program) (stack : Stack) (s : State) :
      Step runner depth ⟨.name name :: more, stack, s⟩ ⟨more, .name name :: stack, s⟩
  | value (v : Value) (more : Program) (stack : Stack) (s : State) :
      Step runner depth ⟨.value v :: more, stack, s⟩ ⟨more, .value v :: stack, s⟩
  | openCall (more : Program) (stack : Stack) (s : State) :
      Step runner depth ⟨.openCall :: more, stack, s⟩ ⟨more, .openCall :: stack, s⟩
  | startBlock {more body rest : Program} (h : splitBlock 0 more = some (body, rest))
      (stack : Stack) (s : State) :
      Step runner depth ⟨.startBlock :: more, stack, s⟩ ⟨rest, .block body :: stack, s⟩
  | call {name : String} {target : Option FunctionId} (more : Program) {stack after : Stack}
      {s s' : State} (h : call runner depth name target stack s = .done after s') :
      Step runner depth ⟨.call name target :: more, stack, s⟩ ⟨more, after, s'⟩
  | operator {op : Operator} (more : Program) {stack after : Stack} {s s' : State}
      (h : operator runner depth op stack s = .done after s') :
      Step runner depth ⟨.operator op :: more, stack, s⟩ ⟨more, after, s'⟩

abbrev Reaches (runner : Runner) (depth : Nat) : Config → Config → Prop :=
  Relation.ReflTransGen (Step runner depth)

variable {runner : Runner} {depth : Nat} {c c' : Config}

theorem finish_step (h : Step runner depth c c') :
    c.finish runner depth = c'.finish runner depth := by
  cases h with
  | name | value | openCall =>
    simp only [Config.finish, perform_name, perform_value, perform_openCall]
  | startBlock h => simp only [Config.finish, perform_startBlock _ _ _ h]
  | call _ h => simp only [Config.finish, perform_call, bind_eq, h]
  | operator _ h => simp only [Config.finish, perform_operator, bind_eq, h]

/-- The steps are those of the run. -/
theorem finish_reaches (h : Reaches runner depth c c') :
    c.finish runner depth = c'.finish runner depth := by
  induction h with
  | refl => rfl
  | tail _ hstep ih => rw [ih, finish_step hstep]

def Config.Fits (below : Stack) (result : List Shape) (c : Config) : Prop :=
  ∃ shapes, Holds below shapes c.stack ∧ effect c.program shapes = some result

variable {below : Stack} {result : List Shape}

theorem fits_step (hfits : c.Fits below result) (h : Step runner depth c c') :
    c'.Fits below result := by
  obtain ⟨shapes, hholds, heffect⟩ := hfits
  cases h with
  | name name more stack s =>
    rw [effect_name] at heffect
    exact ⟨_, hholds.push (.name name), heffect⟩
  | value v more stack s =>
    rw [effect_value] at heffect
    exact ⟨_, hholds.push (.value v), heffect⟩
  | openCall more stack s =>
    rw [effect_openCall] at heffect
    exact ⟨_, hholds.push .openCall, heffect⟩
  | @startBlock more body rest h stack s =>
    rw [effect_startBlock h] at heffect
    exact ⟨_, hholds.push (.block body), heffect⟩
  | @call name target more stack after s s' h =>
    rw [effect_call] at heffect
    obtain ⟨rest, hrest, heffect⟩ := Option.bind_eq_some_iff.1 heffect
    obtain ⟨args, left, hsplit, rfl⟩ := hholds.call hrest
    have hyields := yields_call (id : runner.LacksFuel → _) depth name target hsplit s
    rw [h] at hyields
    exact ⟨_, holds_of_isPushed hyields, heffect⟩
  | @operator op more stack after s s' h =>
    rw [effect_operator] at heffect
    obtain ⟨shapes', hafter, heffect⟩ := Option.bind_eq_some_iff.1 heffect
    have hyields := yields_operator (id : runner.LacksFuel → _) depth hholds hafter s
    rw [h] at hyields
    exact ⟨shapes', hyields, heffect⟩

theorem fits_reaches (hfits : c.Fits below result) (h : Reaches runner depth c c') :
    c'.Fits below result := by
  induction h with
  | refl => exact hfits
  | tail _ hstep ih => exact fits_step ih hstep

theorem isReady_of_fits (hfits : c.Fits below result) : c.IsReady := by
  obtain ⟨program, stack, s⟩ := c
  obtain ⟨shapes, hholds, heffect⟩ := hfits
  unfold Config.IsReady
  cases program with
  | nil => trivial
  | cons instruction more =>
    cases instruction with
    | name | value | openCall => trivial
    | startBlock =>
      rw [effect] at heffect
      split at heffect
      · cases heffect
      · next h => simp [h]
    | endBlock =>
      rw [effect] at heffect
      cases heffect
    | call name target =>
      rw [effect_call] at heffect
      obtain ⟨rest, hrest, -⟩ := Option.bind_eq_some_iff.1 heffect
      obtain ⟨args, left, hsplit, -⟩ := hholds.call hrest
      exact Option.isSome_of_eq_some hsplit
    | operator op =>
      rw [effect_operator] at heffect
      obtain ⟨after, hafter, -⟩ := Option.bind_eq_some_iff.1 heffect
      by_cases hone : op.takesOne
      · obtain ⟨operand, left, hstack, -⟩ := hholds.takesOne hone hafter
        cases op <;> first | exact .inl ⟨hone, operand, _, hstack⟩ | cases hone
      · by_cases htwo : op.takesTwo
        · obtain ⟨right, left, more, hstack, -⟩ := hholds.takesTwo htwo hafter
          cases op <;> first | exact .inr ⟨htwo, right, left, _, hstack⟩ | cases htwo
        · cases op with
          | comma => trivial
          | assign =>
            obtain ⟨value, name, left, hstack, -⟩ := hholds.assign hafter
            exact ⟨value, name, _, hstack⟩
          | question =>
            obtain ⟨condition, second, first, left, hstack, -⟩ := hholds.question hafter
            exact ⟨condition, second, first, _, hstack⟩
          | _ => first | exact absurd rfl hone | exact absurd rfl htwo | cases hafter

/-- A checked program is not stopped, and leaves what was computed for it. -/
theorem yields_perform {out : Prop} (hout : runner.LacksFuel → out) (program : Program)
    {shapes : List Shape} {stack : Stack}
    (hholds : Holds below shapes stack) (heffect : effect program shapes = some result) :
    Yields out (perform runner depth program stack) (Holds below result) := by
  induction program, shapes using effect.induct generalizing stack with
  | case1 shapes =>
    rw [effect_nil] at heffect
    cases heffect
    rw [perform_nil]
    exact .pure hholds
  | case2 shapes name more ih =>
    rw [effect_name] at heffect
    rw [perform_name]
    exact ih (hholds.push (.name name)) heffect
  | case3 shapes v more ih =>
    rw [effect_value] at heffect
    rw [perform_value]
    exact ih (hholds.push (.value v)) heffect
  | case4 shapes more ih =>
    rw [effect_openCall] at heffect
    rw [perform_openCall]
    exact ih (hholds.push .openCall) heffect
  | case5 shapes more hnone =>
    rw [effect] at heffect
    split at heffect
    · cases heffect
    · next hsome => rw [hnone] at hsome; cases hsome
  | case6 shapes more body rest hsplit _ ih =>
    rw [effect_startBlock hsplit] at heffect
    rw [perform_startBlock _ _ _ hsplit]
    exact ih (hholds.push (.block body)) heffect
  | case7 shapes more =>
    rw [effect] at heffect
    cases heffect
  | case8 shapes name target more ih =>
    rw [effect_call] at heffect
    obtain ⟨rest, hrest, heffect⟩ := Option.bind_eq_some_iff.1 heffect
    obtain ⟨args, left, hcall, rfl⟩ := hholds.call hrest
    rw [perform_call]
    refine (yields_call hout depth name target hcall).bind fun after hafter => ?_
    exact ih _ (holds_of_isPushed hafter) heffect
  | case9 shapes op more ih =>
    rw [effect_operator] at heffect
    obtain ⟨after, hafter, heffect⟩ := Option.bind_eq_some_iff.1 heffect
    rw [perform_operator]
    exact (yields_operator hout depth hholds hafter).bind fun stack hstack =>
      ih after hstack heffect

/-- A block ends in the same place when more code follows. -/
theorem splitBlock_append {inner : Nat} {program body rest : Program} (more : Program)
    (h : splitBlock inner program = some (body, rest)) :
    splitBlock inner (program ++ more) = some (body, rest ++ more) := by
  fun_induction splitBlock inner program generalizing body rest with
  | case1 => cases h
  | case2 inner program ih =>
    obtain ⟨⟨b, r⟩, hbr, heq⟩ := Option.map_eq_some_iff.1 h
    cases heq
    rw [List.cons_append, splitBlock, ih hbr]
    rfl
  | case3 program =>
    cases h
    rfl
  | case4 program inner ih =>
    obtain ⟨⟨b, r⟩, hbr, heq⟩ := Option.map_eq_some_iff.1 h
    cases heq
    rw [List.cons_append, splitBlock, ih hbr]
    rfl
  | case5 inner instruction program hstart hend ih =>
    obtain ⟨⟨b, r⟩, hbr, heq⟩ := Option.map_eq_some_iff.1 h
    cases heq
    rw [List.cons_append, splitBlock, ih hbr]
    · rfl
    · exact hstart
    · exact hend

/-- The code that follows a checked program runs on what that leaves. -/
theorem perform_append (program more : Program) {shapes : List Shape} {stack : Stack}
    (hholds : Holds below shapes stack) (heffect : effect program shapes = some result) :
    perform runner depth (program ++ more) stack =
      perform runner depth program stack >>= perform runner depth more := by
  induction program, shapes using effect.induct generalizing stack with
  | case1 shapes => rw [List.nil_append, perform_nil, pure_bind]
  | case2 shapes name program ih =>
    rw [effect_name] at heffect
    rw [List.cons_append, perform_name, perform_name]
    exact ih (hholds.push (.name name)) heffect
  | case3 shapes v program ih =>
    rw [effect_value] at heffect
    rw [List.cons_append, perform_value, perform_value]
    exact ih (hholds.push (.value v)) heffect
  | case4 shapes program ih =>
    rw [effect_openCall] at heffect
    rw [List.cons_append, perform_openCall, perform_openCall]
    exact ih (hholds.push .openCall) heffect
  | case5 shapes program hnone =>
    rw [effect] at heffect
    split at heffect
    · cases heffect
    · next hsome => rw [hnone] at hsome; cases hsome
  | case6 shapes program body rest hsplit _ ih =>
    rw [effect_startBlock hsplit] at heffect
    rw [List.cons_append, perform_startBlock _ _ _ (splitBlock_append more hsplit),
      perform_startBlock _ _ _ hsplit]
    exact ih (hholds.push (.block body)) heffect
  | case7 shapes program =>
    rw [effect] at heffect
    cases heffect
  | case8 shapes name target program ih =>
    rw [effect_call] at heffect
    obtain ⟨rest, hrest, heffect⟩ := Option.bind_eq_some_iff.1 heffect
    obtain ⟨args, left, hcall, rfl⟩ := hholds.call hrest
    rw [List.cons_append, perform_call, perform_call, bind_assoc]
    have hcalled := yields_call (id : runner.LacksFuel → _) depth name target hcall
    exact hcalled.bind_congr fun after hafter => ih _ (holds_of_isPushed hafter) heffect
  | case9 shapes op program ih =>
    rw [effect_operator] at heffect
    obtain ⟨after, hafter, heffect⟩ := Option.bind_eq_some_iff.1 heffect
    rw [List.cons_append, perform_operator, perform_operator, bind_assoc]
    have hperformed := yields_operator (id : runner.LacksFuel → _) depth hholds hafter
    exact hperformed.bind_congr fun stack hstack => ih after hstack heffect

end Reckoner.Machine
