import Reckoner.Proofs.Walk.Simulation

/-!
Branches, bodies and calls. Where a run takes up a program of its own, walking takes up the tree
that the program was compiled from.
-/

namespace Reckoner.Walk

open Machine Program

def WalkerAgrees (base : Registry) (runner : Runner) (walker : Walker) : Prop :=
  ∀ depth tree program env env' journal, Emits base tree program → tree.isPlain →
    EnvAlike base env env' →
      Option.Rel (ResultAlike base) (runner depth program env journal)
        (walker depth tree env' journal)

/-- In no formula that compiles, brackets directly hold a comma list. -/
def PlainBodies (r : Registry) : Prop :=
  ∀ f ∈ r.functions, ∀ parameters text, f.body = .formula parameters text →
    ∀ body, bodyOf r text = .ok body → body.isPlain

theorem compileText_eq (r : Registry) (text : String) :
    compileText r text = bodyOf r text >>= compile r := by
  rw [compileText, bodyOf, bind_assoc]
  refine bind_congr fun tokens => ?_
  rw [bind_assoc]
  refine bind_congr fun tree => ?_
  cases hcompile : compile r tree with
  | error e => rfl
  | ok program => exact hcompile.symm

theorem bodyOf_congr {r r' : Registry} (h : r.reset = r'.reset) (text : String) :
    bodyOf r text = bodyOf r' text := by
  have hcompile : compile r = compile r' :=
    funext fun tree => compile_congr (sameChoices_of_reset_eq h) tree
  rw [bodyOf, bodyOf, hcompile]

theorem emits_of_bodyOf {r : Registry} {text : String} {body : Tree}
    (h : bodyOf r text = .ok body) :
    ∃ program, compile r body = .ok program ∧ Emits r body program := by
  obtain ⟨tokens, -, h⟩ := bind_eq_ok.1 h
  obtain ⟨tree, htree, h⟩ := bind_eq_ok.1 h
  obtain ⟨program, hcompile, h⟩ := bind_eq_ok.1 h
  cases h
  exact ⟨program, hcompile, emits_of_parse (mapError_eq_ok.1 htree) hcompile⟩

theorem plainBodies_reset {r : Registry} (h : PlainBodies r) : PlainBodies r.reset := by
  intro f hf parameters text hbody body hbodyOf
  obtain ⟨g, hg, rfl⟩ := List.mem_map.1 hf
  rw [bodyOf_congr r.reset_reset] at hbodyOf
  exact h g hg parameters text hbody body hbodyOf

theorem choose_of_reset {base r : Registry} (h : r.reset = base) {name : String} {count : Nat}
    {f : Function} (hf : choose base name count = .ok f) :
    ∃ g, choose r name count = .ok g ∧ g.uncompiled = f := by
  rw [← h, choose_reset] at hf
  cases hchoice : choose r name count with
  | error e =>
    rw [hchoice] at hf
    cases hf
  | ok g =>
    rw [hchoice] at hf
    exact ⟨g, rfl, Except.ok.inj hf⟩

section

variable {base : Registry}

/-- What was compiled to a number and what is chosen by name now are the same function. -/
theorem find?_of_choose {env env' : Environment} (henv : EnvAlike base env env') {name : String}
    {count : Nat} {f : Function} (hf : choose base name count = .ok f) :
    ∃ g g', env.registry.find? f.id = some g ∧ choose env'.registry name count = .ok g' ∧
      FunctionAlike base g g' ∧ g'.uncompiled = f := by
  obtain ⟨g, hg, hsame⟩ := choose_of_reset henv.reset hf
  obtain ⟨g', hg', hsame'⟩ := choose_of_reset henv.reset' hf
  have hmem := (exists_function_of_choose hg).1
  have hmem' := (exists_function_of_choose hg').1
  have hid : g.id = f.id := by rw [← hsame]; rfl
  refine ⟨g, g', hid ▸ henv.coherent.find?_eq hmem, hg', ?_, hsame'⟩
  have heq := hsame.trans hsame'.symm
  refine ⟨heq, isOf_of_mem henv.reset henv.coherent hmem,
    isOf_of_mem henv.reset' henv.coherent' hmem', henv.shown.imp_right fun hregistry => ?_⟩
  rw [← hregistry] at hmem'
  exact henv.coherent.eq_of_id_eq hmem hmem' (Function.id_eq_of_uncompiled heq)

theorem agree_read (operand : Operand) : Agree base Eq operand.read operand.read := by
  rw [← resolve_slot]
  exact agree_resolve operand.slot

/-- The entry for a result on top of a stack. -/
theorem agree_ofResult (result : Except Error Value) (stack : Stack) :
    Agree base (fun after operand => after = operand.push stack)
      (do return (← slotOf result) :: stack) (ofResult result) := by
  refine agree_of_eq_map ((agree_slotOf result).bindEq fun _ => agree_pure rfl) ?_
  rw [slotOf_eq, bind_assoc]
  rfl

theorem agree_inFrame {f f' : Function} (hid : f.id = f'.id) (bindings : List (String × Value))
    {work work' : Machine Execution} (hwork : Agree base Eq work work') :
    Agree base Eq (inFrame f bindings work) (inFrame f' bindings work') :=
  agree_frame hid bindings id hwork

end

theorem callFormula_eq (runner : Runner) (depth : Nat) (f : Function) (parameters : List String)
    (text : String) (args : List Value) :
    Machine.callFormula runner depth f parameters text args = do
      let env ← environment
      if env.maxDepth.any (· ≤ depth) then
        return .error (.other s!"Maximum call depth exceeded in '{f.name}'")
      else
        match ← formulaProgram f text with
        | .error error => return .error error
        | .ok program =>
          let execution ← inFrame f (parameters.zip args) (nested runner (depth + 1) program)
          return execution.last := by
  rw [Machine.callFormula]
  refine bind_congr fun env => ?_
  split
  · rfl
  · refine bind_congr fun compiled => ?_
    cases compiled with
    | error e => rfl
    | ok program => simp only [inFrame, bind_assoc, pure_bind]

section Runner

variable {base : Registry} {runner : Runner} {walker : Walker}
  (hwalker : WalkerAgrees base runner walker) (depth : Nat)

include hwalker

theorem agree_within {tree : Tree} {program : Program} (hemits : Emits base tree program)
    (hplain : tree.isPlain) :
    Agree base Eq (nested runner depth program) (within walker depth tree) := by
  intro s s' hs
  have hrel := hwalker depth tree program s.env s'.env s.journal hemits hplain hs.env
  rw [nested, within, ← hs.journal]
  generalize runner depth program s.env s.journal = result at hrel ⊢
  generalize walker depth tree s'.env s.journal = result' at hrel ⊢
  cases hrel with
  | none => exact .outOfFuel
  | some h => exact .done h.execution ⟨h.env, h.journal, hs.failure⟩

theorem simulates_question {first second : Tree} {a b : Program} (hfirst : Emits base first a)
    (hsecond : Emits base second b) (hfirstPlain : first.isPlain) (hsecondPlain : second.isPlain)
    (condition : Operand) :
    Simulates base runner depth (fun stack => condition.push (.block b :: .block a :: stack))
      [.operator .question] (choice walker depth first second condition) Operand.push := by
  refine .operator fun stack => ?_
  rw [operator, conditional, choice, popValue_push, bind_assoc]
  refine (agree_read condition).bindEq fun v => ?_
  rw [pure_bind]
  dsimp only
  have hbranch : Agree base Eq
      (nested runner depth (if (v.bind Value.toBoolean?).getD false then a else b))
      (within walker depth (if (v.bind Value.toBoolean?).getD false then first else second)) := by
    by_cases hholds : (v.bind Value.toBoolean?).getD false
    · rw [if_pos hholds, if_pos hholds]
      exact agree_within hwalker depth hfirst hfirstPlain
    · rw [if_neg hholds, if_neg hholds]
      exact agree_within hwalker depth hsecond hsecondPlain
  exact hbranch.bindEq fun execution => agree_ofResult execution.last stack

variable (hbodies : PlainBodies base)

include hbodies

theorem agree_callFormula {f f' : Function} (h : FunctionAlike base f f')
    {parameters : List String} {text : String} (hbody : f.body = .formula parameters text)
    (args : List Value) :
    Agree base Eq (Machine.callFormula runner depth f parameters text args)
      (callFormula walker depth f' parameters text args) := by
  rw [callFormula_eq]
  refine agree_environment.bind fun env env' henv => ?_
  have hbodyOf : bodyOf env'.registry text = bodyOf base text := by
    refine bodyOf_congr ?_ text
    rw [← henv.reset', Registry.reset_reset]
  rw [henv.maxDepth, Function.name_eq_of_uncompiled h.same, hbodyOf]
  split
  · exact agree_pure rfl
  · refine (agree_formulaProgram h hbody).bind ?_
    rintro _ - ⟨-, rfl⟩
    rw [compileText_eq]
    cases hread : bodyOf base text with
    | error e => exact agree_pure rfl
    | ok body =>
      obtain ⟨program, hcompile, hemits⟩ := emits_of_bodyOf hread
      have hplain : body.isPlain := by
        refine hbodies f.uncompiled h.isOf.mem parameters text hbody body hread
      have hid := Function.id_eq_of_uncompiled h.same
      have hprogram : (Except.ok body >>= compile base) = .ok program := hcompile
      rw [hprogram]
      exact (agree_inFrame hid _ (agree_within hwalker (depth + 1) hemits hplain)).bindEq
        fun _ => agree_pure rfl

theorem agree_apply {f f' : Function} (h : FunctionAlike base f f') (args : List Value) :
    Agree base Eq (Machine.apply runner depth f args) (apply walker depth f' args) := by
  have hbody := Function.body_eq_of_uncompiled h.same
  rw [Machine.apply, apply, h.validate_eq, ← hbody]
  cases f'.validate args with
  | error e => exact agree_pure rfl
  | ok _ =>
    cases hformula : f.body with
    | formula parameters text =>
      exact agree_callFormula hwalker depth hbodies h hformula args
    | native | object => exact h.agree_invoke args

/-- The function that a name is compiled to is found by its number, and is the one that the name
means to the walker. -/
theorem agree_call {name : String} {count : Nat} {f : Function}
    (hf : choose base name count = .ok f) (operands : List Operand) (stack : Stack) :
    Agree base (fun after operand => after = operand.push stack)
      (Machine.call runner depth name (some f.id)
        (pushAll (operands ++ List.replicate (f.arity - count) (.value .null))
          (.openCall :: stack)))
      (call walker depth name count operands) := by
  rw [Machine.call, splitCall_pushAll]
  refine agree_environment.bind fun env env' henv => ?_
  obtain ⟨g, g', hfind, hchoose, halike, hsame⟩ := find?_of_choose henv hf
  have harity : g'.arity = f.arity := by rw [← hsame]; rfl
  simp only [Option.bind_some, hfind, hchoose, harity, ← readArguments_map_slot]
  refine (agree_readArguments halike 0 _).bindEq fun args => ?_
  cases args with
  | none => exact agree_pure rfl
  | some args =>
    have hresult := (agree_apply hwalker depth hbodies halike args).bindEq fun result =>
      agree_ofResult result stack
    simpa only [bind_assoc] using hresult

theorem simulates_call {name : String} {count : Nat} {f : Function}
    (hf : choose base name count = .ok f) (operands : List Operand) :
    Simulates base runner depth (fun stack => pushAll operands (.openCall :: stack))
      (List.replicate (f.arity - count) (.value .null) ++ [Instruction.call name (some f.id)])
      (call walker depth name count operands) Operand.push := by
  refine ⟨fun more stack k hk => ?_⟩
  rw [List.append_assoc, perform_values, List.singleton_append, perform_call, ← pushAll_append]
  refine (agree_call hwalker depth hbodies hf operands stack).bind fun after operand hafter => ?_
  rw [hafter]
  exact hk operand

end Runner

end Reckoner.Walk
