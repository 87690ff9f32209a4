import Reckoner.Proofs.Function.Caches
import Reckoner.Proofs.Machine.Mirror

/-!
The machine with its way to call formulas left open. With the calls of the machine this is the
machine itself, and machines that call formulas differently can be set side by side.
-/

namespace Reckoner.Machine

abbrev FormulaCall := (runner : Runner) → (depth : Nat) → Function → (parameters : List String) →
  (text : String) → (args : List Value) → Machine (Except Error Value)

section FormulaCall

variable (formula : FormulaCall)

def applyBy (runner : Runner) (depth : Nat) (f : Function) (args : List Value) :
    Machine (Except Error Value) := do
  match f.validate args with
  | .error error => return .error error
  | .ok () =>
    match f.body with
    | .formula parameters text => formula runner depth f parameters text args
    | _ =>
      let env ← environment
      note (.invoked f.id args)
      return f.invoke env.view args

def callBy (runner : Runner) (depth : Nat) (name : String) (target : Option FunctionId)
    (stack : Stack) : Machine Stack := do
  match splitCall [] stack with
  | none => stop (.other s!"Missing argument marker for '{name}'")
  | some (slots, rest) =>
    let env ← environment
    match target.bind env.registry.find? with
    | none => return (← fail (.unknownFunction name)) :: rest
    | some f =>
      match ← readArguments f 0 slots with
      | none => return .failed :: rest
      | some args => return (← slotOf (← applyBy formula runner depth f args)) :: rest

def performBy (runner : Runner) (depth : Nat) (program : Program) (stack : Stack) :
    Machine Stack :=
  match program with
  | [] => return stack
  | .name name :: more => performBy runner depth more (.name name :: stack)
  | .value v :: more => performBy runner depth more (.value v :: stack)
  | .openCall :: more => performBy runner depth more (.openCall :: stack)
  | .startBlock :: more =>
    match h : splitBlock 0 more with
    | none => stop (.other "Unterminated block")
    | some (body, rest) =>
      have := length_splitBlock h
      performBy runner depth rest (.block body :: stack)
  | .endBlock :: _ => stop (.other "Unmatched end of block")
  | .call name target :: more => do
    let stack ← callBy formula runner depth name target stack
    performBy runner depth more stack
  | .operator op :: more => do
    let stack ← operator runner depth op stack
    performBy runner depth more stack
termination_by program.length

def runWithBy (runner : Runner) : Runner := fun depth program env journal =>
  let work : Machine (List Value) := do
    let stack ← performBy formula runner depth program []
    collect stack.reverse
  match work ⟨env, journal, FirstError.none⟩ with
  | .done values s => some (⟨values, s.failure.held⟩, s.env, s.journal)
  | .stopped error s => some (⟨[], some error⟩, s.env, s.journal)
  | .outOfFuel => none

def runBy : (fuel : Nat) → Runner
  | 0 => fun _ _ _ _ => none
  | fuel + 1 => runWithBy formula (runBy fuel)

end FormulaCall

/-! Running a program by its first instruction. -/

section Perform

variable (formula : FormulaCall) (runner : Runner) (depth : Nat) (stack : Stack)

theorem performBy_nil : performBy formula runner depth [] stack = pure stack := by rw [performBy]

theorem performBy_name (name : String) (more : Program) :
    performBy formula runner depth (.name name :: more) stack =
      performBy formula runner depth more (.name name :: stack) := by rw [performBy]

theorem performBy_value (v : Value) (more : Program) :
    performBy formula runner depth (.value v :: more) stack =
      performBy formula runner depth more (.value v :: stack) := by rw [performBy]

theorem performBy_openCall (more : Program) :
    performBy formula runner depth (.openCall :: more) stack =
      performBy formula runner depth more (.openCall :: stack) := by rw [performBy]

theorem performBy_startBlock {more body rest : Program}
    (h : splitBlock 0 more = some (body, rest)) :
    performBy formula runner depth (.startBlock :: more) stack =
      performBy formula runner depth rest (.block body :: stack) := by
  rw [performBy]
  split
  · next hnone => rw [h] at hnone; cases hnone
  · next body' rest' hsome =>
    rw [h] at hsome
    cases hsome
    rfl

theorem performBy_unterminated {more : Program} (h : splitBlock 0 more = none) :
    performBy formula runner depth (.startBlock :: more) stack =
      stop (.other "Unterminated block") := by
  rw [performBy]
  split
  · rfl
  · next hsome => rw [h] at hsome; cases hsome

theorem performBy_endBlock (more : Program) :
    performBy formula runner depth (.endBlock :: more) stack =
      stop (.other "Unmatched end of block") := by
  rw [performBy]

theorem performBy_call (name : String) (target : Option FunctionId) (more : Program) :
    performBy formula runner depth (.call name target :: more) stack =
      callBy formula runner depth name target stack >>= performBy formula runner depth more := by
  rw [performBy]

theorem performBy_operator (op : Operator) (more : Program) :
    performBy formula runner depth (.operator op :: more) stack =
      operator runner depth op stack >>= performBy formula runner depth more := by rw [performBy]

end Perform

/-! The machine itself. -/

theorem callBy_callFormula : callBy callFormula = call := rfl

theorem performBy_callFormula (runner : Runner) (depth : Nat) (program : Program) (stack : Stack) :
    performBy callFormula runner depth program stack = perform runner depth program stack := by
  fun_induction performBy callFormula runner depth program stack with
  | case1 => rw [perform_nil]
  | case2 stack name more ih => rw [perform_name, ih]
  | case3 stack v more ih => rw [perform_value, ih]
  | case4 stack more ih => rw [perform_openCall, ih]
  | case5 stack more h => rw [perform_unterminated _ _ _ h]
  | case6 stack more body rest h _ ih => rw [perform_startBlock _ _ _ h, ih]
  | case7 stack more => rw [perform_endBlock]
  | case8 stack name target more ih =>
    rw [perform_call, callBy_callFormula]
    exact bind_congr fun stack => ih stack
  | case9 stack op more ih =>
    rw [perform_operator]
    exact bind_congr fun stack => ih stack

theorem runWithBy_callFormula : runWithBy callFormula = runWith := by
  funext runner depth program env journal
  simp only [runWithBy, performBy_callFormula]
  rfl

theorem runBy_callFormula (fuel : Nat) : runBy callFormula fuel = run fuel := by
  induction fuel with
  | zero => rfl
  | succ fuel ih => rw [runBy, run, ih, runWithBy_callFormula]

/-! Two ways to call formulas. -/

section Mirror

variable {lax : Prop} {R : State → State → Prop} (hR : IsKept lax R)
  {formula formula' : FormulaCall} {runner runner' : Runner} {depth : Nat}

include hR

theorem mirrors_applyBy {f f' : Function} {args : List Value}
    (hsame : f.uncompiled = f'.uncompiled) (hunseen : Unseen R f)
    (hformula : ∀ parameters text, f.body = .formula parameters text → Mirrors lax R Eq
      (formula runner depth f parameters text args)
      (formula' runner' depth f' parameters text args)) :
    Mirrors lax R Eq (applyBy formula runner depth f args)
      (applyBy formula' runner' depth f' args) := by
  have hinvoke : Mirrors lax R Eq
      (do let env ← environment; note (.invoked f.id args); return f.invoke env.view args)
      (do let env ← environment; note (.invoked f'.id args); return f'.invoke env.view args) := by
    intro s s' h
    rw [Function.id_eq_of_uncompiled hsame]
    refine (((hR.note (.invoked f'.id args)).bindEq fun _ => mirrors_pure ?_) : Mirrors lax R Eq
      (do note (.invoked f'.id args); return f.invoke s.env.view args)
      (do note (.invoked f'.id args); return f'.invoke s'.env.view args)) h
    rw [hunseen h, Function.eq_of_uncompiled hsame]
    rfl
  have hvalidate : f.validate args = f'.validate args := by
    rw [Function.eq_of_uncompiled hsame]
    rfl
  rw [applyBy, applyBy, hvalidate, ← Function.body_eq_of_uncompiled hsame]
  split
  · exact mirrors_pure rfl
  · split
    · next parameters text hbody => exact hformula parameters text hbody
    · exact hinvoke

/-- Calls of functions that are found to be alike. A formula is called with an argument for each
entry above the mark. -/
theorem mirrors_callBy {F : Function → Function → Prop}
    (hsame : ∀ f f', F f f' → f.uncompiled = f'.uncompiled)
    (hunseen : ∀ f f', F f f' → Unseen R f) {name : String}
    {target : Option FunctionId} {stack : Stack}
    (hfound : ∀ s s', R s s' →
      Option.Rel F (target.bind s.env.registry.find?) (target.bind s'.env.registry.find?))
    (hformula : ∀ slots rest f f' parameters text args, splitCall [] stack = some (slots, rest) →
      F f f' → f.body = .formula parameters text → args.length = slots.length →
      Mirrors lax R Eq (formula runner depth f parameters text args)
        (formula' runner' depth f' parameters text args)) :
    Mirrors lax R Eq (callBy formula runner depth name target stack)
      (callBy formula' runner' depth name target stack) := by
  unfold callBy
  split
  · exact mirrors_stop _
  · next slots rest hsplit =>
    intro s s' h
    have hrel := hfound s s' h
    rw [bind_eq, bind_eq]
    dsimp only [environment]
    generalize target.bind s.env.registry.find? = found at hrel ⊢
    generalize target.bind s'.env.registry.find? = found' at hrel ⊢
    cases hrel with
    | none => exact ((mirrors_fail hR _).bindEq fun _ => mirrors_pure rfl) h
    | @some f f' hF =>
      have hfunctions := hsame f f' hF
      have hsignature : f.signature = f'.signature := by rw [Function.eq_of_uncompiled hfunctions]
      have hread := mirrors_readArguments hR (Function.name_eq_of_uncompiled hfunctions) hsignature
        0 slots
      refine (hread.bind ?_) h
      rintro args _ ⟨rfl, hlength⟩
      cases args with
      | none => exact mirrors_pure rfl
      | some args =>
        refine (mirrors_applyBy hR hfunctions (hunseen f f' hF)
          fun parameters text hbody => ?_).bindEq fun result =>
            (mirrors_slotOf hR result).bindEq fun _ => mirrors_pure rfl
        exact hformula slots rest f f' parameters text args hsplit hF hbody (hlength args rfl)

/-- When all nested runs and all calls keep the relation, so does every program. -/
theorem mirrors_performBy
    (hnested : ∀ program, Mirrors lax R Eq (nested runner depth program)
      (nested runner' depth program))
    (hcall : ∀ name target stack, Mirrors lax R Eq (callBy formula runner depth name target stack)
      (callBy formula' runner' depth name target stack))
    (program : Program) (stack : Stack) :
    Mirrors lax R Eq (performBy formula runner depth program stack)
      (performBy formula' runner' depth program stack) := by
  fun_induction performBy formula runner depth program stack with
  | case1 stack =>
    rw [performBy_nil]
    exact mirrors_pure rfl
  | case2 stack name more ih =>
    rw [performBy_name]
    exact ih
  | case3 stack v more ih =>
    rw [performBy_value]
    exact ih
  | case4 stack more ih =>
    rw [performBy_openCall]
    exact ih
  | case5 stack more h =>
    rw [performBy_unterminated _ _ _ _ h]
    exact mirrors_stop _
  | case6 stack more body rest h _ ih =>
    rw [performBy_startBlock _ _ _ _ h]
    exact ih
  | case7 stack more =>
    rw [performBy_endBlock]
    exact mirrors_stop _
  | case8 stack name target more ih =>
    rw [performBy_call]
    exact (hcall name target stack).bindEq ih
  | case9 stack op more ih =>
    rw [performBy_operator]
    have hbranches := mirrors_operator hR depth op stack
      fun second first _ _ => ⟨hnested first, hnested second⟩
    exact hbranches.bindEq ih

end Mirror

end Reckoner.Machine
