import Reckoner.Proofs.Machine.Caller

/-!
Runs side by side. What relates the environments of two runs may depend on the environment that the
first one started in, as what a run leaves alone does. A formula is called between two changes of
the scope, one that makes room for its parameters and one that takes them back.
-/

namespace Reckoner.Machine

structure Beside (E : Environment → Environment → Prop) (s s' : State) : Prop where
  env : E s.env s'.env
  failure : s.failure = s'.failure

/-- Both runs give the same and leave related environments. If `lax` holds, the first one may lack
fuel where the second does not. -/
inductive RunsBeside (lax : Prop) (E : Environment → Environment → Prop) :
    Option (Execution × Environment × List Event) →
      Option (Execution × Environment × List Event) → Prop where
  | some {execution : Execution} {env env' : Environment} {journal journal' : List Event}
      (h : E env env') :
      RunsBeside lax E (some (execution, env, journal)) (some (execution, env', journal'))
  | none : RunsBeside lax E none none
  | short (hlax : lax) (o : Option (Execution × Environment × List Event)) :
      RunsBeside lax E none o

/-- A relation that may depend on where a run started, and allows to start again at any time. -/
structure IsBased (E : Environment → Environment → Environment → Prop) : Prop where
  restart {start env env' : Environment} (h : E start env env') : E env env env'
  trans {start env env' after after' : Environment} (h : E start env env')
    (h' : E env after after') : E start after after'

def RunBeside (lax : Prop) (E : Environment → Environment → Environment → Prop)
    (runner runner' : Runner) (depth : Nat) (program : Program) : Prop :=
  ∀ env env' journal journal', E env env env' →
    RunsBeside lax (E env) (runner depth program env journal) (runner' depth program env' journal')

variable {lax : Prop} {E : Environment → Environment → Environment → Prop}
  {runner runner' : Runner} {depth : Nat}

/-- Failures and events have no part in the relation. -/
theorem isKept_beside {E : Environment → Environment → Prop}
    (hread : ∀ name, Mirrors lax (Beside E) Eq (readName name) (readName name))
    (hwrite : ∀ name v, Mirrors lax (Beside E) Eq (writeName name v) (writeName name v)) :
    IsKept lax (Beside E) where
  note _ _ _ h := .done rfl ⟨h.env, h.failure⟩
  report error _ _ h := .done rfl ⟨h.env, congrArg (·.set error) h.failure⟩
  readName := hread
  writeName := hwrite

theorem mirrors_nested (hE : IsBased E) {program : Program}
    (hrun : RunBeside lax E runner runner' depth program) (start : Environment) :
    Mirrors lax (Beside (E start)) Eq (nested runner depth program)
      (nested runner' depth program) := by
  intro s s' h
  have hrel := hrun s.env s'.env s.journal s'.journal (hE.restart h.env)
  rw [nested, nested]
  generalize runner depth program s.env s.journal = o at hrel ⊢
  generalize runner' depth program s'.env s'.journal = o' at hrel ⊢
  cases hrel with
  | some hresult => exact .done rfl ⟨hE.trans h.env hresult, h.failure⟩
  | none => exact .outOfFuel
  | short hlax => exact .short hlax _

/-- Work that starts without a failure. -/
theorem runsBeside_of_mirrors {formula formula' : FormulaCall} {program : Program}
    {E : Environment → Environment → Prop}
    (hwork : Mirrors lax (Beside E) Eq
      (do let stack ← performBy formula runner depth program []
          collect stack.reverse)
      (do let stack ← performBy formula' runner' depth program []
          collect stack.reverse))
    {env env' : Environment} (henv : E env env') (journal journal' : List Event) :
    RunsBeside lax E (runWithBy formula runner depth program env journal)
      (runWithBy formula' runner' depth program env' journal') := by
  have hrel := @hwork ⟨env, journal, FirstError.none⟩ ⟨env', journal', FirstError.none⟩ ⟨henv, rfl⟩
  simp only [runWithBy]
  generalize (performBy formula runner depth program [] >>= fun stack =>
    collect stack.reverse) ⟨env, journal, FirstError.none⟩ = o at hrel ⊢
  generalize (performBy formula' runner' depth program [] >>= fun stack =>
    collect stack.reverse) ⟨env', journal', FirstError.none⟩ = o' at hrel ⊢
  cases hrel with
  | done hQ h =>
    cases hQ
    simp only [h.failure]
    exact .some h.env
  | stopped error h => exact .some h.env
  | outOfFuel => exact .none
  | short hlax => exact .short hlax _

/-- Calls a formula unless that is too deep. The body runs in the scope that `enter` makes from the
one before, and `leave` goes on from both the one before and the one after. -/
def callBetween (enter : List String → List Value → Scope → Scope)
    (leave : List String → (before after : Scope) → Scope) : FormulaCall :=
  fun runner depth f parameters text args => do
    let env ← environment
    if env.maxDepth.any (· ≤ depth) then
      return .error (.other s!"Maximum call depth exceeded in '{f.name}'")
    else
      match ← formulaProgram f text with
      | .error error => return .error error
      | .ok program =>
        let env ← environment
        let before := env.scope
        let inner := enter parameters args before
        setEnvironment { env with scope := inner }
        note (.entered f.id inner.depth)
        let execution ← nested runner (depth + 1) program
        let env ← environment
        setEnvironment { env with scope := leave parameters before env.scope }
        note (.left f.id)
        return execution.last

/-- Both bodies run in related scopes, and leave such scopes behind. -/
theorem mirrors_callBetween {enter enter' : List String → List Value → Scope → Scope}
    {leave leave' : List String → (before after : Scope) → Scope} {f f' : Function}
    {parameters : List String} {text : String} {args : List Value} {start : Environment}
    (hname : f.name = f'.name)
    (hdepth : ∀ env env', E start env env' → env.maxDepth = env'.maxDepth)
    (hprogram : Mirrors lax (Beside (E start))
      (fun compiled compiled' => compiled = compiled' ∧
        ∀ program, compiled = .ok program → RunBeside lax E runner runner' (depth + 1) program)
      (formulaProgram f text) (formulaProgram f' text))
    (henter : ∀ env env', E start env env' →
      E { env with scope := enter parameters args env.scope }
        { env with scope := enter parameters args env.scope }
        { env' with scope := enter' parameters args env'.scope })
    (hleave : ∀ env env' after after', E start env env' →
      E { env with scope := enter parameters args env.scope } after after' →
      E start { after with scope := leave parameters env.scope after.scope }
        { after' with scope := leave' parameters env'.scope after'.scope }) :
    Mirrors lax (Beside (E start)) Eq (callBetween enter leave runner depth f parameters text args)
      (callBetween enter' leave' runner' depth f' parameters text args) := by
  intro s s' h
  simp only [callBetween, bind_eq, environment]
  rw [hdepth _ _ h.env, hname]
  split
  · exact .done rfl h
  · refine (hprogram.bind (P := Eq) ?_) h
    rintro compiled _ ⟨rfl, hrun⟩ t t' ht
    cases compiled with
    | error e => exact .done rfl ht
    | ok program =>
      have hrel := hrun program rfl _ _
        (.entered f.id (enter parameters args t.env.scope).depth :: t.journal)
        (.entered f'.id (enter' parameters args t'.env.scope).depth :: t'.journal)
        (henter _ _ ht.env)
      simp only [setEnvironment, note, bind_eq, nested, environment, pure_eq]
      revert hrel
      generalize runner (depth + 1) program _ _ = o
      generalize runner' (depth + 1) program _ _ = o'
      intro hrel
      cases hrel with
      | some hafter => exact .done rfl ⟨hleave _ _ _ _ ht.env hafter, ht.failure⟩
      | none => exact .outOfFuel
      | short hlax => exact .short hlax _

/-- The machine gives the parameters a frame of their own. -/
theorem callFormula_eq_callBetween :
    callFormula = callBetween (fun parameters args scope => scope.push (parameters.zip args))
      (fun _ _ after => after.pop) := rfl

end Reckoner.Machine
