import Reckoner.Proofs.Machine.Flat
import Reckoner.Proofs.Session.Changes

/-!
What frames do for a session. Calls that save and restore one flat list of variables would give the
same values, the same failure and the same variables.
-/

namespace Reckoner.Session

open Machine Program Registry

def HasDistinctParameters (s : Session) : Prop :=
  ∀ f ∈ s.env.registry.functions, ∀ parameters text, f.body = .formula parameters text →
    parameters.Nodup

def savingExecution (fuel : Nat) (s : Session) (program : Program) :
    Option (Execution × Session) :=
  (runBy savingCall fuel 0 program s.env []).map fun (e, env, _) => (e, { s with env })

variable {s₀ s : Session}

theorem exists_emits_of_compileText {text : String} {program : Program}
    (h : (s.compileText text).1 = .ok program) : ∃ tree, Emits s.env.registry tree program :=
  emits_of_compileText ((compileText_fst s text).symm.trans h)

/-- The functions that a program calls have the arguments that they had when it was compiled. -/
theorem isCallable_of_steps (hs₀ : Reachable s₀) (hsteps : Relation.ReflTransGen Step s₀ s) :
    IsCallable s₀.env.registry s.env.registry.reset := by
  intro name count f hf g hg hid
  have hcoherent := coherent_of_reachable hs₀
  obtain ⟨hmem, -⟩ := exists_function_of_choose hf
  obtain ⟨g', hg', rfl⟩ := List.mem_map.1 hg
  have hnumber : g'.id.number < s₀.env.registry.next := by
    have hid : g'.id = f.id := hid
    rw [hid]
    exact hcoherent.numbered f hmem
  obtain ⟨f', hf', hsame⟩ := (keeps_of_steps hs₀ hsteps).2.kept g' hg' hnumber
  have heq : f' = f :=
    hcoherent.eq_of_id_eq hf' hmem ((Function.id_eq_of_uncompiled hsame).trans hid)
  rw [← heq, Function.eq_of_uncompiled hsame]
  rfl

theorem hasOwnParameters_of_reachable (hs : Reachable s) (hdistinct : s.HasDistinctParameters) :
    HasOwnParameters s.env.registry.reset := by
  intro f hf parameters text hbody
  obtain ⟨f', hf', rfl⟩ := List.mem_map.1 hf
  exact ⟨hdistinct f' hf' parameters text hbody,
    isFitted_of_reachable hs f' hf' parameters text hbody⟩

/-- The frames of calls are as good as saving and restoring variables. Take any program that was
compiled from a text by the session or before, a session without shared variables whose formulas
have different parameters and whose natives look up variables by name only, and a flat list of
variables where every name means what it does in the session. Then the run of the program in frames
and the run that saves and restores that list give the same values and the same failure, or both
need more fuel, and every name means the same after them. -/
theorem execution_rel_savingExecution (hs₀ : Reachable s₀)
    (hsteps : Relation.ReflTransGen Step s₀ s) {text : String} {program : Program}
    (hprogram : (s₀.compileText text).1 = .ok program) (hdistinct : s.HasDistinctParameters)
    (hbyName : ∀ names, s.env.registry.Ignores (·.withNames names))
    (howns : s.env.scope.OwnsAll) {flat : Scope} (hflat : flat.IsFlat)
    (hsame : ∀ name, s.value? name = flat.get? name) (fuel : Nat) :
    Option.Rel
      (fun result result' => result.1 = result'.1 ∧
        ∀ name, result.2.value? name = result'.2.value? name)
      (s.execution fuel program) ((s.withScope flat).savingExecution fuel program) := by
  obtain ⟨tree, hemits⟩ := exists_emits_of_compileText hprogram
  obtain ⟨hs, -⟩ := keeps_of_steps hs₀ hsteps
  have hcoherent := coherent_of_reachable hs
  have hstart : Flattens s.env.registry.reset s.env s.env (s.withScope flat).env :=
    ⟨.refl hcoherent, hsame, howns, hflat, .refl _,
      fun names => Registry.ignores_reset.2 (hbyName names)⟩
  have hruns := emittedBeside_runBy (Registry.coherent_reset hcoherent).distinct
    (hasOwnParameters_of_reachable hs hdistinct) fuel s₀.env.registry
    (isCallable_of_steps hs₀ hsteps) tree program hemits 0 s.env _ [] [] hstart
  rw [runBy_callFormula] at hruns
  unfold execution savingExecution
  generalize Machine.run fuel 0 program s.env [] = o at hruns ⊢
  generalize runBy savingCall fuel 0 program (s.withScope flat).env [] = o' at hruns ⊢
  cases hruns with
  | some hresult => exact .some ⟨rfl, hresult.same⟩
  | none => exact .none
  | short hlax => exact hlax.elim

def withShadow : Session :=
  { env :=
      { scope := { globals := [⟨"x", .own (.integer 1)⟩] }
        registry :=
          ⟨[⟨⟨0⟩, "f", .formula ["x"] "(x = x + 1) + g()", ⟨[Kinds.any], false⟩, false, none⟩,
            ⟨⟨1⟩, "g", .formula [] "x", ⟨[], false⟩, false, none⟩], 2⟩ } }

/-- The parameter hides the variable of its name from what the call calls, and gives it back. -/
theorem savingExecution_of_shadow :
    Option.Rel
        (fun result result' => result.1 = result'.1 ∧
          ∀ name, result.2.value? name = result'.2.value? name)
        (withShadow.execution 3 [.openCall, .value (.integer 4), .call "f" (some ⟨0⟩)])
        (withShadow.savingExecution 3 [.openCall, .value (.integer 4), .call "f" (some ⟨0⟩)]) ∧
      (withShadow.execution 3 [.openCall, .value (.integer 4), .call "f" (some ⟨0⟩)]).map
          (fun result => (result.1, result.2.value? "x")) =
        some (⟨[.integer 10], none⟩, some (.integer 1)) := by
  have hdefined : withShadow.env.registry =
      ((Session.empty.define "f(x) = (x = x + 1) + g()").2.define "g() = x").2.env.registry := by
    cbv
  have hreachable : Reachable withShadow :=
    ((Reachable.empty.step (.define _ "f(x) = (x = x + 1) + g()")).step
      (.define _ "g() = x")).step (.other hdefined)
  have hprogram : (withShadow.compileText "f(4)").1 =
      .ok [.openCall, .value (.integer 4), .call "f" (some ⟨0⟩)] := by cbv
  have hdistinct : withShadow.HasDistinctParameters := by
    intro f hf parameters text hbody
    simp only [withShadow, List.mem_cons, List.not_mem_nil, or_false] at hf
    rcases hf with rfl | rfl <;> cases hbody <;> decide
  have hflat : withShadow.env.scope.IsFlat := by
    refine ⟨rfl, ?_, List.forall_mem_nil _⟩
    intro v hv
    rw [List.mem_singleton.1 hv]
    exact ⟨.integer 1, rfl⟩
  have hformulas : ∀ f ∈ withShadow.env.registry.functions, f.isFormula := by decide
  refine ⟨?_, by cbv⟩
  exact execution_rel_savingExecution hreachable .refl hprogram hdistinct
    (fun names => Registry.ignores_of_isFormula hformulas (·.withNames names)) hflat.ownsAll hflat
    (fun _ => rfl) 3

end Reckoner.Session
