import Reckoner.Proofs.Machine.Beside
import Reckoner.Proofs.Scope.Frames

/-!
More fuel and another journal. A run that has enough fuel does the same with more, whatever its host
noticed before. On its way no variable is lost, and the functions stay the same but for what is
compiled.
-/

namespace Reckoner.Machine

structure Extends (start env env' : Environment) : Prop where
  same : env' = env
  reset : env.registry.reset = start.registry.reset
  grows : start.scope.Grows env.scope

variable {start : Environment} {runner runner' : Runner} {depth : Nat}

theorem Extends.refl (env : Environment) : Extends env env env := ⟨rfl, rfl, .refl _⟩

theorem isBased_extends : IsBased Extends where
  restart h := ⟨h.same, rfl, .refl _⟩
  trans h h' := ⟨h'.same, h'.reset.trans h.reset, h.grows.trans h'.grows⟩

theorem isKept_extends (start : Environment) : IsKept True (Beside (Extends start)) := by
  refine isKept_beside (fun name s s' h => ?_) fun name v s s' h => ?_
  · have henv := h.env.same
    simp only [readName, bind_eq, environment, henv]
    cases s.env.scope.find? name with
    | none => exact .done rfl ⟨h.env, by simp only [h.failure]⟩
    | some found =>
      obtain ⟨_, storage⟩ := found
      cases storage with
      | own value => exact .done rfl h
      | shared id => exact .done rfl ⟨h.env, h.failure⟩
  · have henv := h.env.same
    simp only [writeName, bind_eq, environment, henv]
    cases hset : s.env.scope.set name v with
    | error e => exact .done rfl ⟨h.env, by simp only [h.failure]⟩
    | ok scope =>
      have hafter : Extends start { s.env with scope } { s.env with scope } :=
        ⟨rfl, h.env.reset, h.env.grows.trans (Scope.grows_set hset)⟩
      cases s.env.scope.find? name with
      | none => exact .done rfl ⟨hafter, h.failure⟩
      | some found =>
        obtain ⟨_, storage⟩ := found
        cases storage <;> exact .done rfl ⟨hafter, h.failure⟩

theorem mirrors_formulaProgram_extends (f : Function) (text : String) :
    Mirrors True (Beside (Extends start)) Eq (formulaProgram f text) (formulaProgram f text) := by
  intro s s' h
  have henv := h.env.same
  unfold formulaProgram
  cases f.compiled with
  | some program => exact .done rfl h
  | none =>
    simp only [bind_eq, environment, henv]
    cases compileText s.env.registry text with
    | error e => exact .done rfl h
    | ok program =>
      refine .done rfl ⟨⟨rfl, ?_, h.env.grows⟩, h.failure⟩
      exact (Registry.reset_setCompiled _ _ _).trans h.env.reset

/-- Frames come and go. -/
theorem mirrors_callFormula_extends
    (hrunner : ∀ depth program, RunBeside True Extends runner runner' depth program)
    (f : Function) (parameters : List String) (text : String) (args : List Value) :
    Mirrors True (Beside (Extends start)) Eq (callFormula runner depth f parameters text args)
      (callFormula runner' depth f parameters text args) := by
  rw [callFormula_eq_callBetween]
  refine mirrors_callBetween rfl (fun env env' h => by rw [h.same]) ?_ ?_ ?_
  · refine (mirrors_formulaProgram_extends f text).mono ?_
    rintro compiled _ rfl
    exact ⟨rfl, fun program _ => hrunner (depth + 1) program⟩
  · intro env env' h
    rw [h.same]
    exact .refl _
  · intro env env' after after' h hafter
    rw [hafter.same]
    exact ⟨rfl, hafter.reset.trans h.reset, h.grows.trans (Scope.grows_pop hafter.grows)⟩

theorem mirrors_perform_extends
    (hrunner : ∀ depth program, RunBeside True Extends runner runner' depth program)
    (program : Program) (stack : Stack) :
    Mirrors True (Beside (Extends start)) Eq (perform runner depth program stack)
      (perform runner' depth program stack) := by
  have hR := isKept_extends start
  rw [← performBy_callFormula, ← performBy_callFormula]
  refine mirrors_performBy hR (fun program => mirrors_nested isBased_extends
    (hrunner depth program) start) (fun name target stack => ?_) program stack
  have hunseen (f : Function) : Unseen (Beside (Extends start)) f :=
    unseen_of_view (fun s s' h => by rw [h.env.same]) f
  refine mirrors_callBy (F := Eq) hR (fun _ _ h => by rw [h]) (fun f _ _ => hunseen f)
    (fun s s' h => ?_) ?_
  · rw [h.env.same]
    cases target.bind s.env.registry.find? with
    | none => exact .none
    | some f => exact .some rfl
  · rintro slots rest f _ parameters text args - rfl - -
    exact mirrors_callFormula_extends hrunner f parameters text args

/-- A run that has enough fuel does the same with more, and any journal may be there before. -/
theorem runBeside_run {fuel fuel' : Nat} (hle : fuel ≤ fuel') (depth : Nat) (program : Program) :
    RunBeside True Extends (run fuel) (run fuel') depth program := by
  induction fuel generalizing fuel' depth program with
  | zero => exact fun _ _ _ _ _ => .short trivial _
  | succ fuel ih =>
    cases fuel' with
    | zero => exact absurd hle (Nat.not_succ_le_zero fuel)
    | succ fuel' =>
      intro env env' journal journal' henv
      have hrunner (depth : Nat) (program : Program) :=
        ih (Nat.le_of_succ_le_succ hle) depth program
      rw [run, run, ← runWithBy_callFormula]
      refine runsBeside_of_mirrors ?_ henv journal journal'
      simp only [performBy_callFormula]
      exact (mirrors_perform_extends hrunner program []).bindEq fun stack =>
        mirrors_collect (isKept_extends env) stack.reverse

end Reckoner.Machine
