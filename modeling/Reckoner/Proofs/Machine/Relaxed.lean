import Reckoner.Proofs.Function.Caches
import Reckoner.Proofs.Machine.Along

/-!
Runs under another limit. Where no native looks at the limit, nothing but the call of a formula
does, so a run goes the same way under another one as long as the same formulas may be called.
-/

namespace Reckoner

def Environment.withLimit (env : Environment) (limit : Option Nat) : Environment :=
  { env with maxDepth := limit }

namespace Machine

@[simp] theorem Inner.reset_enter (inner : Inner) (program : Program) (env : Environment) :
    (inner.enter program env).registry.reset = env.registry.reset := by
  cases inner with
  | branch body => rfl
  | formula f parameters text args =>
    rw [enter]
    split
    · rfl
    · exact Registry.reset_setCompiled ..

variable {limit : Option Nat}

/-- The environments differ in the limit alone, and no function of the registry looks at that. -/
structure Relaxes (limit : Option Nat) (env env' : Environment) : Prop where
  same : env' = env.withLimit limit
  ignores : env.registry.Ignores (·.withLimit limit)

/-- Steps do not look at the limit. -/
theorem isParallel_relaxes (limit : Option Nat) : IsParallel (Relaxes limit) where
  unseen := by
    rintro env _ ⟨-, hignores⟩ f hf before _ ⟨rfl, -⟩
    exact (hignores f hf before.view).symm
  registry := by
    rintro env _ ⟨rfl, -⟩
    rfl
  find? := by
    rintro env _ ⟨rfl, -⟩ name
    rfl
  cells := by
    rintro env _ ⟨rfl, -⟩
    rfl
  depth := by
    rintro env _ ⟨rfl, -⟩
    rfl
  set := by
    rintro env _ ⟨rfl, hignores⟩ name value
    change (∃ e, _ ∧ env.scope.set name value = .error e) ∨ ∃ scope scope', _ ∧
      env.scope.set name value = .ok scope' ∧ _
    cases env.scope.set name value with
    | error e => exact .inl ⟨e, rfl, rfl⟩
    | ok scope => exact .inr ⟨scope, scope, rfl, rfl, rfl, hignores⟩
  enter := by
    rintro env _ ⟨rfl, hignores⟩ inner program
    cases inner with
    | branch body => exact ⟨rfl, hignores⟩
    | formula f parameters text args =>
      refine ⟨rfl, Registry.ignores_reset.1 ?_⟩
      rw [Inner.reset_enter]
      exact Registry.ignores_reset.2 hignores
  leave := by
    rintro - - after _ - inner - - ⟨rfl, hignores⟩
    cases inner <;> exact ⟨rfl, hignores⟩

namespace Launch

variable {l : Launch}

def Ignores (l : Launch) (limit : Option Nat) : Prop :=
  l.Agrees (Relaxes limit)

/-- A run goes the same way with more fuel and under a limit that it ignores. -/
theorem result_withLimit {execution : Execution} {env : Environment} {journal : List Event}
    {fuel : Nat} (hlimit : l.Ignores limit) (hnatives : l.env.registry.Ignores (·.withLimit limit))
    (hle : l.fuel ≤ fuel) (h : l.result = some (execution, env, journal)) :
    (l.within fuel (l.env.withLimit limit)).result =
      some (execution, env.withLimit limit, journal) := by
  obtain ⟨_, hresult, rfl, -⟩ :=
    result_along (isParallel_relaxes limit) hlimit hle ⟨rfl, hnatives⟩ h
  exact hresult

end Launch

end Machine

end Reckoner
