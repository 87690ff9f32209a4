import Reckoner.Proofs.Machine.Launches
import Reckoner.Proofs.Scope.Frames

/-!
What outlives a run. A relation between environments that outlives single writes, and the coming and
going of what is nested, holds between the start of a run and every moment of it.
-/

namespace Reckoner.Machine

theorem MayWrite.maxDepth_eq {env env' : Environment} (h : MayWrite env env') :
    env'.maxDepth = env.maxDepth := by
  cases h <;> rfl

theorem MayWrite.registry_eq {env env' : Environment} (h : MayWrite env env') :
    env'.registry = env.registry := by
  cases h <;> rfl

namespace Inner

variable (inner : Inner) (program : Program) (env : Environment)

@[simp] theorem maxDepth_enter : (inner.enter program env).maxDepth = env.maxDepth := by
  cases inner <;> rfl

@[simp] theorem maxDepth_leave : (inner.leave env).maxDepth = env.maxDepth := by
  cases inner <;> rfl

end Inner

structure IsSteady (E : Environment → Environment → Prop) : Prop where
  refl (env : Environment) : E env env
  trans {env env' env'' : Environment} (h : E env env') (h' : E env' env'') : E env env''
  write {env env' : Environment} (h : MayWrite env env') : E env env'
  /-- Between the start of what is nested and its end the relation holds, and so it does for the
  instruction. -/
  nested (inner : Inner) (program : Program) {env env' : Environment}
    (h : E (inner.enter program env) env') : E env (inner.leave env')

/-- Frames that come go again, and globals are only added. -/
theorem isSteady_continues : IsSteady fun env env' => env.scope.Continues env'.scope where
  refl env := .refl env.scope
  trans h h' := h.trans h'
  write h := by
    cases h with
    | nothing => exact .refl _
    | write hset => exact Scope.continues_set hset
  nested inner program env env' h := by
    cases inner with
    | branch body => exact h
    | formula f parameters text args => exact Scope.continues_pop h

namespace Launch

variable {E : Environment → Environment → Prop} {l : Launch} {c c' : Config}

/-- Whatever comes next, at most one variable is written at first. -/
theorem mayWrite_of_next? {half : Turn} {rest : Program} {s : State} (hsound : c.IsSound)
    (hnext : c.next? = some (.done (half, rest) s)) : MayWrite c.state.env s.env := by
  obtain ⟨instruction, more, -, -, hturns⟩ := turnsTo_of_next? hsound hnext
  cases hturns with
  | ended _ hwrite => exact hwrite
  | pending henv => exact henv ▸ .nothing

/-- Nothing is written before something nested runs. -/
theorem env_of_pending {inner : Inner} {below : Stack} {rest : Program} {s : State}
    (hsound : c.IsSound) (hnext : c.next? = some (.done (.pending inner below, rest) s)) :
    s.env = c.state.env := by
  obtain ⟨instruction, more, -, -, hturns⟩ := turnsTo_of_next? hsound hnext
  cases hturns with
  | pending henv => exact henv

theorem env_of_stopped {e : Error} {s : State} (hsound : c.IsSound)
    (hnext : c.next? = some (.stopped e s)) : s.env = c.state.env := by
  obtain ⟨instruction, more, -, -, hturns⟩ := turnsTo_of_next? hsound hnext
  cases hturns with
  | stopped _ henv => exact henv

/-- The values are collected without a change. -/
theorem env_of_ends {execution : Execution} {env : Environment} {journal : List Event}
    (hvisits : l.Visits c) (h : Ends c execution env journal) : env = c.state.env := by
  cases h with
  | collected _ hcollect =>
    obtain ⟨values, ⟨journal', hreads⟩, -⟩ := collect_of_visits hvisits
    rw [hreads] at hcollect
    cases hcollect
    rfl
  | stopped hnext => exact env_of_stopped (isSound_of_visits hvisits) hnext

/-- A steady relation holds all the way, when it holds for what is nested. -/
theorem steady_of_visits (hE : IsSteady E)
    (hinner : ∀ (l' : Launch) execution env journal, l'.fuel < l.fuel →
      l'.result = some (execution, env, journal) → E l'.env env)
    (h : l.Visits c) : E l.env c.state.env := by
  refine h.induct (P := fun c => E l.env c.state.env) (hE.refl _) fun c c' hvisits hc hmove => ?_
  have hsound := isSound_of_visits hvisits
  cases hmove with
  | ended hnext => exact hE.trans hc (hE.write (mayWrite_of_next? hsound hnext))
  | refused hnext =>
    dsimp only
    rw [env_of_pending hsound hnext]
    exact hc
  | @returned inner _ _ s program fuel _ _ _ hnext hprogram hfuel hresult =>
    have henv := hinner _ _ _ _ (by rw [hfuel]; exact Nat.lt_succ_self fuel) hresult
    have hpending := hE.nested inner program henv
    rw [env_of_pending hsound hnext] at hpending
    exact hE.trans hc hpending

theorem steady_of_result (hE : IsSteady E) {execution : Execution} {env : Environment}
    {journal : List Event} (h : l.result = some (execution, env, journal)) : E l.env env := by
  induction hfuel : l.fuel using Nat.strongRecOn generalizing l execution env journal with
  | ind fuel ih =>
    obtain ⟨c, hvisits, hends⟩ := result_iff.1 h
    rw [env_of_ends hvisits hends]
    exact steady_of_visits hE
      (fun l' _ _ _ hlt hresult => ih _ (hfuel ▸ hlt) hresult rfl) hvisits

/-- A steady relation holds at every moment. -/
theorem Visits.steady (hE : IsSteady E) (h : l.Visits c) : E l.env c.state.env :=
  steady_of_visits hE (fun _ _ _ _ _ => steady_of_result hE) h

end Launch

end Reckoner.Machine
