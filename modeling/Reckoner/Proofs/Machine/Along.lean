import Reckoner.Proofs.Machine.Steady

/-!
Runs along another one. Environments may differ in what no step looks at. As long as whatever a step
does to both of them leaves such environments again, both runs go the same way, with all that is
nested in them.
-/

namespace Reckoner.Machine

/-- Related environments look the same to a step, and are related behind it. -/
structure IsParallel (E : Environment → Environment → Prop) : Prop where
  /-- No function that is registered can tell related environments apart. -/
  unseen {env env' : Environment} (h : E env env') : ∀ f ∈ env.registry.functions,
    ∀ ⦃before before'⦄, E before before' → f.invoke before.view = f.invoke before'.view
  registry {env env' : Environment} (h : E env env') : env'.registry = env.registry
  find? {env env' : Environment} (h : E env env') (name : String) :
    env'.scope.find? name = env.scope.find? name
  cells {env env' : Environment} (h : E env env') : env'.scope.cells = env.scope.cells
  depth {env env' : Environment} (h : E env env') : env'.scope.depth = env.scope.depth
  set {env env' : Environment} (h : E env env') (name : String) (value : Value) :
    (∃ e, env.scope.set name value = .error e ∧ env'.scope.set name value = .error e) ∨
      ∃ scope scope', env.scope.set name value = .ok scope ∧
        env'.scope.set name value = .ok scope' ∧
        E { env with scope } { env' with scope := scope' }
  enter {env env' : Environment} (h : E env env') (inner : Inner) (program : Program) :
    E (inner.enter program env) (inner.enter program env')
  leave {env env' after after' : Environment} (h : E env env') (inner : Inner) (program : Program)
    (hcontinues : (inner.enter program env).scope.Continues after.scope) (hafter : E after after') :
    E (inner.leave after) (inner.leave after')

structure State.Along (E : Environment → Environment → Prop) (s s' : State) : Prop where
  env : E s.env s'.env
  journal : s'.journal = s.journal
  failure : s'.failure = s.failure

structure Config.Along (E : Environment → Environment → Prop) (c c' : Config) : Prop where
  program : c'.program = c.program
  stack : c'.stack = c.stack
  state : c.state.Along E c'.state

def Launch.within (l : Launch) (fuel : Nat) (env : Environment) : Launch := { l with fuel, env }

section Mirror

variable {α : Type} {R : State → State → Prop} {m : Machine α} {s s' t : State}

theorem Mirrors.exists_done (hm : Mirrors False R Eq m m) (hR : R s s') {a : α}
    (h : m s = .done a t) : ∃ t', m s' = .done a t' ∧ R t t' := by
  have hrel := hm hR
  rw [h] at hrel
  generalize m s' = o at hrel ⊢
  cases hrel with
  | done heq hR => exact ⟨_, by rw [heq], hR⟩

theorem Mirrors.exists_stopped (hm : Mirrors False R Eq m m) (hR : R s s') {e : Error}
    (h : m s = .stopped e t) : ∃ t', m s' = .stopped e t' ∧ R t t' := by
  have hrel := hm hR
  rw [h] at hrel
  generalize m s' = o at hrel ⊢
  cases hrel with
  | stopped _ hR => exact ⟨_, rfl, hR⟩

end Mirror

variable {E : Environment → Environment → Prop}

theorem read_along (hE : IsParallel E) {env env' : Environment} (h : E env env') :
    env'.scope.read = env.scope.read := by
  funext v
  simp only [Scope.read, Scope.cell?, hE.cells h]

theorem isKept_along (hE : IsParallel E) : IsKept False (State.Along E) where
  note event s s' h := .done rfl ⟨h.env, congrArg (event :: ·) h.journal, h.failure⟩
  report error s s' h := .done rfl ⟨h.env, h.journal, congrArg (·.set error) h.failure⟩
  readName name s s' h := by
    simp only [readName, bind_eq, environment, hE.find? h.env name, read_along hE h.env]
    cases s.env.scope.find? name with
    | none => exact .done rfl ⟨h.env, h.journal, by simp only [h.failure]⟩
    | some found =>
      obtain ⟨_, storage⟩ := found
      cases storage with
      | own value => exact .done rfl h
      | shared id => exact .done rfl ⟨h.env, congrArg (.read id :: ·) h.journal, h.failure⟩
  writeName name v s s' h := by
    simp only [writeName, bind_eq, environment, hE.find? h.env name]
    rcases hE.set h.env name v with ⟨e, hset, hset'⟩ | ⟨scope, scope', hset, hset', hafter⟩
    · rw [hset, hset']
      exact .done rfl ⟨h.env, h.journal, congrArg (·.set e) h.failure⟩
    · rw [hset, hset']
      cases s.env.scope.find? name with
      | none => exact .done rfl ⟨hafter, h.journal, h.failure⟩
      | some found =>
        obtain ⟨_, storage⟩ := found
        cases storage with
        | own value => exact .done rfl ⟨hafter, h.journal, h.failure⟩
        | shared id => exact .done rfl ⟨hafter, congrArg (.wrote id v :: ·) h.journal, h.failure⟩

namespace Launch

variable {l l' : Launch} {c c' d : Config} {fuel : Nat} {env env' : Environment}

def Agrees (l : Launch) (E : Environment → Environment → Prop) : Prop :=
  ∀ ⦃l' c inner below rest s env'⦄, l.Makes l' → l'.Visits c →
    c.next? = some (.done (.pending inner below, rest) s) → E s.env env' →
    inner.program l'.depth env' = inner.program l'.depth s.env

theorem Agrees.nests (h : l.Agrees E) (hnests : l.Nests l') : l'.Agrees E :=
  fun _ _ _ _ _ _ _ hmakes => h (.head hnests hmakes)

/-- Nothing but the registry and the limit tells which program there is. -/
theorem agrees_of_maxDepth (hE : IsParallel E)
    (hmax : ∀ env env', E env env' → env'.maxDepth = env.maxDepth) (l : Launch) : l.Agrees E := by
  intro l' c inner below rest s env' _ _ _ h
  cases inner with
  | branch body => rfl
  | formula f parameters text args =>
    rw [Inner.program, Inner.program, hmax _ _ h, hE.registry h]

theorem Nests.fuel_lt (h : l.Nests l') : l'.fuel < l.fuel := by
  cases h with
  | intro _ _ _ hfuel =>
    rw [hfuel]
    exact Nat.lt_succ_self _

section IsParallel

variable (hE : IsParallel E)

include hE

theorem mirrors_turn_along (instruction : Instruction) (more : Program) (stack : Stack) :
    Mirrors False (State.Along E) Eq (turn instruction more stack) (turn instruction more stack) :=
  mirrors_turn (isKept_along hE) (fun _ _ h => (hE.registry h.env).symm)
    (fun _ _ h f hf _ _ hR => hE.unseen h.env f hf hR.env) instruction more stack

theorem next?_done_along (h : c.Along E c') {a : Turn × Program} {s : State}
    (hnext : c.next? = some (.done a s)) : ∃ s', c'.next? = some (.done a s') ∧ s.Along E s' := by
  rw [Config.next?, h.program, h.stack]
  rw [Config.next?] at hnext
  split at hnext
  · cases hnext
  · next instruction more _ =>
    obtain ⟨s', hturn, hs⟩ := (mirrors_turn_along hE instruction more c.stack).exists_done h.state
      (Option.some.inj hnext)
    exact ⟨s', congrArg some hturn, hs⟩

theorem next?_stopped_along (h : c.Along E c') {e : Error} {s : State}
    (hnext : c.next? = some (.stopped e s)) :
    ∃ s', c'.next? = some (.stopped e s') ∧ s.Along E s' := by
  rw [Config.next?, h.program, h.stack]
  rw [Config.next?] at hnext
  split at hnext
  · cases hnext
  · next instruction more _ =>
    obtain ⟨s', hturn, hs⟩ := (mirrors_turn_along hE instruction more c.stack).exists_stopped
      h.state (Option.some.inj hnext)
    exact ⟨s', congrArg some hturn, hs⟩

theorem ends_along (h : c.Along E c') {execution : Execution} {journal : List Event}
    (hends : Ends c execution env journal) :
    ∃ env', Ends c' execution env' journal ∧ E env env' := by
  cases hends with
  | collected hprogram hcollect =>
    obtain ⟨s', hcollect', hs⟩ :=
      (mirrors_collect (isKept_along hE) c.stack.reverse).exists_done h.state hcollect
    rw [← h.stack] at hcollect'
    refine ⟨s'.env, ?_, hs.env⟩
    rw [← hs.failure, ← hs.journal]
    exact .collected (h.program.trans hprogram) hcollect'
  | stopped hnext =>
    obtain ⟨s', hnext', hs⟩ := next?_stopped_along hE h hnext
    refine ⟨s'.env, ?_, hs.env⟩
    rw [← hs.journal]
    exact .stopped hnext'

/-- What is nested starts the same way. -/
theorem launch_along {s s' : State} (h : s.Along E s') (inner : Inner) (fuel fuel' depth : Nat)
    (program : Program) :
    inner.launch fuel' depth program s' =
      (inner.launch fuel depth program s).within fuel' (inner.enter program s'.env) := by
  simp only [Inner.launch, within, h.journal, hE.depth (hE.enter h.env inner program)]

/-- If all that is nested goes the same way, so does every step. -/
theorem moves_along (hagrees : l.Agrees E) (hle : l.fuel ≤ fuel)
    (hinner : ∀ {l' : Launch} {fuel' execution after journal env'}, l.Nests l' → l'.fuel ≤ fuel' →
      E l'.env env' → l'.result = some (execution, after, journal) →
      ∃ after', (l'.within fuel' env').result = some (execution, after', journal) ∧ E after after')
    (hvisits : l.Visits c) (h : c.Along E c') (hmove : l.Moves c d) :
    ∃ d', (l.within fuel env').Moves c' d' ∧ d.Along E d' := by
  cases hmove with
  | ended hnext =>
    obtain ⟨s', hnext', hs⟩ := next?_done_along hE h hnext
    exact ⟨_, .ended hnext', rfl, rfl, hs⟩
  | refused hnext hprogram =>
    obtain ⟨s', hnext', hs⟩ := next?_done_along hE h hnext
    have hprogram' := (hagrees .refl hvisits hnext hs.env).trans hprogram
    exact ⟨_, .refused hnext' hprogram', rfl, rfl, hs.env, hs.journal, by simp only [hs.failure]⟩
  | @returned inner _ _ s program fuel₀ execution _ _ hnext hprogram hfuel hresult =>
    obtain ⟨s', hnext', hs⟩ := next?_done_along hE h hnext
    have hprogram' := (hagrees .refl hvisits hnext hs.env).trans hprogram
    obtain ⟨fuel', rfl⟩ : ∃ fuel', fuel = fuel' + 1 := ⟨fuel - 1, by omega⟩
    obtain ⟨after', hresult', hafter⟩ := hinner (.intro hvisits hnext hprogram hfuel)
      (show fuel₀ ≤ fuel' by omega) (hE.enter hs.env inner program) hresult
    rw [← launch_along hE hs] at hresult'
    refine ⟨_, .returned hnext' hprogram' rfl hresult', rfl, rfl, ?_, rfl,
      congrArg (·.after execution.last) hs.failure⟩
    exact hE.leave hs.env inner program (steady_of_result isSteady_continues hresult) hafter

theorem visits_along (hagrees : l.Agrees E) (hle : l.fuel ≤ fuel) (henv : E l.env env')
    (hinner : ∀ {l' : Launch} {fuel' execution after journal env'}, l.Nests l' → l'.fuel ≤ fuel' →
      E l'.env env' → l'.result = some (execution, after, journal) →
      ∃ after', (l'.within fuel' env').result = some (execution, after', journal) ∧ E after after')
    (h : l.Visits c) : ∃ c', (l.within fuel env').Visits c' ∧ c.Along E c' := by
  refine h.induct (P := fun c => ∃ c', (l.within fuel env').Visits c' ∧ c.Along E c')
    ⟨_, visits_start _, rfl, rfl, henv, rfl, rfl⟩ fun c d hc ⟨c', hc', hcc'⟩ hmove => ?_
  obtain ⟨d', hmove', hdd'⟩ := moves_along hE hagrees hle hinner hc hcc' hmove
  exact ⟨d', hc'.move hmove', hdd'⟩

/-- From a related environment and with no less fuel a run gives the same. -/
theorem result_along {execution : Execution} {journal : List Event} (hagrees : l.Agrees E)
    (hle : l.fuel ≤ fuel) (henv : E l.env env') (h : l.result = some (execution, env, journal)) :
    ∃ after', (l.within fuel env').result = some (execution, after', journal) ∧ E env after' := by
  induction hfuel : l.fuel using Nat.strongRecOn generalizing l execution env journal fuel env' with
  | ind level ih =>
    obtain ⟨c, hc, hends⟩ := result_iff.1 h
    obtain ⟨c', hc', hcc'⟩ := visits_along hE hagrees hle henv
      (fun hnests hle' henv' hresult =>
        ih _ (hfuel ▸ hnests.fuel_lt) (hagrees.nests hnests) hle' henv' hresult rfl) hc
    obtain ⟨after', hends', hafter⟩ := ends_along hE hcc' hends
    exact ⟨after', result_iff.2 ⟨c', hc', hends'⟩, hafter⟩

/-- It comes by the same configurations, but for the environment. -/
theorem Visits.along (h : l.Visits c) (hagrees : l.Agrees E) (hle : l.fuel ≤ fuel)
    (henv : E l.env env') : ∃ c', (l.within fuel env').Visits c' ∧ c.Along E c' :=
  visits_along hE hagrees hle henv
    (fun hnests => result_along hE (hagrees.nests hnests)) h

theorem Nests.along (h : l.Nests l') (hagrees : l.Agrees E) (hle : l.fuel ≤ fuel)
    (henv : E l.env env') : ∃ fuel' after, l'.fuel ≤ fuel' ∧ E l'.env after ∧
      (l.within fuel env').Nests (l'.within fuel' after) := by
  obtain @⟨c, inner, below, rest, s, program, fuel₀, hvisits, hnext, hprogram, hfuel⟩ := h
  obtain ⟨c', hvisits', h⟩ := hvisits.along hE hagrees hle henv
  obtain ⟨s', hnext', hs⟩ := next?_done_along hE h hnext
  have hprogram' := (hagrees .refl hvisits hnext hs.env).trans hprogram
  obtain ⟨fuel', rfl⟩ : ∃ fuel', fuel = fuel' + 1 := ⟨fuel - 1, by omega⟩
  refine ⟨fuel', inner.enter program s'.env, ?_, hE.enter hs.env inner program, ?_⟩
  · change fuel₀ ≤ fuel'
    omega
  · rw [← launch_along hE hs]
    exact .intro hvisits' hnext' hprogram' rfl

/-- So does all that is nested in it. -/
theorem Makes.along (h : l.Makes l') (hagrees : l.Agrees E) (hle : l.fuel ≤ fuel)
    (henv : E l.env env') : ∃ fuel' after, l'.fuel ≤ fuel' ∧ E l'.env after ∧
      (l.within fuel env').Makes (l'.within fuel' after) := by
  induction h using Relation.ReflTransGen.head_induction_on generalizing fuel env' with
  | refl => exact ⟨fuel, env', hle, henv, .refl⟩
  | head hnests _ ih =>
    obtain ⟨fuel₁, after₁, hle₁, henv₁, hnests'⟩ := hnests.along hE hagrees hle henv
    obtain ⟨fuel', after, hle', henv', hmakes⟩ := ih (hagrees.nests hnests) hle₁ henv₁
    exact ⟨fuel', after, hle', henv', .head hnests' hmakes⟩

end IsParallel

end Launch

/-! The same environment. -/

/-- Equal environments look the same. -/
theorem isParallel_eq : IsParallel fun env env' => env' = env where
  unseen _ _ _ _ _ h := by rw [h]
  registry h := congrArg Environment.registry h
  find? h name := congrArg (fun env => env.scope.find? name) h
  cells h := congrArg (fun env => env.scope.cells) h
  depth h := congrArg (fun env => env.scope.depth) h
  set := by
    rintro _ env rfl name value
    cases env.scope.set name value with
    | error e => exact .inl ⟨e, rfl, rfl⟩
    | ok scope => exact .inr ⟨scope, scope, rfl, rfl, rfl⟩
  enter h inner program := congrArg (inner.enter program) h
  leave _ inner _ _ hafter := congrArg inner.leave hafter

/-- A run that has enough fuel does the same with more. -/
theorem run_of_le {fuel fuel' depth : Nat} {program : Program} {env : Environment}
    {journal : List Event} {result : Execution × Environment × List Event} (hle : fuel ≤ fuel')
    (h : run fuel depth program env journal = some result) :
    run fuel' depth program env journal = some result := by
  obtain ⟨execution, after, journal'⟩ := result
  cases fuel with
  | zero => cases h
  | succ fuel =>
    obtain ⟨fuel', rfl⟩ : ∃ more, fuel' = more + 1 := ⟨fuel' - 1, by omega⟩
    obtain ⟨_, hmore, rfl⟩ := Launch.result_along (l := ⟨fuel, depth, program, env, journal⟩)
      isParallel_eq (Launch.agrees_of_maxDepth isParallel_eq (fun _ _ => congrArg _) _)
      (Nat.le_of_succ_le_succ hle) rfl h
    exact hmore

end Reckoner.Machine
