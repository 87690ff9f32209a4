import Reckoner.Proofs.Machine.Attempts

/-!
Runs within a run. A launch is a run with all that it starts from, and each of its steps is either
one instruction alone or waits for another launch. What a step comes to is said once, and every
property of all that happens in a run goes by these steps and, through the launches, by fuel.
-/

namespace Reckoner.Machine

namespace Inner

def depth (depth : Nat) : Inner → Nat
  | branch _ => depth
  | formula .. => depth + 1

def program (depth : Nat) (env : Environment) : Inner → Except Error Program
  | branch body => .ok body
  | formula f _ text _ =>
    if env.maxDepth.any (· ≤ depth) then
      .error (.other s!"Maximum call depth exceeded in '{f.name}'")
    else
      match f.compiled with
      | some program => .ok program
      | none => compileText env.registry text

def enter (program : Program) (env : Environment) : Inner → Environment
  | branch _ => env
  | formula f parameters _ args =>
    { env with
      registry := if f.compiled.isSome then env.registry else env.registry.setCompiled f.id program
      scope := env.scope.push (parameters.zip args) }

def leave (env : Environment) : Inner → Environment
  | branch _ => env
  | formula .. => { env with scope := env.scope.pop }

def opening (frames : Nat) (journal : List Event) : Inner → List Event
  | branch _ => journal
  | formula f _ _ _ => .entered f.id frames :: journal

def closing (journal : List Event) : Inner → List Event
  | branch _ => journal
  | formula f _ _ _ => .left f.id :: journal

/-- A branch is run, and so is a formula unless it is too deep or no program. -/
theorem answer_eq (runner : Runner) (level : Nat) (inner : Inner) (s : State) :
    inner.answer runner level s =
      match inner.program level s.env with
      | .error e => .done (.error e) s
      | .ok program =>
        let env := inner.enter program s.env
        match runner (inner.depth level) program env (inner.opening env.scope.depth s.journal) with
        | none => .outOfFuel
        | some (execution, env, journal) =>
          .done execution.last ⟨inner.leave env, inner.closing journal, s.failure⟩ := by
  cases inner with
  | branch body =>
    simp only [answer, nested, bind_eq, program, enter, depth, opening, leave, closing]
    cases runner level body s.env s.journal <;> rfl
  | formula f parameters text args =>
    have hframe (program : Program) (t : State) :
        (do let env ← environment
            let inner := env.scope.push (parameters.zip args)
            setEnvironment { env with scope := inner }
            note (.entered f.id inner.depth)
            let execution ← nested runner (level + 1) program
            let env ← environment
            setEnvironment { env with scope := env.scope.pop }
            note (.left f.id)
            return execution.last : Machine (Except Error Value)) t =
          match runner (level + 1) program
              { t.env with scope := t.env.scope.push (parameters.zip args) }
              (.entered f.id (t.env.scope.push (parameters.zip args)).depth :: t.journal) with
          | none => .outOfFuel
          | some (execution, env, journal) =>
            .done execution.last
              ⟨{ env with scope := env.scope.pop }, .left f.id :: journal, t.failure⟩ := by
      simp only [bind_eq, environment, setEnvironment, note, nested, pure_eq]
      generalize runner (level + 1) program _ _ = o
      cases o <;> rfl
    simp only [answer, callFormula, bind_eq environment, environment, program]
    split
    · rfl
    · simp only [formulaProgram, enter]
      cases f.compiled with
      | some program => exact hframe program s
      | none =>
        simp only [bind_assoc, bind_eq environment, environment]
        cases compileText s.env.registry text with
        | error e => rfl
        | ok program =>
          exact hframe program
            { s with env := { s.env with registry := s.env.registry.setCompiled f.id program } }

end Inner

namespace Config

def next? (c : Config) : Option (Outcome (Turn × Program)) :=
  match c.program with
  | [] => none
  | instruction :: more => some (turn instruction more c.stack c.state)

def attempt (c : Config) : Except Error Unit :=
  match c.program with
  | [] => (lookAll c.state.env c.stack.reverse).map fun _ => ()
  | instruction :: _ => Machine.attempt c.state.env instruction c.stack

def IsSound (c : Config) : Prop := IsReported c.stack c.state.failure

end Config

structure Launch where
  fuel : Nat
  depth : Nat
  program : Program
  env : Environment
  journal : List Event

def Inner.launch (fuel depth : Nat) (program : Program) (s : State) (inner : Inner) : Launch where
  fuel := fuel
  depth := inner.depth depth
  program := program
  env := inner.enter program s.env
  journal := inner.opening (inner.enter program s.env).scope.depth s.journal

namespace Launch

def runner (l : Launch) : Runner := run l.fuel

def result (l : Launch) : Option (Execution × Environment × List Event) :=
  run (l.fuel + 1) l.depth l.program l.env l.journal

def start (l : Launch) : Config := ⟨l.program, [], ⟨l.env, l.journal, FirstError.none⟩⟩

def Visits (l : Launch) : Config → Prop := Reaches l.runner l.depth l.start

inductive Nests (l : Launch) : Launch → Prop where
  | intro {c : Config} {inner : Inner} {below : Stack} {rest : Program} {s : State}
      {program : Program} {fuel : Nat} (hvisits : l.Visits c)
      (hnext : c.next? = some (.done (.pending inner below, rest) s))
      (hprogram : inner.program l.depth s.env = .ok program) (hfuel : l.fuel = fuel + 1) :
      Nests l (inner.launch fuel l.depth program s)

abbrev Makes : Launch → Launch → Prop := Relation.ReflTransGen Nests

inductive Moves (l : Launch) (c : Config) : Config → Prop where
  | ended {after : Stack} {rest : Program} {s : State}
      (hnext : c.next? = some (.done (.ended after, rest) s)) : Moves l c ⟨rest, after, s⟩
  /-- A formula may not be called. -/
  | refused {inner : Inner} {below : Stack} {rest : Program} {s : State} {e : Error}
      (hnext : c.next? = some (.done (.pending inner below, rest) s))
      (hprogram : inner.program l.depth s.env = .error e) :
      Moves l c ⟨rest, .failed :: below, { s with failure := s.failure.set e }⟩
  | returned {inner : Inner} {below : Stack} {rest : Program} {s : State} {program : Program}
      {fuel : Nat} {execution : Execution} {env : Environment} {journal : List Event}
      (hnext : c.next? = some (.done (.pending inner below, rest) s))
      (hprogram : inner.program l.depth s.env = .ok program) (hfuel : l.fuel = fuel + 1)
      (hresult : (inner.launch fuel l.depth program s).result = some (execution, env, journal)) :
      Moves l c ⟨rest, .ofResult execution.last :: below,
        ⟨inner.leave env, inner.closing journal, s.failure.after execution.last⟩⟩

inductive Ends (c : Config) : Execution → Environment → List Event → Prop where
  | collected {values : List Value} {s : State} (hprogram : c.program = [])
      (hcollect : collect c.stack.reverse c.state = .done values s) :
      Ends c ⟨values, s.failure.held⟩ s.env s.journal
  | stopped {e : Error} {s : State} (hnext : c.next? = some (.stopped e s)) :
      Ends c ⟨[], some e⟩ s.env s.journal

variable {l : Launch} {c c' : Config}

theorem complete_eq (runner : Runner) (level : Nat) (inner : Inner) (below : Stack) (s : State) :
    (Turn.pending inner below).complete runner level s =
      match inner.program level s.env with
      | .error e => .done (.failed :: below) { s with failure := s.failure.set e }
      | .ok program =>
        let env := inner.enter program s.env
        match runner (inner.depth level) program env
            (inner.opening env.scope.depth s.journal) with
        | none => .outOfFuel
        | some (execution, env, journal) =>
          .done (.ofResult execution.last :: below)
            ⟨inner.leave env, inner.closing journal, s.failure.after execution.last⟩ := by
  rw [Turn.complete, bind_eq, Inner.answer_eq]
  cases inner.program level s.env with
  | error e => rfl
  | ok program =>
    dsimp only
    generalize runner _ _ _ _ = o
    cases o with
    | none => rfl
    | some result =>
      dsimp only
      rw [bind_eq, slotOf_eq]
      rfl

/-- Without fuel nothing nested is run. -/
theorem complete_pending {inner : Inner} {below : Stack} {s : State} {program : Program}
    {fuel : Nat} (hprogram : inner.program l.depth s.env = .ok program)
    (hfuel : l.fuel = fuel + 1) :
    (Turn.pending inner below).complete l.runner l.depth s =
      match (inner.launch fuel l.depth program s).result with
      | none => .outOfFuel
      | some (execution, env, journal) =>
        .done (.ofResult execution.last :: below)
          ⟨inner.leave env, inner.closing journal, s.failure.after execution.last⟩ := by
  rw [complete_eq, hprogram, runner, hfuel]
  rfl

theorem moves_of_step (h : Step l.runner l.depth c c') : l.Moves c c' := by
  obtain ⟨instruction, more, half, s, hprogram, hturn, hcomplete⟩ := exists_turn_of_step h
  have hnext : c.next? = some (.done (half, c'.program) s) := by
    rw [Config.next?, hprogram]
    exact congrArg some hturn
  obtain ⟨program', stack', s'⟩ := c'
  cases half with
  | ended after =>
    cases hcomplete
    exact .ended hnext
  | pending inner below =>
    cases hstart : inner.program l.depth s.env with
    | error e =>
      rw [complete_eq, hstart] at hcomplete
      cases hcomplete
      exact .refused hnext hstart
    | ok program =>
      cases hfuel : l.fuel with
      | zero =>
        rw [complete_eq, hstart, runner, hfuel] at hcomplete
        cases hcomplete
      | succ fuel =>
        rw [complete_pending hstart hfuel] at hcomplete
        cases hresult : (inner.launch fuel l.depth program s).result with
        | none =>
          rw [hresult] at hcomplete
          cases hcomplete
        | some result =>
          rw [hresult] at hcomplete
          cases hcomplete
          exact .returned hnext hstart hfuel hresult

/-- What comes next is a step when it can be completed. -/
theorem step_of_next? {half : Turn} {rest : Program} {after : Stack} {s s' : State}
    (hnext : c.next? = some (.done (half, rest) s))
    (hcomplete : half.complete l.runner l.depth s = .done after s') :
    Step l.runner l.depth c ⟨rest, after, s'⟩ := by
  obtain ⟨program, stack, state⟩ := c
  cases program with
  | nil => cases hnext
  | cons instruction more => exact step_of_turn (Option.some.inj hnext) hcomplete

/-- Every step is one of these. -/
theorem step_iff_moves : Step l.runner l.depth c c' ↔ l.Moves c c' := by
  refine ⟨moves_of_step, fun h => ?_⟩
  cases h with
  | ended hnext => exact step_of_next? hnext rfl
  | refused hnext hstart =>
    refine step_of_next? hnext ?_
    rw [complete_eq, hstart]
  | returned hnext hstart hfuel hresult =>
    refine step_of_next? hnext ?_
    rw [complete_pending hstart hfuel, hresult]

theorem visits_start (l : Launch) : l.Visits l.start := .refl

theorem Visits.move (h : l.Visits c) (hmove : l.Moves c c') : l.Visits c' :=
  .tail h (step_iff_moves.2 hmove)

/-- What holds at the start and is kept by every step holds on the way. -/
theorem Visits.induct {P : Config → Prop} (h : l.Visits c) (hstart : P l.start)
    (hmove : ∀ c c', l.Visits c → P c → l.Moves c c' → P c') : P c := by
  induction h with
  | refl => exact hstart
  | tail hvisits hstep ih => exact hmove _ _ hvisits ih (step_iff_moves.1 hstep)

/-- The first half of the next instruction of a sound configuration. -/
theorem turnsTo_of_next? {o : Outcome (Turn × Program)} (hsound : c.IsSound)
    (hnext : c.next? = some o) :
    ∃ instruction more, c.program = instruction :: more ∧
      c.attempt = Machine.attempt c.state.env instruction c.stack ∧
      TurnsTo instruction more c.stack c.state o := by
  rw [Config.next?] at hnext
  cases hprogram : c.program with
  | nil =>
    rw [hprogram] at hnext
    cases hnext
  | cons instruction more =>
    rw [hprogram] at hnext
    cases hnext
    refine ⟨instruction, more, rfl, ?_, turnsTo instruction more hsound⟩
    rw [Config.attempt, hprogram]

theorem IsReported.push_result {slots : List Slot} {failure : FirstError}
    (h : IsReported slots failure) (r : Except Error Value) :
    IsReported (.ofResult r :: slots) (failure.after r) := by
  intro hmem
  rcases List.mem_cons.1 hmem with heq | hslots
  · cases r with
    | ok v => cases heq
    | error e => exact FirstError.isSet_set failure e
  · exact FirstError.isSet_after_of_isSet (h hslots) r

theorem isSound_of_moves (hsound : c.IsSound) (h : l.Moves c c') : c'.IsSound := by
  cases h with
  | ended hnext =>
    obtain ⟨instruction, more, -, -, hturns⟩ := turnsTo_of_next? hsound hnext
    cases hturns with
    | ended _ _ hfailure hfailed =>
      intro hmem
      rw [hfailure, FirstError.isSet_after, Bool.or_eq_true]
      exact (hfailed hmem).imp (hsound ·) (by simpa using ·)
  | refused hnext =>
    obtain ⟨instruction, more, -, -, hturns⟩ := turnsTo_of_next? hsound hnext
    cases hturns with
    | pending => exact fun _ => FirstError.isSet_set _ _
  | returned hnext =>
    obtain ⟨instruction, more, -, -, hturns⟩ := turnsTo_of_next? hsound hnext
    cases hturns with
    | pending _ hfailure _ hbelow =>
      refine IsReported.push_result ?_ _
      rw [hfailure]
      exact (hsound.subset hbelow).after _

/-- Wherever a run comes by, a failed entry is there only behind a failure. -/
theorem isSound_of_visits (h : l.Visits c) : c.IsSound :=
  h.induct nofun fun _ _ _ => isSound_of_moves

/-! What a run gives. -/

def outcome (l : Launch) (c : Config) : Outcome (List Value) :=
  (perform l.runner l.depth c.program c.stack >>= fun stack => collect stack.reverse) c.state

def conclude : Outcome (List Value) → Option (Execution × Environment × List Event)
  | .done values s => some (⟨values, s.failure.held⟩, s.env, s.journal)
  | .stopped e s => some (⟨[], some e⟩, s.env, s.journal)
  | .outOfFuel => none

theorem result_eq_of_visits (h : l.Visits c) : l.result = conclude (l.outcome c) := by
  have hstart : l.result = conclude (l.outcome l.start) := by
    rw [result, run, runWith]
    rfl
  have hfinish : perform l.runner l.depth l.start.program l.start.stack l.start.state =
      perform l.runner l.depth c.program c.stack c.state := finish_reaches h
  rw [hstart, outcome, outcome, bind_eq, bind_eq, hfinish]

theorem outcome_nil (h : c.program = []) : l.outcome c = collect c.stack.reverse c.state := by
  rw [outcome, h, perform_nil, pure_bind]

theorem outcome_stopped {e : Error} {s : State} (h : c.next? = some (.stopped e s)) :
    l.outcome c = .stopped e s := by
  rw [Config.next?] at h
  cases hprogram : c.program with
  | nil =>
    rw [hprogram] at h
    cases h
  | cons instruction more =>
    rw [hprogram] at h
    rw [outcome, hprogram, perform_cons, bind_assoc, bind_eq, Option.some.inj h]

theorem outcome_pending {inner : Inner} {below : Stack} {rest : Program} {s : State}
    (h : c.next? = some (.done (.pending inner below, rest) s))
    (hcomplete : (Turn.pending inner below).complete l.runner l.depth s = .outOfFuel) :
    l.outcome c = .outOfFuel := by
  rw [Config.next?] at h
  cases hprogram : c.program with
  | nil =>
    rw [hprogram] at h
    cases h
  | cons instruction more =>
    rw [hprogram] at h
    rw [outcome, hprogram, perform_cons, bind_assoc, bind_eq, Option.some.inj h]
    simp only [bind_eq, hcomplete]

/-- A run that gives something has had what was nested give something. -/
theorem exists_result_of_pending {inner : Inner} {below : Stack} {rest : Program} {s : State}
    {program : Program} (hresult : l.result ≠ none) (hvisits : l.Visits c)
    (hnext : c.next? = some (.done (.pending inner below, rest) s))
    (hprogram : inner.program l.depth s.env = .ok program) :
    ∃ fuel result, l.fuel = fuel + 1 ∧
      (inner.launch fuel l.depth program s).result = some result := by
  have hcomplete : (Turn.pending inner below).complete l.runner l.depth s ≠ .outOfFuel := by
    intro hout
    rw [result_eq_of_visits hvisits, outcome_pending hnext hout] at hresult
    exact hresult rfl
  cases hfuel : l.fuel with
  | zero =>
    rw [complete_eq, hprogram, runner, hfuel] at hcomplete
    exact absurd rfl hcomplete
  | succ fuel =>
    rw [complete_pending hprogram hfuel] at hcomplete
    cases hinner : (inner.launch fuel l.depth program s).result with
    | none =>
      rw [hinner] at hcomplete
      exact absurd rfl hcomplete
    | some result => exact ⟨fuel, result, rfl, hinner⟩

/-- A run goes on until it ends. -/
theorem exists_move (hresult : l.result ≠ none) (hvisits : l.Visits c) :
    c.program = [] ∨ (∃ e s, c.next? = some (.stopped e s)) ∨
      ∃ c', l.Moves c c' ∧ c'.program.length < c.program.length := by
  cases hprogram : c.program with
  | nil => exact .inl rfl
  | cons instruction more =>
    have hnext : c.next? = some (turn instruction more c.stack c.state) := by
      rw [Config.next?, hprogram]
    have hturns := turnsTo instruction more (isSound_of_visits hvisits)
    generalize turn instruction more c.stack c.state = o at hnext hturns
    refine .inr ?_
    cases hturns with
    | stopped e => exact .inl ⟨e, _, hnext⟩
    | ended hlength => exact .inr ⟨_, .ended hnext, Nat.lt_succ_of_le hlength⟩
    | @pending inner below s =>
      cases hstart : inner.program l.depth s.env with
      | error e => exact .inr ⟨_, .refused hnext hstart, Nat.lt_succ_self _⟩
      | ok program =>
        obtain ⟨fuel, ⟨execution, env, journal⟩, hfuel, hinner⟩ :=
          exists_result_of_pending hresult hvisits hnext hstart
        exact .inr ⟨_, .returned hnext hstart hfuel hinner, Nat.lt_succ_self _⟩

theorem collect_of_visits (h : l.Visits c) :
    ∃ values, Reads (collect c.stack.reverse) c.state (lookAll c.state.env c.stack.reverse) values ∧
      ∀ v ∈ values, ∃ slot ∈ c.stack, slot.look c.state.env = .ok v := by
  obtain ⟨values, hreads, hvalues⟩ :=
    collect_eq ((isSound_of_visits h).subset fun _ => List.mem_reverse.1)
  refine ⟨values, hreads, fun v hv => ?_⟩
  obtain ⟨slot, hslot, hlook⟩ := hvalues v hv
  exact ⟨slot, List.mem_reverse.1 hslot, hlook⟩

/-- From wherever it comes by, a run goes on to what it gives. -/
theorem exists_ends {execution : Execution} {env : Environment} {journal : List Event}
    (hresult : l.result = some (execution, env, journal)) (hvisits : l.Visits c) :
    ∃ c', Relation.ReflTransGen l.Moves c c' ∧ Ends c' execution env journal := by
  induction hlength : c.program.length using Nat.strongRecOn generalizing c with
  | ind length ih =>
    have heq := result_eq_of_visits hvisits
    rcases exists_move (hresult ▸ nofun) hvisits with hnil | ⟨e, s, hnext⟩ | ⟨c', hmove, hlt⟩
    · obtain ⟨values, ⟨journal', hcollect⟩, -⟩ := collect_of_visits hvisits
      rw [hresult, outcome_nil hnil, hcollect] at heq
      cases heq
      exact ⟨c, .refl, .collected hnil hcollect⟩
    · rw [hresult, outcome_stopped hnext] at heq
      cases heq
      exact ⟨c, .refl, .stopped hnext⟩
    · obtain ⟨last, hmoves, hends⟩ := ih _ (hlength ▸ hlt) (hvisits.move hmove) rfl
      exact ⟨last, .head hmove hmoves, hends⟩

theorem Visits.moves (h : l.Visits c) (hmoves : Relation.ReflTransGen l.Moves c c') :
    l.Visits c' := by
  induction hmoves with
  | refl => exact h
  | tail _ hmove ih => exact ih.move hmove

/-- A run gives what it ends with. -/
theorem result_iff {execution : Execution} {env : Environment} {journal : List Event} :
    l.result = some (execution, env, journal) ↔
      ∃ c, l.Visits c ∧ Ends c execution env journal := by
  constructor
  · intro hresult
    obtain ⟨c, hmoves, hends⟩ := exists_ends hresult l.visits_start
    exact ⟨c, l.visits_start.moves hmoves, hends⟩
  · rintro ⟨c, hvisits, hends⟩
    rw [result_eq_of_visits hvisits]
    cases hends with
    | collected hprogram hcollect =>
      rw [outcome_nil hprogram, hcollect]
      rfl
    | stopped hnext =>
      rw [outcome_stopped hnext]
      rfl

/-- With a run, all runs nested in it give something. -/
theorem Makes.result_ne_none {l' : Launch} (h : l.Makes l') (hresult : l.result ≠ none) :
    l'.result ≠ none := by
  induction h with
  | refl => exact hresult
  | tail _ hnests ih =>
    obtain ⟨hvisits, hnext, hprogram, hfuel⟩ := hnests
    obtain ⟨fuel', result, hfuel', hinner⟩ := exists_result_of_pending ih hvisits hnext hprogram
    cases hfuel.symm.trans hfuel'
    rw [hinner]
    exact nofun

end Launch

end Reckoner.Machine
