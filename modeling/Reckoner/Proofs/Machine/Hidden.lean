import Reckoner.Proofs.Machine.Along
import Reckoner.Proofs.Scope.Covered

/-!
Frames of calls. A run gives back the frames that it found, and does no more to the globals than to
add some. As long as a formula runs, the variables that its parameters hide are out of reach.
Nothing is written to them, and with anything else in their place everything goes the same way.
-/

namespace Reckoner

inductive Environment.Alike (names : List String) (count : Nat) (env : Environment) :
    Environment → Prop where
  | intro {scope : Scope} (h : env.scope.Alike names count scope) :
      Alike names count env { env with scope }

namespace Machine

variable {names : List String}

/-- What covers the names at first does so all the way. -/
theorem isSteady_covers (before : Scope) (names : List String) :
    IsSteady fun env env' => env.scope.Continues env'.scope ∧
      (before.Covers names env.scope → before.Covers names env'.scope) where
  refl env := ⟨.refl env.scope, id⟩
  trans h h' := ⟨h.1.trans h'.1, h'.2 ∘ h.2⟩
  write h := by
    cases h with
    | nothing => exact ⟨.refl _, id⟩
    | write hset => exact ⟨Scope.continues_set hset, fun h => h.set hset⟩
  nested inner program env env' h := by
    cases inner with
    | branch body => exact h
    | formula f parameters text args =>
      obtain ⟨hcontinues, hcovers⟩ := h
      exact ⟨Scope.continues_pop hcontinues, fun h => h.pop hcontinues (hcovers (h.push _))⟩

/-- What is hidden makes no difference. -/
theorem isParallel_alike (names : List String) (count : Nat) :
    IsParallel (Environment.Alike names count) where
  unseen := by
    rintro _ _ - f - env _ ⟨h⟩
    simp only [Environment.view, funext h.get?_eq, h.names_eq]
  registry := by
    rintro _ _ ⟨-⟩
    rfl
  find? := by
    rintro _ _ ⟨h⟩ name
    exact h.find?_eq name
  cells := by
    rintro _ _ ⟨h⟩
    exact h.cells_eq
  depth := by
    rintro _ _ ⟨h⟩
    exact h.depth_eq
  set := by
    rintro env _ ⟨h⟩ name value
    rcases h.set name value with herror | ⟨scope, scope', hset, hset', halike⟩
    · exact .inl herror
    · exact .inr ⟨scope, scope', hset, hset', ⟨halike⟩⟩
  enter := by
    rintro env _ ⟨h⟩ inner program
    cases inner with
    | branch body => exact ⟨h⟩
    | formula f parameters text args => exact ⟨h.push (parameters.zip args)⟩
  leave := by
    rintro env _ after _ ⟨h⟩ inner program hcontinues ⟨hafter⟩
    cases inner with
    | branch body => exact ⟨hafter⟩
    | formula f parameters text args => exact ⟨h.pop hcontinues hafter⟩

namespace Launch

variable {l l' call : Launch} {c : Config} {before : Scope}
  {bindings : List (String × Value)}

theorem covers_of_nests (h : l.Nests l') (hcovers : before.Covers names l.env.scope) :
    before.Covers names l'.env.scope := by
  obtain @⟨c, inner, below, rest, s, program, fuel, hvisits, hnext, -, -⟩ := h
  have hstart : before.Covers names s.env.scope := by
    rw [env_of_pending (isSound_of_visits hvisits) hnext]
    exact (hvisits.steady (isSteady_covers before names)).2 hcovers
  cases inner with
  | branch body => exact hstart
  | formula f parameters text args => exact hstart.push (parameters.zip args)

/-- Names that are covered at the start are covered at every moment of the run. -/
theorem covers_of_visits (hcovers : before.Covers names l.env.scope) (hmakes : l.Makes l')
    (hvisits : l'.Visits c) : before.Covers names c.state.env.scope := by
  refine (hvisits.steady (isSteady_covers before names)).2 ?_
  clear hvisits
  induction hmakes with
  | refl => exact hcovers
  | tail _ hnests ih => exact covers_of_nests hnests ih

inductive Calls (l : Launch) : Scope → List (String × Value) → Launch → Prop where
  | intro {l' : Launch} {c : Config} {f : Function} {parameters : List String} {text : String}
      {args : List Value} {below : Stack} {rest : Program} {s : State} {program : Program}
      {fuel : Nat} (hmakes : l.Makes l') (hvisits : l'.Visits c)
      (hnext : c.next? = some (.done (.pending (.formula f parameters text args) below, rest) s))
      (hprogram : (Inner.formula f parameters text args).program l'.depth s.env = .ok program)
      (hfuel : l'.fuel = fuel + 1) :
      Calls l s.env.scope (parameters.zip args)
        ((Inner.formula f parameters text args).launch fuel l'.depth program s)

def onto (call : Launch) (bindings : List (String × Value)) (before : Scope) : Launch :=
  call.within call.fuel { call.env with scope := before.push bindings }

/-- As long as the call runs, it is on top of the scope before it, and of that scope it leaves alone
whatever its parameters hide. -/
structure Hides (call : Launch) (bindings : List (String × Value)) (before : Scope) : Prop where
  pushed : call.env.scope = before.push bindings
  /-- The parameters mean variables of the call or of calls within it. -/
  above {l : Launch} {c : Config} (hmakes : call.Makes l) (hvisits : l.Visits c) {name : String}
    (hname : name ∈ bindings.map Prod.fst) : c.state.env.scope.IsAbove before.depth name
  /-- Variables of their names that there were before are not written. -/
  covers {l : Launch} {c : Config} (hmakes : call.Makes l) (hvisits : l.Visits c) :
    before.Covers (bindings.map Prod.fst) c.state.env.scope
  /-- Nor are they read. With other variables in their place, nothing else changes. -/
  along {before' : Scope} (hmasks : before.Masks (bindings.map Prod.fst) before') {l : Launch}
    {c : Config} (hmakes : call.Makes l) (hvisits : l.Visits c) :
    ∃ l' c', (call.onto bindings before').Makes l' ∧ l'.Visits c' ∧
      c.Along (Environment.Alike (bindings.map Prod.fst) before.depth) c'
  result {before' : Scope} (hmasks : before.Masks (bindings.map Prod.fst) before')
    {execution : Execution} {env : Environment} {journal : List Event}
    (h : call.result = some (execution, env, journal)) :
    ∃ env', (call.onto bindings before').result = some (execution, env', journal) ∧
      env.Alike (bindings.map Prod.fst) before.depth env'

theorem hides_of_push (hpushed : call.env.scope = before.push bindings) :
    call.Hides bindings before := by
  have hcovers : before.Covers (bindings.map Prod.fst) call.env.scope :=
    hpushed ▸ Scope.covers_push before bindings
  have hparallel := isParallel_alike (bindings.map Prod.fst) before.depth
  have hagrees (l : Launch) : l.Agrees (Environment.Alike (bindings.map Prod.fst) before.depth) :=
    agrees_of_maxDepth hparallel (fun _ _ ⟨_⟩ => rfl) l
  have halike {before' : Scope} (hmasks : before.Masks (bindings.map Prod.fst) before') :
      call.env.Alike (bindings.map Prod.fst) before.depth (call.onto bindings before').env :=
    ⟨hpushed ▸ hmasks.alike⟩
  refine ⟨hpushed, ?_, covers_of_visits hcovers, ?_, ?_⟩
  · intro l c hmakes hvisits name hname
    exact (covers_of_visits hcovers hmakes hvisits).isAbove hname
  · intro before' hmasks l c hmakes hvisits
    obtain ⟨fuel, env, hle, henv, hmakes'⟩ :=
      hmakes.along hparallel (hagrees call) (Nat.le_refl _) (halike hmasks)
    obtain ⟨c', hvisits', hc'⟩ := hvisits.along hparallel (hagrees l) hle henv
    exact ⟨_, c', hmakes', hvisits', hc'⟩
  · intro before' hmasks execution env journal h
    exact result_along hparallel (hagrees call) (Nat.le_refl _) (halike hmasks) h

/-- A run gives back its frames and its globals with new ones behind them, and every call in it
leaves alone whatever its parameters hide. -/
theorem frames_of_run (l : Launch) :
    (∀ execution env journal, l.result = some (execution, env, journal) →
      l.env.scope.Continues env.scope) ∧
    ∀ before bindings call, l.Calls before bindings call → call.Hides bindings before := by
  refine ⟨fun _ _ _ => steady_of_result isSteady_continues, ?_⟩
  rintro _ _ _ ⟨-, -, -, -, -⟩
  exact hides_of_push rfl

def assigning : Launch where
  fuel := 2
  depth := 0
  program := [.openCall, .value (.integer 1), .call "f" (some ⟨0⟩)]
  env :=
    { scope := { globals := [⟨"x", .own (.integer 7)⟩] }
      registry := ⟨[⟨⟨0⟩, "f", .formula ["x"] "x = 5", ⟨[Kinds.any], false⟩, false,
        some [.name "x", .value (.integer 5), .operator .assign]⟩], 1⟩ }
  journal := []

/-- The parameter is assigned to, and the variable that it hides is not. -/
theorem frames_of_assigning :
    ∃ env journal call, assigning.result = some (⟨[.integer 5], none⟩, env, journal) ∧
      env.scope.get? "x" = some (.integer 7) ∧ assigning.env.scope.Continues env.scope ∧
      assigning.Calls assigning.env.scope [("x", .integer 1)] call ∧
      call.Hides [("x", .integer 1)] assigning.env.scope := by
  obtain ⟨env, journal, hresult, hvalue⟩ : ∃ env journal,
      assigning.result = some (⟨[.integer 5], none⟩, env, journal) ∧
        env.scope.get? "x" = some (.integer 7) := ⟨_, _, by cbv, by cbv⟩
  have hvisits : assigning.Visits ⟨[.call "f" (some ⟨0⟩)], [.value (.integer 1), .openCall],
      assigning.start.state⟩ := ((visits_start _).move (.ended rfl)).move (.ended rfl)
  have hcalls := Calls.intro .refl hvisits rfl rfl rfl
  have hframes := frames_of_run assigning
  exact ⟨env, journal, _, hresult, hvalue, hframes.1 _ _ _ hresult, hcalls, hframes.2 _ _ _ hcalls⟩

end Launch

end Machine

end Reckoner
