import Reckoner.Proofs.Machine.Raised
import Reckoner.Proofs.Machine.Relaxed

/-!
The limit of the call depth. Branches get shorter and calls of formulas get deeper, so every run
under a limit comes to an end, and no more frames come on those of its start than the limit says.
A run that fails nowhere was never refused a call, and goes the same way under any larger limit that
no native looks at.
-/

namespace Reckoner.Machine

theorem isSteady_maxDepth : IsSteady fun env env' => env'.maxDepth = env.maxDepth where
  refl _ := rfl
  trans h h' := h'.trans h
  write h := h.maxDepth_eq
  nested inner program env env' h := by
    rw [Inner.maxDepth_enter] at h
    rw [Inner.maxDepth_leave, h]

namespace Launch

variable {l l' : Launch} {c c' : Config} {n : Nat}

/-! Frames. -/

theorem Nests.maxDepth_eq (h : l.Nests l') : l'.env.maxDepth = l.env.maxDepth := by
  cases h with
  | intro hvisits hnext =>
    change (Inner.enter _ _ _).maxDepth = _
    rw [Inner.maxDepth_enter, env_of_pending (isSound_of_visits hvisits) hnext]
    exact hvisits.steady isSteady_maxDepth

theorem Makes.maxDepth_eq (h : l.Makes l') : l'.env.maxDepth = l.env.maxDepth := by
  induction h with
  | refl => rfl
  | tail _ hnests ih => rw [hnests.maxDepth_eq, ih]

/-- A formula that is called is not too deep. -/
theorem lt_of_program {f : Function} {parameters : List String} {text : String}
    {args : List Value} {depth : Nat} {env : Environment} {program : Program}
    (hmax : env.maxDepth = some n)
    (h : (Inner.formula f parameters text args).program depth env = .ok program) : depth < n := by
  by_contra hle
  have hdeep : env.maxDepth.any (· ≤ depth) := by
    rw [hmax]
    simpa using hle
  rw [Inner.program, if_pos hdeep] at h
  cases h

/-- A frame comes with each level of calls, and under a limit there are not more levels. -/
theorem Nests.depth (h : l.Nests l') (hmax : l.env.maxDepth = some n) :
    l'.env.scope.depth + l.depth = l.env.scope.depth + l'.depth ∧ (l.depth ≤ n → l'.depth ≤ n) := by
  cases h with
  | @intro c inner below rest s program fuel hvisits hnext hprogram =>
    have henv := env_of_pending (isSound_of_visits hvisits) hnext
    have hdepth : s.env.scope.depth = l.env.scope.depth :=
      henv ▸ (hvisits.steady isSteady_continues).depth_eq
    have hlimit : s.env.maxDepth = some n :=
      (henv ▸ hvisits.steady isSteady_maxDepth).trans hmax
    cases inner with
    | branch body => exact ⟨congrArg (· + l.depth) hdepth, id⟩
    | formula f parameters text args =>
      refine ⟨?_, fun _ => lt_of_program hlimit hprogram⟩
      change s.env.scope.depth + 1 + l.depth = l.env.scope.depth + (l.depth + 1)
      omega

theorem Makes.depth (h : l.Makes l') (hmax : l.env.maxDepth = some n) :
    l'.env.scope.depth + l.depth = l.env.scope.depth + l'.depth ∧ (l.depth ≤ n → l'.depth ≤ n) := by
  induction h with
  | refl => exact ⟨rfl, id⟩
  | tail hmakes hnests ih =>
    have hdepth := hnests.depth ((Makes.maxDepth_eq hmakes).trans hmax)
    exact ⟨by omega, fun hle => hdepth.2 (ih.2 hle)⟩

/-! Runs come to an end. -/

def Settles (l : Launch) : Prop :=
  ∃ enough result, ∀ fuel, enough ≤ fuel → Launch.result { l with fuel } = some result

/-- Programs and blocks get shorter. -/
theorem length_of_visits (h : l.Visits c) :
    c.program.length ≤ l.program.length ∧
      ∀ body, .block body ∈ c.stack → body.length < l.program.length := by
  refine h.induct (P := fun c => c.program.length ≤ l.program.length ∧
    ∀ body, .block body ∈ c.stack → body.length < l.program.length) ⟨Nat.le_refl _, nofun⟩
    fun c c' hvisits ⟨hlength, hblocks⟩ hmove => ?_
  have hsound := isSound_of_visits hvisits
  cases hmove with
  | ended hnext =>
    obtain ⟨instruction, more, hprogram, -, hturns⟩ := turnsTo_of_next? hsound hnext
    rw [hprogram, List.length_cons] at hlength
    cases hturns with
    | ended hrest _ _ _ _ hblock =>
      refine ⟨by dsimp only; omega, fun body hbody => ?_⟩
      rcases hblock body hbody with hbelow | hnew
      · exact hblocks body hbelow
      · omega
  | refused hnext =>
    obtain ⟨instruction, more, hprogram, -, hturns⟩ := turnsTo_of_next? hsound hnext
    rw [hprogram, List.length_cons] at hlength
    cases hturns with
    | pending _ _ _ hbelow =>
      refine ⟨by dsimp only; omega, fun body hbody => ?_⟩
      rcases List.mem_cons.1 hbody with heq | hbody
      · cases heq
      · exact hblocks body (hbelow _ hbody)
  | returned hnext =>
    obtain ⟨instruction, more, hprogram, -, hturns⟩ := turnsTo_of_next? hsound hnext
    rw [hprogram, List.length_cons] at hlength
    cases hturns with
    | pending _ _ _ hbelow =>
      refine ⟨by dsimp only; omega, fun body hbody => ?_⟩
      rcases mem_ofResult hbody with hbody | ⟨v, heq⟩ | ⟨heq, -⟩
      · exact hblocks body (hbelow _ hbody)
      · cases heq
      · cases heq

/-- If all that is nested comes to an end, so does the run. -/
theorem settles_of_visits
    (hinner : ∀ {c inner below rest s program fuel}, Launch.Visits { l with fuel } c →
      c.next? = some (.done (.pending inner below, rest) s) →
      inner.program l.depth s.env = .ok program → (inner.launch 0 l.depth program s).Settles)
    (h : ∃ enough, ∀ fuel, enough ≤ fuel → Launch.Visits { l with fuel } c) : l.Settles := by
  induction hlength : c.program.length using Nat.strongRecOn generalizing c with
  | ind length ih =>
    obtain ⟨enough, h⟩ := h
    have hvisits := h enough (Nat.le_refl _)
    cases hprogram : c.program with
    | nil =>
      obtain ⟨values, ⟨journal, hcollect⟩, -⟩ := collect_of_visits hvisits
      exact ⟨enough, _, fun fuel hle => result_iff.2 ⟨c, h fuel hle, .collected hprogram hcollect⟩⟩
    | cons instruction more =>
      have hnext : c.next? = some (turn instruction more c.stack c.state) := by
        rw [Config.next?, hprogram]
      have hturns := turnsTo instruction more (isSound_of_visits hvisits)
      have hshorter : more.length < length := by
        rw [← hlength, hprogram]
        exact Nat.lt_succ_self _
      generalize turn instruction more c.stack c.state = o at hnext hturns
      cases hturns with
      | stopped e =>
        exact ⟨enough, _, fun fuel hle => result_iff.2 ⟨c, h fuel hle, .stopped hnext⟩⟩
      | ended hrest =>
        exact ih _ (Nat.lt_of_le_of_lt hrest hshorter)
          ⟨enough, fun fuel hle => (h fuel hle).move (.ended hnext)⟩ rfl
      | @pending inner below s =>
        cases hstart : inner.program l.depth s.env with
        | error e =>
          exact ih _ hshorter
            ⟨enough, fun fuel hle => (h fuel hle).move (.refused hnext hstart)⟩ rfl
        | ok program =>
          obtain ⟨enough', ⟨execution, env, journal⟩, hresult⟩ := hinner hvisits hnext hstart
          refine ih (c := ⟨more, .ofResult execution.last :: below,
            ⟨inner.leave env, inner.closing journal, s.failure.after execution.last⟩⟩)
            _ hshorter ⟨max enough (enough' + 1), fun fuel hle => ?_⟩ rfl
          obtain ⟨fuel', rfl⟩ : ∃ fuel', fuel = fuel' + 1 := ⟨fuel - 1, by omega⟩
          exact (h _ (by omega)).move (.returned hnext hstart rfl (hresult fuel' (by omega)))

/-- Under a limit every run comes to an end, the deepest calls first and short programs before
longer ones. -/
theorem settles_of_maxDepth (l : Launch) (hmax : l.env.maxDepth = some n) : l.Settles := by
  induction hlevels : n - l.depth using Nat.strongRecOn generalizing l with
  | ind levels ihdepth =>
    induction hlength : l.program.length using Nat.strongRecOn generalizing l with
    | ind length ihlength =>
      refine settles_of_visits
        (fun {c inner below rest s program fuel} hvisits hnext hprogram => ?_)
        (c := l.start) ⟨0, fun fuel _ => visits_start _⟩
      have hsound := isSound_of_visits hvisits
      have hlimit : s.env.maxDepth = some n := by
        rw [env_of_pending hsound hnext]
        exact (hvisits.steady isSteady_maxDepth).trans hmax
      have hinner : (inner.launch 0 l.depth program s).env.maxDepth = some n := by
        change (Inner.enter _ _ _).maxDepth = _
        rw [Inner.maxDepth_enter, hlimit]
      cases inner with
      | branch body =>
        cases hprogram
        obtain ⟨instruction, more, -, -, hturns⟩ := turnsTo_of_next? hsound hnext
        cases hturns with
        | pending _ _ _ _ hbranch =>
          have hbody := (length_of_visits hvisits).2 program (hbranch program rfl)
          exact ihlength _ (hlength ▸ hbody) _ hinner hlevels rfl
      | formula f parameters text args =>
        have hlt := lt_of_program hlimit hprogram
        refine ihdepth (n - (l.depth + 1)) ?_ _ hinner rfl
        omega

/-- Under a limit of the call depth every run comes to an end, and at no moment are there more
frames on those of its start than the limit says. -/
theorem terminates_of_maxDepth {env : Environment} (hmax : env.maxDepth = some n)
    (program : Program) (journal : List Event) :
    (∃ enough result, ∀ fuel, enough ≤ fuel → run fuel 0 program env journal = some result) ∧
      ∀ fuel l c, Launch.Makes ⟨fuel, 0, program, env, journal⟩ l → l.Visits c →
        c.state.env.scope.depth ≤ env.scope.depth + n := by
  constructor
  · obtain ⟨enough, result, hresult⟩ :=
      settles_of_maxDepth ⟨0, 0, program, env, journal⟩ hmax
    refine ⟨enough + 1, result, fun fuel hle => ?_⟩
    obtain ⟨fuel', rfl⟩ : ∃ fuel', fuel = fuel' + 1 := ⟨fuel - 1, by omega⟩
    exact hresult fuel' (by omega)
  · intro fuel l c hmakes hvisits
    have hsteady := (hvisits.steady isSteady_continues).depth_eq
    obtain ⟨hframes, hdepth⟩ := hmakes.depth hmax
    have hle := hdepth (Nat.zero_le n)
    simp only [Nat.add_zero] at hframes
    omega

def withEndless (limit : Option Nat) : Environment where
  registry := ⟨[⟨⟨0⟩, "f", .formula ["x"] "f(x)", ⟨[Kinds.any], false⟩, false,
    some [.openCall, .name "x", .call "f" (some ⟨0⟩)]⟩], 1⟩
  maxDepth := limit

/-- The third call is refused. -/
theorem terminates_withEndless :
    (∃ env journal, run 4 0 [.openCall, .value (.integer 1), .call "f" (some ⟨0⟩)]
        (withEndless (some 2)) [] =
      some (⟨[], some (.other "Maximum call depth exceeded in 'f'")⟩, env, journal)) ∧
    (withEndless (some 2)).maxDepth = some 2 ∧
    (∃ enough result, ∀ fuel, enough ≤ fuel →
      run fuel 0 [.openCall, .value (.integer 1), .call "f" (some ⟨0⟩)] (withEndless (some 2)) [] =
        some result) ∧
    ∀ fuel l c, Launch.Makes ⟨fuel, 0, [.openCall, .value (.integer 1), .call "f" (some ⟨0⟩)],
        withEndless (some 2), []⟩ l → l.Visits c →
      c.state.env.scope.depth ≤ (withEndless (some 2)).scope.depth + 2 :=
  ⟨⟨_, _, by cbv⟩, rfl, terminates_of_maxDepth rfl _ _⟩

/-! Limits that are not reached. -/

def IsTooDeep (l : Launch) (c : Config) : Prop :=
  ∃ f parameters text args below rest s,
    c.next? = some (.done (.pending (.formula f parameters text args) below, rest) s) ∧
      s.env.maxDepth.any (· ≤ l.depth)

theorem IsTooDeep.failsAt (h : l.IsTooDeep c) : l.FailsAt c := by
  obtain ⟨f, parameters, text, args, below, rest, s, hnext, hdeep⟩ := h
  refine .inl ?_
  cases hattempt : c.attempt with
  | error e => exact ⟨e, .alone hattempt⟩
  | ok _ => exact ⟨_, .refused hattempt hnext (by rw [Inner.program, if_pos hdeep])⟩

/-- A larger limit, or none, makes no difference where the limit is not reached. -/
theorem ignores_of_not_isTooDeep {limit : Option Nat} (hmax : l.env.maxDepth = some n)
    (hlarger : ∀ m, limit = some m → n ≤ m)
    (hreached : ∀ l' c, l.Makes l' → l'.Visits c → ¬ l'.IsTooDeep c) : l.Ignores limit := by
  rintro l' c inner below rest s _ hmakes hvisits hnext ⟨rfl, -⟩
  cases inner with
  | branch body => rfl
  | formula f parameters text args =>
    have hdeep : ¬ s.env.maxDepth.any (· ≤ l'.depth) := fun hdeep =>
      hreached l' c hmakes hvisits ⟨f, parameters, text, args, below, rest, s, hnext, hdeep⟩
    have hlimit : s.env.maxDepth = some n := by
      rw [env_of_pending (isSound_of_visits hvisits) hnext]
      exact (hvisits.steady isSteady_maxDepth).trans (hmakes.maxDepth_eq.trans hmax)
    have hdeep' : ¬ (s.env.withLimit limit).maxDepth.any (· ≤ l'.depth) := by
      change ¬ limit.any (· ≤ l'.depth)
      cases limit with
      | none => nofun
      | some m =>
        rw [hlimit] at hdeep
        have hle := hlarger m rfl
        simp only [Option.any_some, decide_eq_true_eq] at hdeep ⊢
        omega
    rw [Inner.program, Inner.program, if_neg hdeep, if_neg hdeep']
    rfl

/-- A run without a failure goes the same way under every larger limit and under none, unless a
native looks at the limit. It fails wherever it reaches its limit, whatever natives look at. -/
theorem result_of_larger_limit {execution : Execution} {env : Environment} {journal : List Event}
    (hmax : l.env.maxDepth = some n) (h : l.result = some (execution, env, journal)) :
    (execution.failure = none → ∀ limit fuel, (∀ m, limit = some m → n ≤ m) →
        l.env.registry.Ignores (·.withLimit limit) → l.fuel ≤ fuel →
        (l.within fuel (l.env.withLimit limit)).result =
          some (execution, env.withLimit limit, journal)) ∧
      ∀ l' c, l.Makes l' → l'.Visits c → l'.IsTooDeep c → execution.failure.isSome := by
  have hfails : ∀ l' c, l.Makes l' → l'.Visits c → l'.IsTooDeep c → execution.failure.isSome :=
    fun l' c hmakes hvisits hdeep => failure_of_makes h hmakes hvisits hdeep.failsAt
  refine ⟨fun hnone limit fuel hlarger hignores hle => ?_, hfails⟩
  refine result_withLimit ?_ hignores hle h
  refine ignores_of_not_isTooDeep hmax hlarger fun l' c hmakes hvisits hdeep => ?_
  have hsome := hfails l' c hmakes hvisits hdeep
  rw [hnone] at hsome
  cases hsome

def twoDeep : Launch where
  fuel := 4
  depth := 0
  program := [.openCall, .value (.boolean true), .call "f" (some ⟨0⟩)]
  env :=
    { registry := ⟨[⟨⟨0⟩, "f", .formula ["x"] "x ? f(false) : 7", ⟨[Kinds.any], false⟩, false,
        some [.startBlock, .openCall, .value (.boolean false), .call "f" (some ⟨0⟩), .endBlock,
          .startBlock, .value (.integer 7), .endBlock, .name "x", .operator .question]⟩], 1⟩
      maxDepth := some 2 }
  journal := []

theorem result_twoDeep :
    twoDeep.env.maxDepth = some 2 ∧ ∃ env journal,
      twoDeep.result = some (⟨[.integer 7], none⟩, env, journal) ∧
        (twoDeep.within 4 (twoDeep.env.withLimit none)).result =
          some (⟨[.integer 7], none⟩, env.withLimit none, journal) := by
  obtain ⟨env, journal, h⟩ : ∃ env journal,
      twoDeep.result = some (⟨[.integer 7], none⟩, env, journal) := ⟨_, _, by cbv⟩
  have hformulas : ∀ f ∈ twoDeep.env.registry.functions, f.isFormula := by decide
  exact ⟨rfl, env, journal, h, (result_of_larger_limit rfl h).1 rfl none 4
    (fun m hm => by cases hm) (Registry.ignores_of_isFormula hformulas _) (Nat.le_refl _)⟩

/-- The run of `limit()`, where a native of that name gives the limit that it is shown. -/
def asking : Launch where
  fuel := 0
  depth := 0
  program := [.openCall, .call "limit" (some ⟨0⟩)]
  env :=
    { registry := ⟨[⟨⟨0⟩, "limit",
        .native fun view _ => .ok (.integer (Int64.ofNat (view.maxDepth.getD 0))), ⟨[], false⟩,
        false, none⟩], 1⟩
      maxDepth := some 3 }
  journal := []

/-- A native that looks at the limit gives another value under another one. -/
theorem not_forall_result_of_larger_limit :
    ¬ ∀ (l : Launch) (n : Nat) (execution : Execution) (env : Environment) (journal : List Event),
      l.env.maxDepth = some n → l.result = some (execution, env, journal) →
        execution.failure = none → ∀ limit, (∀ m, limit = some m → n ≤ m) →
          ∃ env' journal', (l.within l.fuel (l.env.withLimit limit)).result =
            some (execution, env', journal') := by
  intro h
  obtain ⟨env, journal, hthree⟩ : ∃ env journal,
      asking.result = some (⟨[.integer 3], none⟩, env, journal) := ⟨_, _, by cbv⟩
  obtain ⟨env', journal', hfour⟩ : ∃ env journal,
      (asking.within 0 (asking.env.withLimit (some 4))).result =
        some (⟨[.integer 4], none⟩, env, journal) := ⟨_, _, by cbv⟩
  obtain ⟨_, _, hsame⟩ := h asking 3 _ env journal rfl hthree rfl (some 4) (by rintro _ ⟨⟩; decide)
  have hexecution := congrArg Prod.fst (Option.some.inj (hfour.symm.trans hsame))
  simp at hexecution

end Launch

end Reckoner.Machine
