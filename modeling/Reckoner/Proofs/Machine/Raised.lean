import Reckoner.Proofs.Machine.Launches

/-!
No failure is lost. What a step raises is read off the step alone: the first thing that it needs and
does not get, or else the error of what is nested in it. The failure of a run is the first thing
raised in it, and whatever is raised at any level comes to the top.
-/

namespace Reckoner.Machine

namespace Launch

inductive Raises (l : Launch) (c : Config) : Error → Prop where
  | alone {e : Error} (hattempt : c.attempt = .error e) : Raises l c e
  | refused {inner : Inner} {below : Stack} {rest : Program} {s : State} {e : Error}
      (hattempt : c.attempt = .ok ())
      (hnext : c.next? = some (.done (.pending inner below, rest) s))
      (hprogram : inner.program l.depth s.env = .error e) : Raises l c e
  /-- What is nested has failed, or left no value. -/
  | nested {inner : Inner} {below : Stack} {rest : Program} {s : State} {program : Program}
      {fuel : Nat} {execution : Execution} {env : Environment} {journal : List Event} {e : Error}
      (hattempt : c.attempt = .ok ())
      (hnext : c.next? = some (.done (.pending inner below, rest) s))
      (hprogram : inner.program l.depth s.env = .ok program) (hfuel : l.fuel = fuel + 1)
      (hresult : (inner.launch fuel l.depth program s).result = some (execution, env, journal))
      (hlast : execution.last = .error e) : Raises l c e

def StopsWith (l : Launch) (e : Error) : Prop := ∃ c s, l.Visits c ∧ c.next? = some (.stopped e s)

def FailsAt (l : Launch) (c : Config) : Prop :=
  (∃ e, l.Raises c e) ∨ ∃ e s, c.next? = some (.stopped e s)

/-- The run comes by this configuration before anything is raised. -/
def VisitsFirst (l : Launch) : Config → Prop :=
  Relation.ReflTransGen (fun c c' => l.Moves c c' ∧ ¬ ∃ e, l.Raises c e) l.start

def FirstRaises (l : Launch) (e : Error) : Prop := ∃ c, l.VisitsFirst c ∧ l.Raises c e

variable {l : Launch} {c c' : Config}

section Alone

variable {inner : Inner} {below : Stack} {rest : Program} {s : State}
  (hattempt : c.attempt = .ok ())

include hattempt

theorem not_raises_of_ended {after : Stack}
    (hnext : c.next? = some (.done (.ended after, rest) s)) (e : Error) : ¬ l.Raises c e := by
  intro h
  cases h with
  | alone hattempt' => cases hattempt.symm.trans hattempt'
  | refused _ hnext' | nested _ hnext' => cases hnext.symm.trans hnext'

theorem raises_iff_of_refused {e e' : Error}
    (hnext : c.next? = some (.done (.pending inner below, rest) s))
    (hprogram : inner.program l.depth s.env = .error e) : l.Raises c e' ↔ e = e' := by
  constructor
  · intro h
    cases h with
    | alone hattempt' => cases hattempt.symm.trans hattempt'
    | refused _ hnext' hprogram' =>
      cases hnext.symm.trans hnext'
      exact Except.error.inj (hprogram.symm.trans hprogram')
    | nested _ hnext' hprogram' =>
      cases hnext.symm.trans hnext'
      cases hprogram.symm.trans hprogram'
  · rintro rfl
    exact .refused hattempt hnext hprogram

theorem raises_iff_of_returned {program : Program} {fuel : Nat} {execution : Execution}
    {env : Environment} {journal : List Event} {e : Error}
    (hnext : c.next? = some (.done (.pending inner below, rest) s))
    (hprogram : inner.program l.depth s.env = .ok program) (hfuel : l.fuel = fuel + 1)
    (hresult : (inner.launch fuel l.depth program s).result = some (execution, env, journal)) :
    l.Raises c e ↔ execution.last = .error e := by
  constructor
  · intro h
    cases h with
    | alone hattempt' => cases hattempt.symm.trans hattempt'
    | refused _ hnext' hprogram' =>
      cases hnext.symm.trans hnext'
      cases hprogram.symm.trans hprogram'
    | nested _ hnext' hprogram' hfuel' hresult' hlast' =>
      cases hnext.symm.trans hnext'
      cases hprogram.symm.trans hprogram'
      cases hfuel.symm.trans hfuel'
      cases hresult.symm.trans hresult'
      exact hlast'
  · exact .nested hattempt hnext hprogram hfuel hresult

end Alone

/-- A step raises at most one error. -/
theorem Raises.unique {e e' : Error} (h : l.Raises c e) (h' : l.Raises c e') : e = e' := by
  cases h with
  | alone hattempt =>
    cases h' with
    | alone hattempt' => exact Except.error.inj (hattempt.symm.trans hattempt')
    | refused hattempt' | nested hattempt' => cases hattempt.symm.trans hattempt'
  | refused hattempt hnext hprogram =>
    exact (raises_iff_of_refused hattempt hnext hprogram).1 h'
  | nested hattempt hnext hprogram hfuel hresult hlast =>
    have hlast' := (raises_iff_of_returned hattempt hnext hprogram hfuel hresult).1 h'
    exact Except.error.inj (hlast.symm.trans hlast')

theorem failure_of_next? {half : Turn} {rest : Program} {s : State} (hsound : c.IsSound)
    (hnext : c.next? = some (.done (half, rest) s)) :
    s.failure = c.state.failure.after c.attempt := by
  obtain ⟨instruction, more, -, hattempt, hturns⟩ := turnsTo_of_next? hsound hnext
  rw [hattempt]
  cases hturns with
  | ended _ _ hfailure => exact hfailure
  | pending _ hfailure => exact hfailure

/-- What a step raises is reported, and nothing else is. -/
theorem failure_of_moves (hsound : c.IsSound) (h : l.Moves c c') :
    (∃ e, l.Raises c e ∧ c'.state.failure = c.state.failure.set e) ∨
      (¬ ∃ e, l.Raises c e) ∧ c'.state.failure = c.state.failure := by
  cases hattempt : c.attempt with
  | error e =>
    refine .inl ⟨e, .alone hattempt, ?_⟩
    -- Whatever follows in the same step is reported second.
    cases h with
    | ended hnext => rw [failure_of_next? hsound hnext, hattempt, FirstError.after_error]
    | refused hnext =>
      dsimp only
      rw [failure_of_next? hsound hnext, hattempt, FirstError.after_error, FirstError.set_set]
    | returned hnext =>
      dsimp only
      rw [failure_of_next? hsound hnext, hattempt, FirstError.after_error, FirstError.after_set]
  | ok _ =>
    cases h with
    | ended hnext =>
      refine .inr ⟨fun ⟨e, hraises⟩ => not_raises_of_ended hattempt hnext e hraises, ?_⟩
      rw [failure_of_next? hsound hnext, hattempt, FirstError.after_ok]
    | @refused _ _ _ _ e hnext hprogram =>
      refine .inl ⟨e, .refused hattempt hnext hprogram, ?_⟩
      dsimp only
      rw [failure_of_next? hsound hnext, hattempt, FirstError.after_ok]
    | @returned _ _ _ _ _ _ execution _ _ hnext hprogram hfuel hresult =>
      dsimp only
      rw [failure_of_next? hsound hnext, hattempt, FirstError.after_ok]
      cases hlast : execution.last with
      | error e => exact .inl ⟨e, .nested hattempt hnext hprogram hfuel hresult hlast, rfl⟩
      | ok v =>
        refine .inr ⟨fun ⟨e, hraises⟩ => ?_, rfl⟩
        cases hlast.symm.trans
          ((raises_iff_of_returned hattempt hnext hprogram hfuel hresult).1 hraises)

/-- Something is nested behind a failure only if a condition has no value. -/
theorem look_of_pending {inner : Inner} {below : Stack} {rest : Program} {s : State} {e : Error}
    (hsound : c.IsSound) (hattempt : c.attempt = .error e)
    (hnext : c.next? = some (.done (.pending inner below, rest) s)) :
    (∃ more, c.program = .operator .question :: more) ∧ look c.state.env c.stack = .error e := by
  obtain ⟨instruction, more, hprogram, hsame, hturns⟩ := turnsTo_of_next? hsound hnext
  rw [hsame] at hattempt
  cases hturns with
  | pending _ _ hquestion =>
    cases hquestion (by rw [hattempt]; nofun)
    refine ⟨⟨_, hprogram⟩, ?_⟩
    change (look c.state.env c.stack).map _ = _ at hattempt
    cases hlook : look c.state.env c.stack with
    | error e' =>
      rw [hlook] at hattempt
      cases hattempt
      rfl
    | ok v =>
      rw [hlook] at hattempt
      cases hattempt

/-- A step that raises something leaves a failed entry, unless only its condition had no value. -/
theorem stack_of_raises {e : Error} (hsound : c.IsSound) (hraises : l.Raises c e)
    (h : l.Moves c c') :
    (∃ below, c'.stack = .failed :: below) ∨
      (∃ more, c.program = .operator .question :: more) ∧ look c.state.env c.stack = .error e := by
  cases hattempt : c.attempt with
  | error e' =>
    cases hraises.unique (.alone hattempt)
    cases h with
    | ended hnext =>
      obtain ⟨instruction, more, -, hsame, hturns⟩ := turnsTo_of_next? hsound hnext
      rw [hsame] at hattempt
      cases hturns with
      | ended _ _ _ _ hresult => exact .inl (hresult (by rw [hattempt]; nofun))
    | refused hnext => exact .inr (look_of_pending hsound hattempt hnext)
    | returned hnext => exact .inr (look_of_pending hsound hattempt hnext)
  | ok _ =>
    refine .inl ?_
    cases h with
    | ended hnext => exact absurd hraises (not_raises_of_ended hattempt hnext e)
    | refused hnext => exact ⟨_, rfl⟩
    | returned hnext hprogram hfuel hresult =>
      dsimp only
      rw [(raises_iff_of_returned hattempt hnext hprogram hfuel hresult).1 hraises]
      exact ⟨_, rfl⟩

/-- The first failure stays. -/
theorem failure_eq_of_moves (hvisits : l.Visits c) (hset : c.state.failure.isSet)
    (h : Relation.ReflTransGen l.Moves c c') : c'.state.failure = c.state.failure := by
  induction h with
  | refl => rfl
  | tail hmoves hmove ih =>
    have hsound := isSound_of_visits (hvisits.moves hmoves)
    rcases failure_of_moves hsound hmove with ⟨e, -, hfailure⟩ | ⟨-, hfailure⟩
    · rw [hfailure, ih, FirstError.set_of_isSet hset]
    · rw [hfailure, ih]

theorem VisitsFirst.visits (h : l.VisitsFirst c) : l.Visits c := by
  induction h with
  | refl => exact l.visits_start
  | tail _ hmove ih => exact ih.move hmove.1

theorem VisitsFirst.failure_eq (h : l.VisitsFirst c) : c.state.failure = FirstError.none := by
  induction h with
  | refl => rfl
  | tail hfirst hmove ih =>
    rcases failure_of_moves (isSound_of_visits (VisitsFirst.visits hfirst)) hmove.1 with
      ⟨e, hraises, -⟩ | ⟨-, hfailure⟩
    · exact absurd ⟨e, hraises⟩ hmove.2
    · rw [hfailure, ih]

/-- The failure that is held is the first one raised. -/
theorem visitsFirst_or_firstRaises (h : l.Visits c) :
    l.VisitsFirst c ∨ ∃ e, l.FirstRaises e ∧ c.state.failure = ⟨some e⟩ := by
  refine h.induct
    (P := fun c => l.VisitsFirst c ∨ ∃ e, l.FirstRaises e ∧ c.state.failure = ⟨some e⟩)
    (.inl .refl) fun c c' hvisits hc hmove => ?_
  have hmoved := failure_of_moves (isSound_of_visits hvisits) hmove
  rcases hc with hfirst | ⟨e, hraised, hfailure⟩
  · rcases hmoved with ⟨e, hraises, hset⟩ | ⟨hquiet, -⟩
    · refine .inr ⟨e, ⟨c, hfirst, hraises⟩, ?_⟩
      rw [hset, hfirst.failure_eq]
      rfl
    · exact .inl (hfirst.tail ⟨hmove, hquiet⟩)
  · refine .inr ⟨e, hraised, ?_⟩
    rw [← hfailure]
    exact failure_eq_of_moves hvisits (by rw [hfailure]; rfl) (.single hmove)

/-! What the run gives. -/

variable {execution : Execution} {env : Environment} {journal : List Event}

theorem attempt_nil (h : c.program = []) :
    c.attempt = (lookAll c.state.env c.stack.reverse).map fun _ => () := by
  rw [Config.attempt, h]

/-- A run that is not stopped fails like its steps, or like the collection of the values. -/
theorem failure_of_ends (hvisits : l.Visits c) (h : Ends c execution env journal) :
    c.program = [] ∧ execution.failure = (c.state.failure.after c.attempt).held ∨
      ∃ e s, c.next? = some (.stopped e s) ∧ execution.failure = some e := by
  cases h with
  | collected hprogram hcollect =>
    obtain ⟨values, ⟨journal', hreads⟩, -⟩ := collect_of_visits hvisits
    rw [hreads] at hcollect
    cases hcollect
    exact .inl ⟨hprogram, by rw [attempt_nil hprogram, after_map]⟩
  | stopped hnext => exact .inr ⟨_, _, hnext, rfl⟩

theorem failure_of_stopsWith {e : Error} (hresult : l.result = some (execution, env, journal))
    (h : l.StopsWith e) : execution.failure = some e := by
  obtain ⟨c, s, hvisits, hnext⟩ := h
  cases hresult.symm.trans (result_iff.2 ⟨c, hvisits, .stopped hnext⟩)
  rfl

/-- What is raised stays the failure of the run, unless the run is stopped. -/
theorem failure_of_raises {e : Error} (hresult : l.result = some (execution, env, journal))
    (hvisits : l.Visits c) (hraises : l.Raises c e) :
    execution.failure = (c.state.failure.set e).held ∨
      ∃ e', l.StopsWith e' ∧ execution.failure = some e' := by
  obtain ⟨last, hmoves, hends⟩ := exists_ends hresult hvisits
  have hlast := hvisits.moves hmoves
  rcases failure_of_ends hlast hends with ⟨hprogram, hfailure⟩ | ⟨e', s, hnext, hfailure⟩
  · refine .inl ?_
    rw [hfailure]
    rcases hmoves.cases_head with rfl | ⟨c', hmove, hmoves⟩
    · -- At the end of the program nothing is nested.
      cases hraises with
      | alone hattempt => rw [hattempt, FirstError.after_error]
      | refused _ hnext | nested _ hnext =>
        rw [Config.next?, hprogram] at hnext
        cases hnext
    · have hset : c'.state.failure = c.state.failure.set e := by
        rcases failure_of_moves (isSound_of_visits hvisits) hmove with
          ⟨e', hraises', hset⟩ | ⟨hquiet, -⟩
        · rw [hset, hraises.unique hraises']
        · exact absurd ⟨e, hraises⟩ hquiet
      have hkept := failure_eq_of_moves (hvisits.move hmove)
        (by rw [hset, FirstError.isSet_set]) hmoves
      rw [hkept, hset, FirstError.after_set]
  · exact .inr ⟨e', ⟨last, s, hlast, hnext⟩, hfailure⟩

theorem failure_of_failsAt (hresult : l.result = some (execution, env, journal))
    (hvisits : l.Visits c) (h : l.FailsAt c) : execution.failure.isSome := by
  rcases h with ⟨e, hraises⟩ | ⟨e, s, hnext⟩
  · rcases failure_of_raises hresult hvisits hraises with hfailure | ⟨e', -, hfailure⟩
    · rw [hfailure]
      exact FirstError.isSet_set _ _
    · rw [hfailure]
      rfl
  · rw [failure_of_stopsWith hresult ⟨c, s, hvisits, hnext⟩]
    rfl

theorem last_of_isSome (h : execution.failure.isSome) : ∃ e, execution.last = .error e := by
  obtain ⟨values, failure⟩ := execution
  obtain ⟨e, rfl⟩ := Option.isSome_iff_exists.1 h
  exact ⟨e, rfl⟩

/-- A run fails with any run that is nested in it. -/
theorem failure_of_nests {l' : Launch} {execution' : Execution} {env' : Environment}
    {journal' : List Event} (hresult : l.result = some (execution, env, journal))
    (h : l.Nests l') (hresult' : l'.result = some (execution', env', journal'))
    (hfailure : execution'.failure.isSome) : execution.failure.isSome := by
  obtain @⟨c, _, _, _, _, _, _, hvisits, hnext, hprogram, hfuel⟩ := h
  refine failure_of_failsAt hresult hvisits (.inl ?_)
  cases hattempt : c.attempt with
  | error e => exact ⟨e, .alone hattempt⟩
  | ok _ =>
    obtain ⟨e, hlast⟩ := last_of_isSome hfailure
    exact ⟨e, .nested hattempt hnext hprogram hfuel hresult' hlast⟩

/-- Whatever fails at any level, the run fails. -/
theorem failure_of_makes {l' : Launch} (hresult : l.result = some (execution, env, journal))
    (h : l.Makes l') (hvisits : l'.Visits c) (hfails : l'.FailsAt c) :
    execution.failure.isSome := by
  induction h using Relation.ReflTransGen.head_induction_on generalizing execution env journal with
  | refl => exact failure_of_failsAt hresult hvisits hfails
  | @head l₁ l₂ hnests hmakes ih =>
    have hmade : l₁.Makes l₂ := .single hnests
    obtain ⟨⟨execution', env', journal'⟩, hresult'⟩ :=
      Option.ne_none_iff_exists'.1 (hmade.result_ne_none (hresult ▸ nofun))
    exact failure_of_nests hresult hnests hresult' (ih hresult')

theorem failure_eq_some_iff_firstRaises {e : Error}
    (hresult : l.result = some (execution, env, journal)) (hstops : ¬ ∃ e', l.StopsWith e') :
    execution.failure = some e ↔ l.FirstRaises e := by
  constructor
  · intro hfailure
    obtain ⟨c, hvisits, hends⟩ := result_iff.1 hresult
    rcases failure_of_ends hvisits hends with ⟨-, hheld⟩ | ⟨e', s, hnext, -⟩
    · rw [hfailure] at hheld
      rcases visitsFirst_or_firstRaises hvisits with hfirst | ⟨e', hraises, hset⟩
      · -- Then only the collection of the values can have failed.
        rw [hfirst.failure_eq] at hheld
        cases hattempt : c.attempt with
        | error e' =>
          rw [hattempt] at hheld
          cases hheld
          exact ⟨c, hfirst, .alone hattempt⟩
        | ok _ =>
          rw [hattempt] at hheld
          cases hheld
      · rw [hset, FirstError.after_of_isSet rfl] at hheld
        cases hheld
        exact hraises
    · exact absurd ⟨e', c, s, hvisits, hnext⟩ hstops
  · rintro ⟨c, hfirst, hraises⟩
    rcases failure_of_raises hresult hfirst.visits hraises with hfailure | ⟨e', hstops', -⟩
    · rw [hfailure, hfirst.failure_eq]
      rfl
    · exact absurd ⟨e', hstops'⟩ hstops

/-- A run fails just when something in it gives no value or is malformed, at whatever level. A step
that gives no value leaves a failed entry, unless it only had no value to choose a branch by, and a
failed entry is on a stack only behind a failure. The failure is that of the malformed instruction,
if there is one, and else the error of the earliest step that raises any. -/
theorem failure_iff (h : l.result = some (execution, env, journal)) :
    (execution.failure.isSome ↔ ∃ l' c, l.Makes l' ∧ l'.Visits c ∧ l'.FailsAt c) ∧
      (∀ l' c c' e, l.Makes l' → l'.Visits c → l'.Raises c e → l'.Moves c c' →
        (∃ below, c'.stack = .failed :: below) ∨
          (∃ more, c.program = .operator .question :: more) ∧
            look c.state.env c.stack = .error e) ∧
      (∀ l' c, l.Makes l' → l'.Visits c → .failed ∈ c.stack → c.state.failure.isSet) ∧
      ∀ e, execution.failure = some e ↔
        l.StopsWith e ∨ (¬ ∃ e', l.StopsWith e') ∧ l.FirstRaises e := by
  have hfirst (e : Error) : execution.failure = some e ↔
      l.StopsWith e ∨ (¬ ∃ e', l.StopsWith e') ∧ l.FirstRaises e := by
    by_cases hstops : ∃ e', l.StopsWith e'
    · obtain ⟨e', hstopped⟩ := hstops
      have hfailure := failure_of_stopsWith h hstopped
      refine ⟨fun he => ?_, ?_⟩
      · cases he.symm.trans hfailure
        exact .inl hstopped
      · rintro (hstopped' | ⟨hstops, -⟩)
        · exact failure_of_stopsWith h hstopped'
        · exact absurd ⟨e', hstopped⟩ hstops
    · rw [failure_eq_some_iff_firstRaises h hstops]
      exact ⟨fun hraises => .inr ⟨hstops, hraises⟩,
        fun hor => hor.elim (fun hstopped => absurd ⟨e, hstopped⟩ hstops) And.right⟩
  refine ⟨⟨fun hfailure => ?_, ?_⟩, fun l' c c' e _ hvisits =>
    stack_of_raises (isSound_of_visits hvisits), fun l' c _ hvisits => isSound_of_visits hvisits,
    hfirst⟩
  · obtain ⟨e, he⟩ := Option.isSome_iff_exists.1 hfailure
    rcases (hfirst e).1 he with ⟨c, s, hvisits, hnext⟩ | ⟨-, c, hvisits, hraises⟩
    · exact ⟨l, c, .refl, hvisits, .inr ⟨e, s, hnext⟩⟩
    · exact ⟨l, c, .refl, hvisits.visits, .inl ⟨e, hraises⟩⟩
  · rintro ⟨l', c, hmakes, hvisits, hfails⟩
    exact failure_of_makes h hmakes hvisits hfails

def threeUnknown : Launch where
  fuel := 1
  depth := 0
  program := [.startBlock, .value (.integer 1), .endBlock, .startBlock, .name "b", .endBlock,
    .name "a", .operator .question, .name "c", .operator .comma]
  env := {}
  journal := []

/-- The condition fails first, then the branch that it chooses, and `c` at the end. -/
theorem failure_threeUnknown :
    threeUnknown.result = some (⟨[], some (.invalidValue "undefined variable 'a'")⟩, {}, []) ∧
      (∃ l c, threeUnknown.Makes l ∧ l.Visits c ∧ l.FailsAt c) ∧
      (threeUnknown.StopsWith (.invalidValue "undefined variable 'a'") ∨
        (¬ ∃ e, threeUnknown.StopsWith e) ∧
          threeUnknown.FirstRaises (.invalidValue "undefined variable 'a'")) := by
  have h : threeUnknown.result =
      some (⟨[], some (.invalidValue "undefined variable 'a'")⟩, {}, []) := by cbv
  exact ⟨h, (failure_iff h).1.1 rfl, ((failure_iff h).2.2.2 _).1 rfl⟩

end Launch

end Reckoner.Machine
