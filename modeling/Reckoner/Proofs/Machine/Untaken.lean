import Reckoner.Proofs.Machine.Along
import Reckoner.Proofs.Machine.Blocks
import Reckoner.Proofs.Machine.Discipline
import Reckoner.Proofs.Machine.Raised

/-!
The branch that is not taken. Code that runs without failure needs nothing but what it pushed
itself, so a condition does above the two branches what it does alone. The branches wait as blocks
below it, one of them is run, and the other is dropped as it is: whatever stands in it, the run is
the same.
-/

namespace Reckoner.Machine

def WellNested (code : Program) : Prop := HasBlocks (fun _ => True) code

def choice (first second condition : Program) : Program :=
  [.startBlock] ++ first ++ [.endBlock, .startBlock] ++ second ++ [.endBlock] ++ condition ++
    [.operator .question]

open Program in
/-- Branches are written so. -/
theorem wellNested_of_emits {registry : Registry} {tree : Tree} {code : Program}
    (h : Emits registry tree code) : WellNested code :=
  (hasBlocks_of_emits h).mono fun _ _ => trivial

/-! Steps above other entries. -/

def Config.above (more : Program) (below : Stack) (c : Config) : Config :=
  ⟨c.program ++ more, c.stack ++ below, c.state⟩

variable {runner : Runner} {depth : Nat} {c c' : Config}

theorem map_eq_ok {α β : Type} {r : Except Error α} {f : α → β} {b : β} (h : r.map f = .ok b) :
    ∃ a, r = .ok a := by
  cases r with
  | error e => cases h
  | ok a => exact ⟨a, rfl⟩

theorem exists_of_look {env : Environment} {stack : Stack} {v : Value}
    (h : look env stack = .ok v) : ∃ slot rest, stack = slot :: rest := by
  cases stack with
  | nil => cases h
  | cons slot rest => exact ⟨slot, rest, rfl⟩

/-- A conditional that is not stopped finds both branches below its condition. -/
theorem branches_of_conditional {condition : Slot} {others after : Stack} {s s' : State}
    (h : conditional runner depth (condition :: others) s = .done after s') :
    ∃ second first rest, others = .block second :: .block first :: rest := by
  obtain ⟨⟨v, popped⟩, t, hpop, h⟩ := bind_eq_done.1 h
  obtain ⟨v', t', -, hpure⟩ := bind_eq_done.1 hpop
  cases hpure
  dsimp only at h
  split at h
  · exact ⟨_, _, _, rfl⟩
  · cases h

/-- An operator that does not fail finds its operands above the other entries. -/
theorem operator_append {op : Operator} {stack after : Stack} {s s' : State}
    (hattempt : attempt s.env (.operator op) stack = .ok ())
    (h : operator runner depth op stack s = .done after s') (below : Stack) :
    operator runner depth op (stack ++ below) s = .done (after ++ below) s' := by
  have hreturn {m m' : Machine Stack} (hm : m' = do return (← m) ++ below)
      (hdone : m s = .done after s') : m' s = .done (after ++ below) s' := by
    rw [hm, bind_eq, hdone]
    rfl
  by_cases hone : op.takesOne
  · rw [operator_of_takesOne hone] at h ⊢
    simp only [attempt, hone, if_true] at hattempt
    obtain ⟨v, hresult⟩ := map_eq_ok hattempt
    obtain ⟨_, hlook, -⟩ := Program.bind_eq_ok.1 hresult
    obtain ⟨operand, rest, rfl⟩ := exists_of_look hlook
    exact hreturn (unary_append op operand rest below) h
  · by_cases htwo : op.takesTwo
    · rw [operator_of_takesTwo htwo] at h ⊢
      simp only [attempt, hone, htwo, if_true, Bool.false_eq_true, if_false] at hattempt
      obtain ⟨v, hresult⟩ := map_eq_ok hattempt
      obtain ⟨_, hright, hresult⟩ := Program.bind_eq_ok.1 hresult
      obtain ⟨_, hleft, -⟩ := Program.bind_eq_ok.1 hresult
      obtain ⟨right, others, rfl⟩ := exists_of_look hright
      obtain ⟨left, rest, rfl⟩ := exists_of_look hleft
      exact hreturn (binary_append op right left rest below) h
    · cases op with
      | comma =>
        cases h
        rfl
      | assign =>
        obtain ⟨v, hresult⟩ := map_eq_ok hattempt
        obtain ⟨_, hlook, hwrite⟩ := Program.bind_eq_ok.1 hresult
        obtain ⟨value, others, rfl⟩ := exists_of_look hlook
        cases others with
        | nil => cases hwrite
        | cons target rest => exact hreturn (assign_append value target rest below) h
      | question =>
        obtain ⟨condition, others, rfl⟩ := exists_of_look (map_eq_ok hattempt).choose_spec
        obtain ⟨second, first, rest, rfl⟩ := branches_of_conditional h
        exact hreturn (conditional_append condition second first rest below) h
      | _ => first | exact absurd rfl hone | exact absurd rfl htwo | cases h

/-- Whatever is below stays there, and a step that does not fail does not see it. -/
theorem step_above (hattempt : c.attempt = .ok ()) (h : Step runner depth c c') (more : Program)
    (below : Stack) : Step runner depth (c.above more below) (c'.above more below) := by
  cases h with
  | name name program stack s => exact .name name _ _ s
  | value v program stack s => exact .value v _ _ s
  | openCall program stack s => exact .openCall _ _ s
  | startBlock hsplit stack s => exact .startBlock (splitBlock_append more hsplit) _ s
  | @call name target program stack after s s' hcall =>
    refine .call _ ?_
    cases hsplit : splitCall [] stack with
    | none =>
      rw [call, hsplit] at hcall
      cases hcall
    | some parts =>
      rw [call_append name target hsplit, bind_eq, hcall]
      rfl
  | operator program hoperator => exact .operator _ (operator_append hattempt hoperator below)

namespace Launch

variable {l : Launch} {values : List Value} {env : Environment} {journal : List Event}

/-- In a run without failure nothing is attempted in vain. -/
theorem attempt_of_visits (hresult : l.result = some (⟨values, none⟩, env, journal))
    (hvisits : l.Visits c) : c.attempt = .ok () := by
  cases hattempt : c.attempt with
  | ok => rfl
  | error e =>
    have hfails : l.FailsAt c := .inl ⟨e, .alone hattempt⟩
    cases failure_of_failsAt hresult hvisits hfails

/-- A run without failure goes the same way above other entries. -/
theorem reaches_above (hresult : l.result = some (⟨values, none⟩, env, journal))
    (hvisits : l.Visits c) (more : Program) (below : Stack) :
    Reaches l.runner l.depth (l.start.above more below) (c.above more below) := by
  refine hvisits.induct
    (P := fun c => Reaches l.runner l.depth (l.start.above more below) (c.above more below))
    .refl fun c c' hc ih hmove => ?_
  have hattempt := attempt_of_visits hresult hc
  exact ih.tail (step_above hattempt (step_iff_moves.2 hmove) more below)

/-- A run that gives one value ends with the entry that has it. -/
theorem exists_slot_of_result {v : Value} (hresult : l.result = some (⟨[v], none⟩, env, journal)) :
    ∃ slot s t, l.Visits ⟨[], [slot], s⟩ ∧ resolve slot s = .done (some v) t ∧
      t.env = env ∧ t.journal = journal ∧ t.failure = FirstError.none := by
  obtain ⟨⟨program, stack, s⟩, hvisits, hends⟩ := result_iff.1 hresult
  generalize hexecution : (⟨[v], none⟩ : Execution) = execution at hends
  cases hends with
  | stopped => cases hexecution
  | @collected values t hprogram hcollect =>
    obtain ⟨rfl, hheld⟩ := Execution.mk.inj hexecution
    cases hprogram
    have hlength := (length_of_collect hcollect hheld.symm).1
    obtain ⟨slot, rfl⟩ : ∃ slot, stack = [slot] :=
      List.length_eq_one_iff.1 (by simpa using hlength.symm)
    exact ⟨slot, s, t, hvisits, resolve_of_collect hcollect, rfl, rfl,
      congrArg FirstError.mk hheld.symm⟩

end Launch

/-! The branch that is taken. -/

def Execution.ofResult : Except Error Value → Execution
  | .ok v => ⟨[v], none⟩
  | .error e => ⟨[], some e⟩

variable {a b condition : Program} {fuel : Nat} {v : Value} {env env' : Environment}
  {journal journal' : List Event}

/-- A conditional goes on with the branch that its condition chooses, from where the condition
ended, and gives the last value of that branch. -/
theorem run_choice (ha : WellNested a) (hb : WellNested b)
    (hcondition : run (fuel + 1) depth condition env journal = some (⟨[v], none⟩, env', journal')) :
    run (fuel + 1) depth (choice a b condition) env journal =
      (run fuel depth (if v.toBoolean?.getD false then a else b) env' journal').map
        fun (execution, after, journal) => (Execution.ofResult execution.last, after, journal) := by
  obtain ⟨slot, s, t, hvisits, hresolve, rfl, rfl, hfailure⟩ :=
    Launch.exists_slot_of_result (l := ⟨fuel, depth, condition, env, journal⟩) hcondition
  -- Both blocks are pushed first.
  have hblocks : Reaches (run fuel) depth
      ⟨choice a b condition, [], ⟨env, journal, FirstError.none⟩⟩
      ⟨condition ++ [.operator .question], [.block b, .block a],
        ⟨env, journal, FirstError.none⟩⟩ := by
    rw [choice, Program.choice_eq_cons]
    exact (Relation.ReflTransGen.single (.startBlock (ha.balanced.splitBlock_append _) _ _)).tail
      (.startBlock (hb.balanced.splitBlock_append _) _ _)
  have habove := Launch.reaches_above (l := ⟨fuel, depth, condition, env, journal⟩) hcondition
    hvisits [.operator .question] [.block b, .block a]
  have hchoice : Launch.Visits ⟨fuel, depth, choice a b condition, env, journal⟩
      ⟨[.operator .question], [slot, .block b, .block a], s⟩ := hblocks.trans habove
  have houtcome : Launch.outcome ⟨fuel, depth, choice a b condition, env, journal⟩
      ⟨[.operator .question], [slot, .block b, .block a], s⟩ =
      (do let execution ← nested (run fuel) depth (if v.toBoolean?.getD false then a else b)
          collect [← slotOf execution.last]) t := by
    rw [Launch.outcome, perform_operator]
    simp only [operator, conditional, popValue, bind_assoc, pure_bind, perform_nil]
    rw [bind_eq, hresolve]
    rfl
  have hresult := Launch.result_eq_of_visits hchoice
  rw [houtcome, bind_eq, nested] at hresult
  refine hresult.trans ?_
  cases run fuel depth (if v.toBoolean?.getD false then a else b) t.env t.journal with
  | none => rfl
  | some result =>
    obtain ⟨execution, after, journal'⟩ := result
    simp only [bind_eq, slotOf_eq, hfailure, Option.map_some]
    cases execution.last <;> rfl

/-- The branch that is not taken has no influence, whether the run of the other one comes to an end
or not. -/
theorem run_choice_congr {a' b' : Program} {enough : Nat} (ha : WellNested a) (hb : WellNested b)
    (ha' : WellNested a') (hb' : WellNested b')
    (hcondition : run enough depth condition env journal = some (⟨[v], none⟩, env', journal'))
    (htaken : if v.toBoolean?.getD false then a' = a else b' = b) :
    (∀ fuel, enough ≤ fuel → run fuel depth (choice a' b' condition) env journal =
      run fuel depth (choice a b condition) env journal) ∧
    ∀ result, (∃ fuel, run fuel depth (choice a' b' condition) env journal = some result) ↔
      ∃ fuel, run fuel depth (choice a b condition) env journal = some result := by
  have hsame : ∀ fuel, enough ≤ fuel → run fuel depth (choice a' b' condition) env journal =
      run fuel depth (choice a b condition) env journal := by
    intro fuel hle
    have hmore := run_of_le hle hcondition
    cases fuel with
    | zero => cases hmore
    | succ fuel =>
      rw [run_choice ha hb hmore, run_choice ha' hb' hmore]
      split at htaken
      · next hholds => simp only [hholds, if_true, htaken]
      · next hholds => simp only [hholds, Bool.false_eq_true, if_false, htaken]
  refine ⟨hsame, fun result => ⟨fun ⟨fuel, h⟩ => ?_, fun ⟨fuel, h⟩ => ?_⟩⟩
  · exact ⟨max enough fuel,
      (hsame _ (Nat.le_max_left _ _)).symm.trans (run_of_le (Nat.le_max_right _ _) h)⟩
  · exact ⟨max enough fuel,
      (hsame _ (Nat.le_max_left _ _)).trans (run_of_le (Nat.le_max_right _ _) h)⟩

def assignsTrue : Program := [.name "y", .value (.boolean true), .operator .assign]

def malformed : Program :=
  [.startBlock, .call "f" none, .endBlock, .operator .question, .operator .colon]

theorem wellNested_malformed : WellNested malformed := by
  have hbody : WellNested [.call "f" none] := .of_forall (by simp)
  have hmore : WellNested [.operator .question, .operator .colon] := .of_forall (by simp)
  exact .block hbody trivial hmore

/-- The value assigned by the condition is read in the first branch. -/
theorem run_choice_malformed :
    ∃ env, run 1 0 assignsTrue {} [] = some (⟨[.boolean true], none⟩, env, []) ∧
      WellNested malformed ∧ WellNested [.name "y"] ∧ WellNested [] ∧
      run 2 0 (choice [.name "y"] [] assignsTrue) {} [] =
        some (⟨[.boolean true], none⟩, env, []) ∧
      ∀ fuel, 1 ≤ fuel → run fuel 0 (choice [.name "y"] malformed assignsTrue) {} [] =
        run fuel 0 (choice [.name "y"] [] assignsTrue) {} [] := by
  obtain ⟨env, hcondition, hchoice⟩ : ∃ env,
      run 1 0 assignsTrue {} [] = some (⟨[.boolean true], none⟩, env, []) ∧
        run 2 0 (choice [.name "y"] [] assignsTrue) {} [] =
          some (⟨[.boolean true], none⟩, env, []) := ⟨_, by cbv, by cbv⟩
  have hname : WellNested [.name "y"] := .of_forall (by simp)
  exact ⟨env, hcondition, wellNested_malformed, hname, .nil, hchoice,
    (run_choice_congr hname .nil hname wellNested_malformed hcondition rfl).1⟩

end Reckoner.Machine
