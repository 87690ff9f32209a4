import Reckoner.Proofs.Session.Assignments

/-!
Steps behind a variable. The value of before is not kept but made again, by taking the step back on
the value that has been written. For integers this always gives it, as they wrap around both ways;
for reals it does when no digit is lost; and strings can be added to but not taken from.
-/

namespace Reckoner

namespace Value

def stepped (op : Operator) (v : Value) : Except Error Value :=
  Machine.applyBinary (if op = .increment then .plus else .minus) v (.integer 1)

def steppedBack (op : Operator) (v : Value) : Except Error Value :=
  Machine.applyBinary (if op = .increment then .minus else .plus) v (.integer 1)

def IsUndone (op : Operator) : Value → Prop
  | real r =>
    let one := Double.ofInteger 1
    if op = .increment then r + one - one = r else r - one + one = r
  | string _ => op ≠ .increment
  | boolean _ | integer _ | null => True

variable {op : Operator}

theorem stepped_of_ne (hop : op ≠ .increment) (v : Value) :
    stepped op v = Machine.applyBinary .minus v (.integer 1) := by
  rw [stepped, if_neg hop]

theorem steppedBack_of_ne (hop : op ≠ .increment) (v : Value) :
    steppedBack op v = Machine.applyBinary .plus v (.integer 1) := by
  rw [steppedBack, if_neg hop]

inductive Steps (op : Operator) (old : Value) : Prop where
  | never {e : Error} (hnext : stepped op old = .error e) (hundone : old.IsUndone op)
  | back {w v : Value} (hnext : stepped op old = .ok w) (hback : steppedBack op w = .ok v)
      (hundone : old.IsUndone op ↔ v = old)
  | lost {w : Value} {e : Error} (hnext : stepped op old = .ok w)
      (hback : steppedBack op w = .error e) (hne : w ≠ old) (hundone : ¬ old.IsUndone op)

/-- Integers wrap around both ways. -/
theorem steps_integer (op : Operator) (i : Int64) : Steps op (integer i) := by
  by_cases hop : op = .increment
  · have hsame : i + 1 - 1 = i := Int64.add_sub_cancel i 1
    subst hop
    exact .back rfl rfl (iff_of_true trivial (congrArg integer hsame))
  · have hsame : i - 1 + 1 = i := Int64.sub_add_cancel i 1
    exact .back (stepped_of_ne hop _) (steppedBack_of_ne hop _)
      (iff_of_true trivial (congrArg integer hsame))

theorem steps_real (op : Operator) (r : Float) : Steps op (real r) := by
  by_cases hop : op = .increment
  · subst hop
    refine .back rfl rfl ?_
    simp only [IsUndone, if_true, real.injEq]
  · refine .back (stepped_of_ne hop _) (steppedBack_of_ne hop _) ?_
    simp only [IsUndone, if_neg hop, real.injEq]

theorem append_one_ne (text : String) : text ++ "1" ≠ text := by
  intro h
  have hlength := congrArg String.length h
  simp at hlength

/-- A string is joined with the text of the number, and nothing is taken from it. -/
theorem steps_string (op : Operator) (text : String) : Steps op (string text) := by
  by_cases hop : op = .increment
  · subst hop
    have hne : string (text ++ "1") ≠ string text := by
      intro h
      exact append_one_ne text (string.inj h)
    exact .lost rfl rfl hne (not_not_intro rfl)
  · exact .never (stepped_of_ne hop _) hop

/-- These are all the cases. -/
theorem steps (op : Operator) (old : Value) : Steps op old := by
  cases old with
  | integer i => exact steps_integer op i
  | real r => exact steps_real op r
  | string text => exact steps_string op text
  | boolean _ | null =>
    by_cases hop : op = .increment
    · subst hop
      exact .never rfl trivial
    · exact .never (stepped_of_ne hop _) trivial

end Value

namespace Machine

open Program

variable {runner : Runner} {depth : Nat} {s : State} {env : Environment} {x n : String}
  {old : Value}

/-- A binary operator in front of more instructions. -/
theorem exists_perform_binary {op : Operator} (htwo : op.takesTwo) {stack : Stack}
    (h : IsReported stack s.failure) (more : Program) :
    ∃ journal, perform runner depth (.operator op :: more) stack s =
      perform runner depth more (.ofResult (binaryResult s.env op stack) :: stack.drop 2)
        ⟨s.env, journal, s.failure.after (binaryResult s.env op stack)⟩ := by
  obtain ⟨journal, hbinary⟩ := reads_binary op h
  exact ⟨journal, by rw [perform_operator, operator_of_takesTwo htwo, bind_eq, hbinary]⟩

/-- An assignment of a value, in front of more instructions. -/
theorem exists_perform_assign {v : Value} {scope : Scope} (hset : s.env.scope.set x v = .ok scope)
    (below : Stack) (more : Program) :
    ∃ journal, perform runner depth (.operator .assign :: more) (.value v :: .name x :: below) s =
      perform runner depth more (.value v :: below) ⟨{ s.env with scope }, journal, s.failure⟩ := by
  have hassign : assign (.value v :: .name x :: below) =
      writeName x v >>= fun slot => pure (slot :: below) := rfl
  rcases writeName_cases x v s with ⟨e, herror, -⟩ | ⟨scope', journal, hset', hwrite⟩
  · cases hset.symm.trans herror
  · cases hset.symm.trans hset'
    refine ⟨journal, ?_⟩
    rw [perform_operator, operator, hassign, bind_assoc, bind_eq, hwrite]
    rfl

/-- An assignment of what has no value, in front of more instructions. -/
theorem perform_assign_failed (below : Stack) (more : Program) :
    perform runner depth (.operator .assign :: more) (.failed :: .name x :: below) s =
      perform runner depth more (.failed :: below) s := by
  rw [perform_operator]
  rfl

/-- A run that leaves one result. -/
theorem exists_run_of_perform {fuel : Nat} {program : Program} {after : Environment}
    {journal journal' : List Event} {r : Except Error Value}
    (h : perform (run fuel) depth program [] ⟨env, journal, FirstError.none⟩ =
      .done [.ofResult r] ⟨after, journal', FirstError.none.after r⟩) :
    ∃ execution, run (fuel + 1) depth program env journal = some (execution, after, journal') ∧
      execution.last = r := by
  simp only [run, runWith, bind_eq, h]
  cases r with
  | ok v => exact ⟨_, rfl, rfl⟩
  | error e => exact ⟨_, rfl, rfl⟩

theorem binaryResult_one (hfind : env.scope.find? x = some ⟨n, .own old⟩) (op : Operator)
    (below : Stack) :
    binaryResult env op (.value (.integer 1) :: .name x :: below) =
      applyBinary op old (.integer 1) := by
  simp only [binaryResult, look, List.drop_one, List.tail_cons, Slot.look,
    Scope.get?_of_find? hfind]
  rfl

theorem takesTwo_forward (op : Operator) :
    (if op = .increment then Operator.plus else .minus).takesTwo := by
  split <;> rfl

theorem takesTwo_back (op : Operator) :
    (if op = .increment then Operator.minus else .plus).takesTwo := by
  split <;> rfl

/-- The next value of a variable, which is only read. -/
theorem exists_run_next (hfind : env.scope.find? x = some ⟨n, .own old⟩) (op : Operator)
    (fuel depth : Nat) (journal : List Event) :
    ∃ execution journal', run (fuel + 1) depth
        [.name x, .value (.integer 1), .operator (if op = .increment then .plus else .minus)]
        env journal = some (execution, env, journal') ∧
      execution.last = old.stepped op := by
  obtain ⟨journal', hperform⟩ := @exists_perform_binary (run fuel) depth
    ⟨env, journal, FirstError.none⟩ _ (takesTwo_forward op) [.value (.integer 1), .name x]
    (by simp [IsReported]) []
  rw [binaryResult_one hfind, perform_nil, ← perform_value, ← perform_name] at hperform
  obtain ⟨execution, hrun, hlast⟩ := exists_run_of_perform hperform
  exact ⟨execution, journal', hrun, hlast⟩

inductive Gets (env : Environment) (x : String) : Except Error Value → Environment → Prop where
  | kept (e : Error) : Gets env x (.error e) env
  | written {w : Value} {scope : Scope} (hset : env.scope.set x w = .ok scope) :
      Gets env x (.ok w) { env with scope }

/-- A step leaves the next value, which the variable gets. -/
theorem exists_perform_step (hfind : s.env.scope.find? x = some ⟨n, .own old⟩) (op : Operator)
    (more : Program) :
    ∃ after journal, perform runner depth (step x op ++ more) [] s =
        perform runner depth more [.ofResult (old.stepped op)]
          ⟨after, journal, s.failure.after (old.stepped op)⟩ ∧
      Gets s.env x (old.stepped op) after := by
  obtain ⟨journal, hnext⟩ := @exists_perform_binary runner depth s _ (takesTwo_forward op)
    [.value (.integer 1), .name x, .name x] (by simp [IsReported]) (.operator .assign :: more)
  rw [binaryResult_one hfind, ← perform_value, ← perform_name, ← perform_name] at hnext
  change perform _ _ (step x op ++ more) _ _ = perform _ _ _ [.ofResult (old.stepped op), .name x]
    ⟨s.env, journal, s.failure.after (old.stepped op)⟩ at hnext
  cases hstepped : old.stepped op with
  | error e =>
    rw [hstepped, Slot.ofResult, perform_assign_failed] at hnext
    exact ⟨s.env, journal, hnext, .kept e⟩
  | ok w =>
    obtain ⟨scope, hset⟩ := Scope.exists_set_of_find? hfind w
    obtain ⟨journal', hassign⟩ := @exists_perform_assign runner depth
      ⟨s.env, journal, s.failure⟩ _ _ _ hset [] more
    rw [hstepped, Slot.ofResult, FirstError.after_ok, hassign] at hnext
    exact ⟨_, journal', hnext, .written hset⟩

/-- A step is taken back on the result that it leaves. -/
theorem exists_perform_undo (r : Except Error Value) (op : Operator) (env : Environment)
    (journal : List Event) (failure : FirstError) :
    ∃ journal', perform runner depth (undo op) [.ofResult r] ⟨env, journal, failure.after r⟩ =
      .done [.ofResult (r.bind (Value.steppedBack op))]
        ⟨env, journal', failure.after (r.bind (Value.steppedBack op))⟩ := by
  have hreported : IsReported [.value (.integer 1), .ofResult r] (failure.after r) := by
    cases r with
    | ok v => simp [IsReported, Slot.ofResult]
    | error e => exact fun _ => FirstError.isSet_set _ _
  obtain ⟨journal', hback⟩ := @exists_perform_binary runner depth
    ⟨env, journal, failure.after r⟩ _ (takesTwo_back op) _ hreported []
  rw [perform_nil, ← perform_value] at hback
  refine ⟨journal', hback.trans ?_⟩
  cases r with
  | ok v => rfl
  | error e =>
    change Outcome.done [Slot.failed] (State.mk env journal' ((failure.set e).set _)) = _
    rw [FirstError.set_set]
    rfl

/-- The step is taken on the variable, and taken back on the value that it leaves. -/
theorem exists_run_stepAfter (hfind : env.scope.find? x = some ⟨n, .own old⟩) (op : Operator)
    (fuel depth : Nat) (journal : List Event) :
    ∃ execution after journal',
      run (fuel + 1) depth (step x op ++ undo op) env journal = some (execution, after, journal') ∧
      execution.last = (old.stepped op).bind (Value.steppedBack op) ∧
      Gets env x (old.stepped op) after := by
  obtain ⟨after, journal₁, hstep, hgets⟩ := @exists_perform_step (run fuel) depth
    ⟨env, journal, FirstError.none⟩ _ _ _ hfind op (undo op)
  obtain ⟨journal₂, hundo⟩ := @exists_perform_undo (run fuel) depth (old.stepped op) op after
    journal₁ FirstError.none
  obtain ⟨execution, hrun, hlast⟩ := exists_run_of_perform (hstep.trans hundo)
  exact ⟨execution, after, journal₂, hrun, hlast, hgets⟩

end Machine

namespace Session

open Machine Program

variable {s : Session} {text sum x n : String} {old : Value}

/-- The value of before is given and the variable has the next one, or nothing is given and the
variable has the value of before. -/
def GivesOld (x : String) (old : Value) (next result : Except Error Value) (after : Session) :
    Prop :=
  (∃ w, next = .ok w ∧ result = .ok old ∧ after.value? x = some w) ∨
    (∃ e, result = .error e) ∧ after.value? x = some old

theorem givesOld_iff {op : Operator} {after : Session}
    (hwritten : ∀ w, old.stepped op = .ok w → after.value? x = some w)
    (hkept : ∀ e, old.stepped op = .error e → after.value? x = some old) :
    GivesOld x old (old.stepped op) ((old.stepped op).bind (Value.steppedBack op)) after ↔
      old.IsUndone op := by
  cases old.steps op with
  | @never e hnext hundone =>
    refine iff_of_true (.inr ⟨⟨e, ?_⟩, hkept e hnext⟩) hundone
    rw [hnext]
    rfl
  | @back w v hnext hback hundone =>
    rw [hundone]
    simp [GivesOld, hnext, Except.bind, hback, hwritten w hnext]
  | @lost w e hnext hback hne hundone =>
    refine iff_of_false ?_ hundone
    simp [GivesOld, hnext, Except.bind, hback, hwritten w hnext, hne]

theorem evaluate_of_emits {tree : Tree} {code : Program} (hread : tree.IsReadFrom text)
    (hemits : Emits s.env.registry tree code) (fuel : Nat) :
    s.evaluate fuel text = s.execute fuel code := by
  have hcompile := compileText_of_eq_ok (compileText_eq_ok.2 ⟨_, hread, compile_of_emits hemits⟩)
  simp only [evaluate, hcompile]

/-- The code of a sum with one, or of a difference. -/
theorem emits_next (registry : Registry) (x : String) (op : Operator) (q q' q'' : Nat) :
    Emits registry (.node .additive [.leaf ⟨.name x, q⟩,
        .leaf ⟨.operator (if op = .increment then .plus else .minus), q'⟩,
        .leaf ⟨.integer 1, q''⟩])
      [.name x, .value (.integer 1), .operator (if op = .increment then .plus else .minus)] := by
  have hname : Emits registry (.leaf ⟨.name x, q⟩) [.name x] := .leaf rfl
  have hone : Emits registry (.leaf ⟨.integer 1, q''⟩) [.value (.integer 1)] := .leaf rfl
  exact .operation rfl rfl (takesTwo_forward op) hname hone rfl rfl

/-- A step behind a variable writes the next value, and gives what is left when the step is taken
back on it. If there is no next value it fails, and nothing changes. So it gives the value of before
or keeps it, exactly when the step can be undone on that value. -/
theorem evaluate_suffix {op : Operator} {p p' q q' q'' : Nat}
    (hread : (Tree.node .suffix [.leaf ⟨.name x, p⟩, .leaf ⟨.operator op, p'⟩]).IsReadFrom text)
    (hsum : (Tree.node .additive [.leaf ⟨.name x, q⟩,
      .leaf ⟨.operator (if op = .increment then .plus else .minus), q'⟩,
      .leaf ⟨.integer 1, q''⟩]).IsReadFrom sum)
    (hfind : s.env.scope.find? x = some ⟨n, .own old⟩) :
    ∃ next result after,
      (∀ fuel, 1 ≤ fuel → (s.evaluate fuel sum).map Prod.fst = some next) ∧
      (∀ fuel, 1 ≤ fuel → s.evaluate fuel text = some (result, after)) ∧
      (∀ w, next = .ok w → result = w.steppedBack op ∧ after.value? x = some w) ∧
      (∀ e, next = .error e → result = .error e ∧ ∀ name, after.value? name = s.value? name) ∧
      (GivesOld x old next result after ↔ old.IsUndone op) := by
  obtain ⟨execution, journal, hrun, hlast⟩ := exists_run_next hfind op 0 0 []
  obtain ⟨_, hnext, -⟩ := exists_execute hrun
  obtain ⟨execution', env, journal', hrun', hlast', hgets⟩ := exists_run_stepAfter hfind op 0 0 []
  obtain ⟨after, hresult, henv⟩ := exists_execute hrun'
  have hwritten (w : Value) (hw : old.stepped op = .ok w) : after.value? x = some w := by
    rw [hw] at hgets
    cases hgets with
    | written hset =>
      rw [value?, henv]
      exact Scope.get?_set_self hfind hset
  have hkept (e : Error) (he : old.stepped op = .error e) (name : String) :
      after.value? name = s.value? name := by
    rw [he] at hgets
    cases hgets
    rw [value?, henv, value?]
  have hold : s.value? x = some old := Scope.get?_of_find? hfind
  refine ⟨old.stepped op, (old.stepped op).bind (Value.steppedBack op), after, fun fuel hle => ?_,
    fun fuel hle => ?_, fun w hw => ⟨?_, hwritten w hw⟩, fun e he => ⟨?_, hkept e he⟩,
    givesOld_iff hwritten fun e he => (hkept e he x).trans hold⟩
  · rw [evaluate_of_emits hsum (emits_next _ x op q q' q''), hnext fuel hle, Option.map_some, hlast]
  · rw [evaluate_of_emits hread (.stepAfter rfl rfl), hresult fuel hle, hlast']
  · rw [hw]
    rfl
  · rw [he]
    rfl

def withText : Session :=
  { env := { scope := { globals := [⟨"x", .own (.string "a")⟩] } } }

/-- The text is made longer, and then there is an error. -/
theorem evaluate_suffix_withText :
    ∃ after, (∀ fuel, 1 ≤ fuel → withText.evaluate fuel "x++" = some
        (.error (.invalidValue "operator '-' is not supported for string values"), after)) ∧
      after.value? "x" = some (.string "a1") ∧
      ¬ GivesOld "x" (.string "a") (.ok (.string "a1"))
        (.error (.invalidValue "operator '-' is not supported for string values")) after := by
  have hread : (Tree.node .suffix [.leaf ⟨.name "x", 0⟩,
      .leaf ⟨.operator .increment, 1⟩]).IsReadFrom "x++" := ⟨_, by cbv, by cbv⟩
  have hsum : (Tree.node .additive [.leaf ⟨.name "x", 0⟩, .leaf ⟨.operator .plus, 2⟩,
      .leaf ⟨.integer 1, 4⟩]).IsReadFrom "x + 1" := ⟨_, by cbv, by cbv⟩
  obtain ⟨next, result, after, hnext, hresult, hwritten, -, hlaw⟩ :=
    @evaluate_suffix withText _ _ _ _ _ .increment _ _ _ _ _ hread hsum rfl
  have hsumOf : (withText.evaluate 1 "x + 1").map Prod.fst = some (.ok (.string "a1")) := by cbv
  rw [hnext 1 le_rfl] at hsumOf
  obtain rfl := Option.some.inj hsumOf
  obtain ⟨rfl, hx⟩ := hwritten _ rfl
  have herror : Value.steppedBack .increment (.string "a1") =
      .error (.invalidValue "operator '-' is not supported for string values") := by cbv
  rw [herror] at hresult hlaw
  exact ⟨after, hresult, hx, fun hgives => absurd rfl (hlaw.1 hgives)⟩

end Session

end Reckoner
