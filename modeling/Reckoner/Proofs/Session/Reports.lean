import Reckoner.Proofs.Machine.Discipline
import Reckoner.Proofs.Machine.Steady
import Reckoner.Proofs.Session.Caches

/-!
What a session tells its host. A request that fails tells one message, which becomes the last error
and goes to the sink unless the session is quiet, and a request that succeeds tells nothing. The
exception is the last value of a program without any instruction but commas: there is none, and that
is not told. What compiles is never such a program.
-/

namespace Reckoner

namespace Program

def IsIdle (program : Program) : Prop := ∀ instruction ∈ program, instruction = .operator .comma

/-- The code of an expression has something to do. -/
theorem not_isIdle_of_emits {registry : Registry} {tree : Tree} {code : Program}
    (h : Emits registry tree code) : ¬ code.IsIdle := by
  intro hidle
  induction h with
  | @leaf token code h =>
    obtain ⟨kind, position⟩ := token
    cases kind with
    | operator op => cases h
    | name | integer | real | string =>
      cases h
      cases hidle _ (List.mem_singleton_self _)
  | list _ _ _ ihl =>
    refine ihl fun instruction hmem => hidle instruction ?_
    simp [hmem]
  | assign => cases hidle (.operator .assign) (by simp)
  | compound => cases hidle (.operator .assign) (by simp)
  | choice => cases hidle (.operator .question) (by simp)
  | stepFirst => cases hidle (.operator .assign) (by simp [step])
  | @prefixed _ _ o _ _ _ hone =>
    have hcomma := hidle (.operator (Program.prefixed o)) (by simp)
    rw [Instruction.operator.injEq] at hcomma
    rw [hcomma] at hone
    cases hone
  | stepAfter => cases hidle (.operator .assign) (by simp [step])
  | emptyCall | call => cases hidle .openCall (by simp)
  | group _ ih => exact ih hidle
  | @operation _ _ _ _ o _ _ _ _ htwo =>
    have hcomma := hidle (.operator o) (by simp)
    rw [Instruction.operator.injEq] at hcomma
    rw [hcomma] at htwo
    cases htwo

end Program

namespace Machine

variable {runner : Runner} {depth : Nat} {program : Program}

theorem perform_of_isIdle (h : program.IsIdle) (stack : Stack) :
    perform runner depth program stack = pure stack := by
  induction program with
  | nil => exact perform_nil ..
  | cons instruction more ih =>
    obtain ⟨rfl, hmore⟩ := List.forall_mem_cons.1 h
    rw [perform_operator, operator, pure_bind]
    exact ih hmore

/-- A program with something to do leaves something on the stack. -/
theorem ends_perform_ne_nil (program : Program) (stack : Stack)
    (h : stack ≠ [] ∨ ¬ program.IsIdle) : Ends (perform runner depth program stack) (· ≠ []) := by
  fun_induction perform runner depth program stack with
  | case1 stack => exact ends_pure (h.resolve_right (not_not_intro nofun))
  | case2 stack name more ih => exact ih (.inl (List.cons_ne_nil _ _))
  | case3 stack v more ih => exact ih (.inl (List.cons_ne_nil _ _))
  | case4 stack more ih => exact ih (.inl (List.cons_ne_nil _ _))
  | case5 | case7 => exact fun _ _ _ hdone => nomatch hdone
  | case6 stack more body rest _ _ ih => exact ih (.inl (List.cons_ne_nil _ _))
  | case8 stack name target more ih =>
    refine (ends_call name target stack).bind fun after hafter => ?_
    obtain ⟨rest, slot, -, rfl⟩ := hafter
    exact ih _ (.inl (List.cons_ne_nil _ _))
  | case9 stack op more ih =>
    by_cases hop : op = .comma
    · -- What is there already stays, and what is to do is behind the comma.
      subst hop
      rw [operator, pure_bind]
      refine ih stack (h.imp_right fun hactive hidle => hactive ?_)
      exact List.forall_mem_cons.2 ⟨rfl, hidle⟩
    · refine (ends_operator hop stack).bind fun after hafter => ?_
      obtain ⟨rest, slot, -, rfl⟩ := hafter
      exact ih _ (.inl (List.cons_ne_nil _ _))

theorem run_of_isIdle (h : program.IsIdle) (fuel depth : Nat) (env : Environment)
    (journal : List Event) :
    run (fuel + 1) depth program env journal = some (⟨[], none⟩, env, journal) := by
  simp only [run, runWith, perform_of_isIdle h, pure_bind, List.reverse_nil, collect]
  rfl

theorem values_ne_nil_of_run (h : ¬ program.IsIdle) {fuel : Nat} {env env' : Environment}
    {journal journal' : List Event} {values : List Value}
    (hrun : run fuel depth program env journal = some (⟨values, none⟩, env', journal')) :
    values ≠ [] := by
  cases fuel with
  | zero => cases hrun
  | succ fuel =>
    obtain ⟨stack, s, s', hperform, hcollect, hheld, -⟩ := exists_collect_of_runWith hrun
    have hstack : stack ≠ [] := ends_perform_ne_nil program [] (.inr h) hperform
    have hlength := (length_of_collect hcollect hheld).1
    rintro rfl
    rw [List.length_nil, List.length_reverse] at hlength
    exact hstack (List.length_eq_zero_iff.1 hlength.symm)

/-- No program can make a session quiet. -/
theorem isSteady_switches : IsSteady fun env env' => env'.switches = env.switches where
  refl _ := rfl
  trans h h' := h'.trans h
  write h := by cases h <;> rfl
  nested inner program env env' h := by cases inner <;> exact h

theorem switches_of_run {fuel : Nat} {env env' : Environment} {journal journal' : List Event}
    {execution : Execution}
    (hrun : run fuel depth program env journal = some (execution, env', journal')) :
    env'.switches = env.switches := by
  cases fuel with
  | zero => cases hrun
  | succ fuel =>
    exact Launch.steady_of_result (l := ⟨fuel, depth, program, env, journal⟩) isSteady_switches hrun

end Machine

namespace Session

open Machine

variable {s t u : Session} {α : Type} {fuel : Nat} {program : Program} {text : String}

inductive Request where
  | evaluate (text : String)
  | evaluateAll (text : String)
  | execute (program : Program)
  | executeAll (program : Program)
  | compileText (text : String)
  | createVariable (name : String) (value : Value)
  | createShared (name : String) (cell : CellId)
  | registerNative (name signature : String) (call : Native)
  | registerObject (name signature : String) (object : NativeObject)
  | registerFormula (name : String) (parameters : List String) (body : String)
  | define (text : String)

def answer (fuel : Nat) (s : Session) : Request → Option (Except Error Unit × Session)
  | .evaluate text => (s.evaluate fuel text).map (Prod.map (Except.map fun _ => ()) id)
  | .evaluateAll text => (s.evaluateAll fuel text).map (Prod.map (Except.map fun _ => ()) id)
  | .execute program => (s.execute fuel program).map (Prod.map (Except.map fun _ => ()) id)
  | .executeAll program => (s.executeAll fuel program).map (Prod.map (Except.map fun _ => ()) id)
  | .compileText text => some (Prod.map (Except.map fun _ => ()) id (s.compileText text))
  | .createVariable name value => some (s.createVariable name value)
  | .createShared name cell => some (s.createShared name cell)
  | .registerNative name signature call => some (s.registerNative name signature call)
  | .registerObject name signature object => some (s.registerObject name signature object)
  | .registerFormula name parameters body => some (s.registerFormula name parameters body)
  | .define text => some (s.define text)

structure IsSilent (s t : Session) : Prop where
  lastError : t.lastError = s.lastError
  sink : t.sink = s.sink

structure Tells (s t : Session) (message : String) : Prop where
  lastError : t.lastError = some message
  sink : t.sink = if s.env.switches.quiet then s.sink else s.sink.map (· ++ [message])

def messageIn (text : String) (error : Error) : String :=
  match Token.tokenize text with
  | .error fault => Token.Fault.diagnostic text fault.position fault.cause.message
  | .ok _ => error.message

def Request.message : Request → Error → String
  | .evaluate text | .evaluateAll text | .compileText text => messageIn text
  | _ => Error.message

def Request.IsIdle : Request → Prop
  | .execute program => program.IsIdle
  | _ => False

def Reports (s : Session) (message : Error → String) (outcome : Except Error α × Session) : Prop :=
  match outcome with
  | (.ok _, t) => s.IsSilent t
  | (.error error, t) => s.Tells t (message error)

theorem isSilent_refl (s : Session) : s.IsSilent s := ⟨rfl, rfl⟩

theorem tells_tell (s : Session) (message : String) : s.Tells (s.tell message) message := ⟨rfl, rfl⟩

theorem reports_map {β : Type} (f : α → β) {message : Error → String}
    {outcome : Except Error α × Session} (h : s.Reports message outcome) :
    s.Reports message (Prod.map (Except.map f) id outcome) := by
  obtain ⟨result, t⟩ := outcome
  cases result <;> exact h

theorem reports_reporting (s : Session) (result : Except Error α) :
    s.Reports Error.message (s.reporting result) := by
  cases result with
  | ok a => exact isSilent_refl s
  | error error => exact tells_tell s error.message

theorem reports_changing {result : Except Error α} {change : α → Session}
    (hchange : ∀ a, s.IsSilent (change a)) :
    s.Reports Error.message (s.changing result change) := by
  cases result with
  | ok a => exact hchange a
  | error error => exact tells_tell s error.message

theorem reports_define (s : Session) (text : String) :
    s.Reports Error.message (s.define text) := by
  unfold define
  split
  · exact reports_changing fun _ => ⟨rfl, rfl⟩
  · exact reports_changing fun _ => isSilent_refl s

theorem messageIn_of_tokenize {tokens : List Token} (h : Token.tokenize text = .ok tokens) :
    messageIn text = Error.message := by
  funext error
  rw [messageIn, h]

theorem reports_compileText (s : Session) (text : String) :
    s.Reports (messageIn text) (s.compileText text) := by
  cases h : Token.tokenize text with
  | error fault =>
    simp only [compileText, h, Reports, messageIn]
    exact tells_tell s _
  | ok tokens =>
    simp only [compileText, h, messageIn_of_tokenize h]
    cases Tree.parse tokens with
    | error fault => exact reports_reporting s _
    | ok tree => exact reports_reporting s _

/-- A text that compiles changes nothing, and its program has something to do. -/
theorem eq_of_compileText (h : s.compileText text = (.ok program, t)) :
    t = s ∧ ¬ program.IsIdle ∧ messageIn text = Error.message := by
  have hcompile := (compileText_fst s text).symm.trans (congrArg Prod.fst h)
  obtain ⟨tree, hemits⟩ := emits_of_compileText hcompile
  obtain ⟨tokens, htokens, -⟩ := Program.bind_eq_ok.1 hcompile
  have hmessage := messageIn_of_tokenize (Program.mapError_eq_ok.1 htokens)
  have hsilent := reports_compileText s text
  have henv := compileText_env s text
  rw [h] at hsilent henv
  obtain ⟨env, sink, lastError⟩ := t
  obtain ⟨rfl, rfl⟩ := hsilent
  have hsame : ({ s with env } : Session) = s := congrArg (fun env => { s with env }) henv
  exact ⟨hsame, Program.not_isIdle_of_emits hemits, hmessage⟩

/-- A run by itself tells nothing, and the session stays as quiet as it was. -/
theorem isSilent_of_execution {execution : Execution}
    (h : s.execution fuel program = some (execution, t)) :
    s.IsSilent t ∧ t.env.switches = s.env.switches := by
  obtain ⟨⟨_, env, _⟩, hrun, heq⟩ := Option.map_eq_some_iff.1 h
  cases heq
  exact ⟨⟨rfl, rfl⟩, switches_of_run hrun⟩

theorem tells_of_isSilent {message : String} (h : s.IsSilent t)
    (hswitches : t.env.switches = s.env.switches) : s.Tells (t.tell message) message :=
  ⟨rfl, by rw [tell, hswitches, h.sink]⟩

theorem reports_executeAll {outcome : Except Error (List Value) × Session}
    (h : s.executeAll fuel program = some outcome) : s.Reports Error.message outcome := by
  obtain ⟨⟨execution, t⟩, hrun, rfl⟩ := Option.map_eq_some_iff.1 h
  obtain ⟨hsilent, hswitches⟩ := isSilent_of_execution hrun
  dsimp only
  cases execution.all with
  | ok values => exact hsilent
  | error error => exact tells_of_isSilent hsilent hswitches

theorem values_ne_nil_of_executeAll (hprogram : ¬ program.IsIdle) {values : List Value}
    (h : s.executeAll fuel program = some (.ok values, t)) : values ≠ [] := by
  obtain ⟨⟨⟨values', failure⟩, t'⟩, hexecution, heq⟩ := Option.map_eq_some_iff.1 h
  obtain ⟨⟨execution, env, journal⟩, hrun, hsession⟩ := Option.map_eq_some_iff.1 hexecution
  cases hsession
  cases failure with
  | none =>
    cases heq
    exact values_ne_nil_of_run hprogram hrun
  | some error => cases heq

theorem reports_execute (hprogram : ¬ program.IsIdle) {outcome : Except Error Value × Session}
    (h : s.execute fuel program = some outcome) : s.Reports Error.message outcome := by
  obtain ⟨⟨result, t⟩, hall, rfl⟩ := Option.map_eq_some_iff.1 h
  have hreports := reports_executeAll hall
  cases result with
  | error error => exact hreports
  | ok values =>
    have hvalues := values_ne_nil_of_executeAll hprogram hall
    have hlast : Execution.lastOf values = .ok (values.getLast hvalues) := by
      rw [Execution.lastOf, List.getLast?_eq_some_getLast hvalues]
    simp only [Except.bind, hlast]
    exact hreports

/-- A program with nothing to do has no last value, which the session does not tell. -/
theorem execute_of_isIdle (hprogram : program.IsIdle) (fuel : Nat) (s : Session) :
    s.execute (fuel + 1) program = some (.error .missingResult, s) := by
  simp only [execute, executeAll, execution, run_of_isIdle hprogram, Option.map_some]
  rfl

/-- A text that does not compile is told by then, and one that does by the run of its program. -/
theorem reports_evaluated {outcome : Except Error α × Session}
    (run : Session → Program → Option (Except Error α × Session))
    (hrun : ∀ program : Program, ¬ program.IsIdle → run s program = some outcome →
      s.Reports Error.message outcome)
    (h : (match s.compileText text with
      | (.error error, s) => some (.error error, s)
      | (.ok program, s) => run s program) = some outcome) :
    s.Reports (messageIn text) outcome := by
  have hreports := reports_compileText s text
  split at h
  · next error t heq =>
    cases h
    rwa [heq] at hreports
  · next program t heq =>
    obtain ⟨rfl, hactive, hmessage⟩ := eq_of_compileText heq
    rw [hmessage]
    exact hrun program hactive h

/-- Every failure is told once, and no success is told, whatever is asked for: except for the last
value of a program that has nothing to do, which is a failure that is never told. -/
theorem reports_answer {request : Request} {outcome : Except Error Unit × Session}
    (h : s.answer fuel request = some outcome) :
    (request.IsIdle → outcome = (.error .missingResult, s)) ∧
      (¬ request.IsIdle → s.Reports request.message outcome) := by
  cases request with
  | evaluate text =>
    refine ⟨False.elim, fun _ => ?_⟩
    obtain ⟨outcome, heval, rfl⟩ := Option.map_eq_some_iff.1 h
    exact reports_map _
      (reports_evaluated (execute fuel) (fun _ hactive => reports_execute hactive) heval)
  | evaluateAll text =>
    refine ⟨False.elim, fun _ => ?_⟩
    obtain ⟨outcome, heval, rfl⟩ := Option.map_eq_some_iff.1 h
    exact reports_map _
      (reports_evaluated (executeAll fuel) (fun _ _ => reports_executeAll) heval)
  | execute program =>
    obtain ⟨outcome, hexecute, rfl⟩ := Option.map_eq_some_iff.1 h
    refine ⟨fun hidle => ?_, fun hactive => reports_map _ (reports_execute hactive hexecute)⟩
    cases fuel with
    | zero => cases hexecute
    | succ fuel =>
      rw [execute_of_isIdle hidle] at hexecute
      cases hexecute
      rfl
  | executeAll program =>
    refine ⟨False.elim, fun _ => ?_⟩
    obtain ⟨outcome, hexecute, rfl⟩ := Option.map_eq_some_iff.1 h
    exact reports_map _ (reports_executeAll hexecute)
  | compileText text =>
    cases h
    exact ⟨False.elim, fun _ => reports_map _ (reports_compileText s text)⟩
  | define text =>
    cases h
    exact ⟨False.elim, fun _ => reports_define s text⟩
  | createVariable | createShared | registerNative | registerObject | registerFormula =>
    cases h
    exact ⟨False.elim, fun _ => reports_changing fun _ => ⟨rfl, rfl⟩⟩

def listening : Session where
  env :=
    { registry := ⟨[⟨⟨0⟩, "f", .formula ["x"] "x + y", ⟨[Kinds.any], false⟩, false, none⟩,
        ⟨⟨1⟩, "g", .formula ["x"] "f(x)", ⟨[Kinds.any], false⟩, false, none⟩], 2⟩ }
  sink := some []

/-- The error comes up two calls deep, and is told once. -/
theorem reports_answer_of_nested :
    ∃ t, listening.answer 4 (.evaluate "g(1)") =
        some (.error (.invalidValue "undefined variable 'y'"), t) ∧
      ¬ (Request.evaluate "g(1)").IsIdle ∧
      t.lastError = some "Invalid value: undefined variable 'y'" ∧
      t.sink = some ["Invalid value: undefined variable 'y'"] := by
  have hcompile : listening.compileText "g(1)" =
      (.ok [.openCall, .value (.integer 1), .call "g" (some ⟨1⟩)], listening) := by cbv
  obtain ⟨env, hrun⟩ : ∃ env,
      listening.execution 4 [.openCall, .value (.integer 1), .call "g" (some ⟨1⟩)] =
        some (⟨[], some (.invalidValue "undefined variable 'y'")⟩, { listening with env }) :=
    ⟨_, by cbv⟩
  have hanswer : listening.answer 4 (.evaluate "g(1)") =
      some (.error (.invalidValue "undefined variable 'y'"),
        ({ listening with env } : Session).report (.invalidValue "undefined variable 'y'")) := by
    simp only [answer, evaluate, hcompile, execute, executeAll, hrun]
    rfl
  have hmessage : (Request.evaluate "g(1)").message (.invalidValue "undefined variable 'y'") =
      "Invalid value: undefined variable 'y'" := by
    rw [Request.message, (eq_of_compileText hcompile).2.2]
    rfl
  obtain ⟨hlast, hsink⟩ := (reports_answer hanswer).2 id
  rw [hmessage] at hlast hsink
  exact ⟨_, hanswer, id, hlast, hsink⟩

end Session

end Reckoner
