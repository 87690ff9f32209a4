import Mathlib
import Reckoner.Proofs.Machine.Agree
import Reckoner.Session.Basic

/-!
The compiled programs of a session. Whatever was registered, removed and run, every program that a
formula has kept is the one its text compiles to now, and which formulas have kept one makes no
difference to a run unless a native looks at that.
-/

namespace Reckoner.Session

open Machine

/-- What a host can do with a session. Programs may be any whose calls are of functions by the
numbers of this session, not those that another session compiled. -/
inductive Step : Session → Session → Prop where
  | native (s : Session) (name signature : String) (call : Native) :
      Step s (s.registerNative name signature call).2
  | object (s : Session) (name signature : String) (object : NativeObject) :
      Step s (s.registerObject name signature object).2
  | formula (s : Session) (name : String) (parameters : List String) (body : String) :
      Step s (s.registerFormula name parameters body).2
  | define (s : Session) (text : String) : Step s (s.define text).2
  | remove (s : Session) (name : String) : Step s (s.removeFunction name).2
  | reset (s : Session) : Step s s.resetFunctions
  | resetOne (s : Session) (id : FunctionId) : Step s (s.withRegistry (s.env.registry.resetOne id))
  | compile (s : Session) (text : String) : Step s (s.compileText text).2
  | execution {s t : Session} {fuel : Nat} {program : Program} {result : Execution}
      (h : s.execution fuel program = some (result, t)) : Step s t
  | executeAll {s t : Session} {fuel : Nat} {program : Program}
      {result : Except Error (List Value)} (h : s.executeAll fuel program = some (result, t)) :
      Step s t
  | execute {s t : Session} {fuel : Nat} {program : Program} {result : Except Error Value}
      (h : s.execute fuel program = some (result, t)) : Step s t
  | evaluateAll {s t : Session} {fuel : Nat} {text : String} {result : Except Error (List Value)}
      (h : s.evaluateAll fuel text = some (result, t)) : Step s t
  | evaluate {s t : Session} {fuel : Nat} {text : String} {result : Except Error Value}
      (h : s.evaluate fuel text = some (result, t)) : Step s t
  /-- Variables, cells, switches, limits and messages. -/
  | other {s t : Session} (h : t.env.registry = s.env.registry) : Step s t

inductive Reachable : Session → Prop where
  | empty : Reachable Session.empty
  | new : Reachable Session.new
  | step {s t : Session} (h : Reachable s) (hstep : Step s t) : Reachable t

def Coherent (s : Session) : Prop := s.env.registry.Coherent

variable {s t : Session}

theorem coherent_empty : Session.empty.Coherent := Registry.coherent_empty

theorem coherent_foldl {α : Type} {register : Registry → α → Registry}
    (hregister : ∀ r entry, r.Coherent → (register r entry).Coherent) (table : List α)
    {r : Registry} (h : r.Coherent) : (table.foldl register r).Coherent := by
  induction table generalizing r with
  | nil => exact h
  | cons entry table ih => exact ih (hregister r entry h)

theorem coherent_new : Session.new.Coherent := by
  have hregister : (Builtin.register Registry.empty).Coherent := by
    unfold Builtin.register
    refine coherent_foldl (fun r entry h => ?_) Builtin.table Registry.coherent_empty
    exact Registry.coherent_insert h ..
  exact hregister

/-- A change that is refused changes no function. -/
theorem coherent_changing {α : Type} (h : s.Coherent) {result : Except Error α}
    {change : α → Session} (hchange : ∀ a, result = .ok a → (change a).Coherent) :
    (s.changing result change).2.Coherent := by
  cases result with
  | error e => exact h
  | ok a => exact hchange a rfl

theorem coherent_registerNative (h : s.Coherent) (name signature : String) (call : Native) :
    (s.registerNative name signature call).2.Coherent := by
  refine coherent_changing h fun result hresult => ?_
  obtain ⟨_, -, hresult⟩ := Program.bind_eq_ok.1 hresult
  obtain ⟨_, -, hresult⟩ := Program.bind_eq_ok.1 hresult
  cases hresult
  exact Registry.coherent_insert h ..

theorem coherent_registerObject (h : s.Coherent) (name signature : String)
    (object : NativeObject) : (s.registerObject name signature object).2.Coherent := by
  refine coherent_changing h fun result hresult => ?_
  obtain ⟨_, -, hresult⟩ := Program.bind_eq_ok.1 hresult
  obtain ⟨_, -, hresult⟩ := Program.bind_eq_ok.1 hresult
  cases hresult
  exact Registry.coherent_insert h ..

theorem coherent_registerFormula (h : s.Coherent) (name : String) (parameters : List String)
    (body : String) : (s.registerFormula name parameters body).2.Coherent := by
  refine coherent_changing h fun result hresult => ?_
  obtain ⟨_, -, hresult⟩ := Program.bind_eq_ok.1 hresult
  obtain ⟨_, -, hresult⟩ := Program.bind_eq_ok.1 hresult
  cases hresult
  exact Registry.coherent_insert h ..

theorem coherent_define (h : s.Coherent) (text : String) : (s.define text).2.Coherent := by
  unfold define
  split
  · exact coherent_registerFormula h ..
  · exact coherent_changing h nofun

theorem compileText_env (s : Session) (text : String) : (s.compileText text).2.env = s.env := by
  unfold compileText
  split
  · rfl
  · split
    · rfl
    · cases Program.compile s.env.registry _ <;> rfl

/-- The functions of a session decide what a text compiles to. -/
theorem compileText_fst (s : Session) (text : String) :
    (s.compileText text).1 = Machine.compileText s.env.registry text := by
  have hreporting {α : Type} (result : Except Error α) : (s.reporting result).1 = result := by
    cases result <;> rfl
  unfold compileText Machine.compileText
  cases Token.tokenize text with
  | error fault => rfl
  | ok tokens =>
    simp only [Except.mapError, bind, Except.bind]
    cases Tree.parse tokens with
    | error fault => exact hreporting _
    | ok tree => exact hreporting _

/-! Sessions that differ in compiled programs alone. -/

structure AlikeTo (base : Registry) (s s' : Session) : Prop where
  env : EnvAlike base s.env s'.env
  sink : s.sink = s'.sink
  lastError : s.lastError = s'.lastError

theorem alikeTo_of_resetFunctions_eq {s s' : Session} (hs : s.Coherent) (hs' : s'.Coherent)
    (h : s.resetFunctions = s'.resetFunctions)
    (hignores : s.env.registry.Ignores View.uncompiled) : AlikeTo s.env.registry.reset s s' := by
  obtain ⟨⟨switches, scope, registry, maxDepth⟩, sink, lastError⟩ := s
  obtain ⟨⟨switches', scope', registry', maxDepth'⟩, sink', lastError'⟩ := s'
  simp only [resetFunctions, withRegistry, Session.mk.injEq, Environment.mk.injEq] at h
  obtain ⟨⟨rfl, rfl, hreset, rfl⟩, rfl, rfl⟩ := h
  exact ⟨⟨rfl, rfl, rfl, rfl, hreset.symm, hs, hs', .inl (Registry.ignores_reset.2 hignores)⟩,
    rfl, rfl⟩

theorem AlikeTo.resetFunctions_eq {base : Registry} {s s' : Session} (h : AlikeTo base s s') :
    s.resetFunctions = s'.resetFunctions := by
  obtain ⟨⟨switches, scope, registry, maxDepth⟩, sink, lastError⟩ := s
  obtain ⟨⟨switches', scope', registry', maxDepth'⟩, sink', lastError'⟩ := s'
  obtain ⟨⟨rfl, rfl, rfl, hreset, hreset', -, -, -⟩, rfl, rfl⟩ := h
  simp only [resetFunctions, withRegistry, hreset.trans hreset'.symm]

/-- Runs from sessions that are alike give the same, and leave such sessions. -/
theorem execution_rel {base : Registry} {s s' : Session} (h : AlikeTo base s s') (fuel : Nat)
    (program : Program) :
    Option.Rel (fun result result' => result.1 = result'.1 ∧ AlikeTo base result.2 result'.2)
      (s.execution fuel program) (s'.execution fuel program) := by
  have hrel := runnersAgree_run base fuel 0 program s.env s'.env [] h.env
  unfold execution
  generalize Machine.run fuel 0 program s.env [] = o at hrel ⊢
  generalize Machine.run fuel 0 program s'.env [] = o' at hrel ⊢
  cases hrel with
  | none => exact .none
  | some hresult => exact .some ⟨hresult.execution, hresult.env, h.sink, h.lastError⟩

theorem coherent_execution (h : s.Coherent) {fuel : Nat} {program : Program} {result : Execution}
    (hrun : s.execution fuel program = some (result, t)) : t.Coherent := by
  have hself : AlikeTo s.env.registry.reset s s := ⟨.refl h, rfl, rfl⟩
  have hrel := execution_rel hself fuel program
  rw [hrun] at hrel
  cases hrel with
  | some hresult => exact hresult.2.env.coherent

theorem coherent_executeAll (h : s.Coherent) {fuel : Nat} {program : Program}
    {result : Except Error (List Value)} (hrun : s.executeAll fuel program = some (result, t)) :
    t.Coherent := by
  obtain ⟨⟨execution, t'⟩, hrun, heq⟩ := Option.map_eq_some_iff.1 hrun
  have ht' := coherent_execution h hrun
  obtain ⟨values, failure⟩ := execution
  cases failure <;> cases heq <;> exact ht'

theorem coherent_execute (h : s.Coherent) {fuel : Nat} {program : Program}
    {result : Except Error Value} (hrun : s.execute fuel program = some (result, t)) :
    t.Coherent := by
  obtain ⟨⟨values, t'⟩, hrun, heq⟩ := Option.map_eq_some_iff.1 hrun
  cases heq
  exact coherent_executeAll h hrun

theorem coherent_compileText (h : s.Coherent) (text : String) :
    (s.compileText text).2.Coherent := by
  rw [Coherent, compileText_env]
  exact h

theorem coherent_evaluateAll (h : s.Coherent) {fuel : Nat} {text : String}
    {result : Except Error (List Value)} (hrun : s.evaluateAll fuel text = some (result, t)) :
    t.Coherent := by
  have hcompiled := coherent_compileText h text
  unfold evaluateAll at hrun
  split at hrun
  · next heq =>
    rw [heq] at hcompiled
    cases hrun
    exact hcompiled
  · next heq =>
    rw [heq] at hcompiled
    exact coherent_executeAll hcompiled hrun

theorem coherent_evaluate (h : s.Coherent) {fuel : Nat} {text : String}
    {result : Except Error Value} (hrun : s.evaluate fuel text = some (result, t)) :
    t.Coherent := by
  have hcompiled := coherent_compileText h text
  unfold evaluate at hrun
  split at hrun
  · next heq =>
    rw [heq] at hcompiled
    cases hrun
    exact hcompiled
  · next heq =>
    rw [heq] at hcompiled
    exact coherent_execute hcompiled hrun

theorem coherent_step (h : s.Coherent) (hstep : Step s t) : t.Coherent := by
  cases hstep with
  | native => exact coherent_registerNative h ..
  | object => exact coherent_registerObject h ..
  | formula => exact coherent_registerFormula h ..
  | define => exact coherent_define h _
  | remove => exact Registry.coherent_remove h _
  | reset => exact Registry.coherent_reset h
  | resetOne => exact Registry.coherent_resetOne h _
  | compile => exact coherent_compileText h _
  | execution hrun => exact coherent_execution h hrun
  | executeAll hrun => exact coherent_executeAll h hrun
  | execute hrun => exact coherent_execute h hrun
  | evaluateAll hrun => exact coherent_evaluateAll h hrun
  | evaluate hrun => exact coherent_evaluate h hrun
  | other hother =>
    rw [Coherent, hother]
    exact h

theorem coherent_of_reachable (h : Reachable s) : s.Coherent := by
  induction h with
  | empty => exact coherent_empty
  | new => exact coherent_new
  | step _ hstep ih => exact coherent_step ih hstep

def KeepsRight (r : Registry) (f : Function) : Prop :=
  ∀ program, f.compiled = some program →
    ∃ parameters text, f.body = .formula parameters text ∧
      Machine.compileText r text = .ok program ∧
      ∀ name target, .call name target ∈ program →
        ∃ g ∈ r.functions, g.name = name ∧ target = some g.id ∧ r.find? g.id = some g

theorem keepsRight_of_coherent {r : Registry} (h : r.Coherent) {f : Function}
    (hf : f ∈ r.functions) : KeepsRight r f := by
  intro program hprogram
  obtain ⟨parameters, text, hbody, htext⟩ := h.cached f hf program hprogram
  refine ⟨parameters, text, hbody, htext, fun name target hcall => ?_⟩
  obtain ⟨tree, hemits⟩ := emits_of_compileText htext
  obtain ⟨g, hg, hname, htarget⟩ := Program.exists_function_of_emits hemits hcall
  exact ⟨g, hg, hname, htarget, h.find?_eq hg⟩

/-- In every session that a host can bring about, the programs that formulas keep are right. Two
such sessions that differ in these programs alone, at which no native looks, give the same for any
program, and differ in nothing else after it. -/
theorem kept_programs (hs : Reachable s) :
    (∀ f ∈ s.env.registry.functions, KeepsRight s.env.registry f) ∧
      ∀ s', Reachable s' → s.resetFunctions = s'.resetFunctions →
        s.env.registry.Ignores View.uncompiled → ∀ (fuel : Nat) (program : Program),
          Option.Rel (fun result result' => result.1 = result'.1 ∧
              result.2.resetFunctions = result'.2.resetFunctions)
            (s.execution fuel program) (s'.execution fuel program) := by
  have hcoherent := coherent_of_reachable hs
  refine ⟨fun f hf => keepsRight_of_coherent hcoherent hf, ?_⟩
  intro s' hs' hsame hignores fuel program
  have halike :=
    alikeTo_of_resetFunctions_eq hcoherent (coherent_of_reachable hs') hsame hignores
  have hrel := execution_rel halike fuel program
  generalize s.execution fuel program = o at hrel ⊢
  generalize s'.execution fuel program = o' at hrel ⊢
  cases hrel with
  | none => exact .none
  | some hresult => exact .some ⟨hresult.1, hresult.2.resetFunctions_eq⟩

def withSuccessor (compiled : Option Program) : Session :=
  { env := { registry := ⟨[⟨⟨0⟩, "f", .formula ["x"] "x + 1", ⟨[Kinds.any], false⟩, false,
      compiled⟩], 1⟩ } }

/-- A session whose formula was called differs from one where it was not, and runs alike. -/
theorem kept_program_of_successor :
    Reachable (withSuccessor (some [.name "x", .value (.integer 1), .operator .plus])) ∧
      ∀ (fuel : Nat) (program : Program),
        Option.Rel (fun result result' => result.1 = result'.1 ∧
            result.2.resetFunctions = result'.2.resetFunctions)
          ((withSuccessor (some [.name "x", .value (.integer 1), .operator .plus])).execution
            fuel program)
          ((withSuccessor none).execution fuel program) := by
  have hdefine : (Session.empty.define "f(x) = x + 1").2 = withSuccessor none := by cbv
  have hcall : (withSuccessor none).evaluateAll 3 "f(1)" =
      some (.ok [.integer 2],
        withSuccessor (some [.name "x", .value (.integer 1), .operator .plus])) := by cbv
  have hnone : Reachable (withSuccessor none) :=
    hdefine ▸ Reachable.empty.step (.define Session.empty "f(x) = x + 1")
  have hsome := hnone.step (.evaluateAll hcall)
  have hformulas : ∀ f ∈ (withSuccessor (some [.name "x", .value (.integer 1),
      .operator .plus])).env.registry.functions, f.isFormula := by decide
  exact ⟨hsome, (kept_programs hsome).2 (withSuccessor none) hnone rfl
    (Registry.ignores_of_isFormula hformulas _)⟩

/-- A session with a native that tells whether a compiled formula calls it, and with such a
formula, which has kept this program. -/
def withAsking (compiled : Option Program) : Session :=
  { env := { registry :=
      ⟨[⟨⟨0⟩, "asked", .native fun view _ => .ok (.boolean (view.hasReference "asked")),
          ⟨[], false⟩, false, none⟩,
        ⟨⟨1⟩, "f", .formula [] "asked()", ⟨[], false⟩, false, compiled⟩], 2⟩ } }

/-- A native that looks at the kept programs can tell such sessions apart. -/
theorem not_forall_execution_eq :
    ¬ ∀ s s' : Session, Reachable s → Reachable s' → s.resetFunctions = s'.resetFunctions →
      ∀ fuel program result result' t t', s.execution fuel program = some (result, t) →
        s'.execution fuel program = some (result', t') → result = result' := by
  intro h
  have hdefine : ((Session.empty.registerNative "asked" ""
      fun view _ => .ok (.boolean (view.hasReference "asked"))).2.define "f() = asked()").2 =
        withAsking none := by cbv
  have hcall : (withAsking none).evaluateAll 2 "f()" = some (.ok [.boolean true],
      withAsking (some [.openCall, .call "asked" (some ⟨0⟩)])) := by cbv
  have hnone : Reachable (withAsking none) :=
    hdefine ▸ (Reachable.empty.step (.native ..)).step (.define _ "f() = asked()")
  have hbefore : (withAsking none).execution 1 [.openCall, .call "asked" (some ⟨0⟩)] =
      some (⟨[.boolean false], none⟩, withAsking none) := by cbv
  have hafter : (withAsking (some [.openCall, .call "asked" (some ⟨0⟩)])).execution 1
      [.openCall, .call "asked" (some ⟨0⟩)] = some (⟨[.boolean true], none⟩,
        withAsking (some [.openCall, .call "asked" (some ⟨0⟩)])) := by cbv
  have hsame := h _ _ hnone (hnone.step (.evaluateAll hcall)) rfl 1 _ _ _ _ _ hbefore hafter
  simp at hsame

end Reckoner.Session
