import Reckoner.Proofs.Session.Caches

/-!
How the functions of a session change. Functions are added under new numbers and dropped, and their
compiled programs come and go. So a number stays with one function, and a formula has as many
arguments as parameters.
-/

namespace Reckoner

namespace Registry

inductive Changes (r : Registry) : Registry → Prop where
  | insert (name : String) (body : Function.Body) (signature : Signature) (builtin overload : Bool)
      (hformula : ∀ parameters text, body = .formula parameters text →
        parameters.length = signature.arity) :
      Changes r (r.insert name body signature builtin overload).2
  | drop {functions : List Function} (h : functions.Sublist r.functions) :
      Changes r ({ r with functions } : Registry).reset
  | recompile {r' : Registry} (h : r'.reset = r.reset) : Changes r r'

structure Keeps (r r' : Registry) : Prop where
  next : r.next ≤ r'.next
  kept : ∀ g ∈ r'.functions, g.id.number < r.next → ∃ f ∈ r.functions, f.uncompiled = g.uncompiled

def IsFitted (r : Registry) : Prop :=
  ∀ f ∈ r.functions, ∀ parameters text, f.body = .formula parameters text →
    parameters.length = f.arity

variable {r r' r'' : Registry}

theorem Keeps.refl (r : Registry) : r.Keeps r := ⟨le_rfl, fun g hg _ => ⟨g, hg, rfl⟩⟩

theorem Keeps.trans (h : r.Keeps r') (h' : r'.Keeps r'') : r.Keeps r'' := by
  refine ⟨h.next.trans h'.next, fun g hg hnumber => ?_⟩
  obtain ⟨f', hf', hsame'⟩ := h'.kept g hg (hnumber.trans_le h.next)
  rw [← Function.id_eq_of_uncompiled hsame'] at hnumber
  obtain ⟨f, hf, hsame⟩ := h.kept f' hf' hnumber
  exact ⟨f, hf, hsame.trans hsame'⟩

theorem next_eq_of_reset (h : r'.reset = r.reset) : r'.next = r.next := by
  have hnext : r'.reset.next = r.reset.next := congrArg Registry.next h
  exact hnext

/-- Registries that differ in compiled programs have the same functions otherwise. -/
theorem exists_mem_of_reset (h : r'.reset = r.reset) {g : Function} (hg : g ∈ r'.functions) :
    ∃ f ∈ r.functions, f.uncompiled = g.uncompiled := by
  have hmem : g.uncompiled ∈ r'.reset.functions := List.mem_map_of_mem hg
  rw [h] at hmem
  exact List.mem_map.1 hmem

theorem Changes.keeps (h : r.Changes r') : r.Keeps r' := by
  cases h with
  | insert name body signature builtin overload =>
    refine ⟨Nat.le_succ _, fun g hg hnumber => ?_⟩
    rcases mem_insert hg with hbefore | rfl
    · exact hbefore
    · exact absurd hnumber (lt_irrefl _)
  | drop hsub =>
    refine ⟨le_rfl, fun g hg _ => ?_⟩
    obtain ⟨f, hf, rfl⟩ := List.mem_map.1 hg
    exact ⟨f, hsub.subset hf, rfl⟩
  | recompile hreset =>
    exact ⟨(next_eq_of_reset hreset).ge, fun g hg _ => exists_mem_of_reset hreset hg⟩

/-- What was registered before has its parameters still. -/
theorem IsFitted.of_uncompiled (h : r.IsFitted) {g : Function}
    (hg : ∃ f ∈ r.functions, f.uncompiled = g.uncompiled) {parameters : List String} {text : String}
    (hbody : g.body = .formula parameters text) : parameters.length = g.arity := by
  obtain ⟨f, hf, hsame⟩ := hg
  have harity : f.arity = g.arity := by rw [Function.eq_of_uncompiled hsame]; rfl
  rw [← harity]
  exact h f hf parameters text ((Function.body_eq_of_uncompiled hsame).trans hbody)

theorem IsFitted.of_changes (h : r.IsFitted) (hchanges : r.Changes r') : r'.IsFitted := by
  intro g hg parameters text hbody
  cases hchanges with
  | insert name body signature builtin overload hformula =>
    rcases mem_insert hg with hbefore | rfl
    · exact h.of_uncompiled hbefore hbody
    · exact hformula parameters text hbody
  | drop hsub =>
    obtain ⟨f, hf, rfl⟩ := List.mem_map.1 hg
    exact h.of_uncompiled ⟨f, hsub.subset hf, rfl⟩ hbody
  | recompile hreset => exact h.of_uncompiled (exists_mem_of_reset hreset hg) hbody

end Registry

namespace Session

open Machine Registry

variable {s t : Session}

inductive Runs (s t : Session) : Prop where
  | rest (h : t.env = s.env)
  | run {fuel : Nat} {program : Program} {result : Execution} {journal : List Event}
      (h : Machine.run fuel 0 program s.env [] = some (result, t.env, journal))

theorem runs_execution {fuel : Nat} {program : Program} {result : Execution}
    (h : s.execution fuel program = some (result, t)) : Runs s t := by
  obtain ⟨⟨_, env, journal⟩, hrun, heq⟩ := Option.map_eq_some_iff.1 h
  cases heq
  exact .run hrun

theorem runs_executeAll {fuel : Nat} {program : Program} {result : Except Error (List Value)}
    (h : s.executeAll fuel program = some (result, t)) : Runs s t := by
  obtain ⟨⟨⟨values, failure⟩, t'⟩, hrun, heq⟩ := Option.map_eq_some_iff.1 h
  have hruns := runs_execution hrun
  cases failure <;> cases heq
  · exact hruns
  · cases hruns with
    | rest h => exact .rest h
    | run h => exact .run h

theorem runs_execute {fuel : Nat} {program : Program} {result : Except Error Value}
    (h : s.execute fuel program = some (result, t)) : Runs s t := by
  obtain ⟨⟨values, t'⟩, hrun, heq⟩ := Option.map_eq_some_iff.1 h
  cases heq
  exact runs_executeAll hrun

theorem Runs.of_env {s' : Session} (h : Runs s' t) (henv : s'.env = s.env) : Runs s t := by
  cases h with
  | rest h => exact .rest (h.trans henv)
  | run h => exact .run (henv ▸ h)

theorem runs_evaluateAll {fuel : Nat} {text : String} {result : Except Error (List Value)}
    (h : s.evaluateAll fuel text = some (result, t)) : Runs s t := by
  have henv := compileText_env s text
  unfold evaluateAll at h
  split at h
  · next heq =>
    rw [heq] at henv
    cases h
    exact .rest henv
  · next heq =>
    rw [heq] at henv
    exact (runs_executeAll h).of_env henv

theorem runs_evaluate {fuel : Nat} {text : String} {result : Except Error Value}
    (h : s.evaluate fuel text = some (result, t)) : Runs s t := by
  have henv := compileText_env s text
  unfold evaluate at h
  split at h
  · next heq =>
    rw [heq] at henv
    cases h
    exact .rest henv
  · next heq =>
    rw [heq] at henv
    exact (runs_execute h).of_env henv

/-- A run does nothing to the functions other than to compile some of them. -/
theorem Runs.reset_eq (hs : s.Coherent) (h : Runs s t) :
    t.env.registry.reset = s.env.registry.reset := by
  cases h with
  | rest h => rw [h]
  | @run fuel program result journal h =>
    have hrel := runnersAgree_run s.env.registry.reset fuel 0 program s.env s.env [] (.refl hs)
    rw [h] at hrel
    cases hrel with
    | some hresult => exact hresult.env.reset

theorem changes_changing {result : Except Error (Function × Registry)}
    (h : ∀ f r, result = .ok (f, r) → s.env.registry.Changes r) :
    s.env.registry.Changes (s.changing result fun (_, r) => s.withRegistry r).2.env.registry := by
  cases result with
  | error e => exact .recompile rfl
  | ok changed => exact h changed.1 changed.2 rfl

theorem changes_registerFormula (s : Session) (name : String) (parameters : List String)
    (body : String) :
    s.env.registry.Changes (s.registerFormula name parameters body).2.env.registry := by
  refine changes_changing fun f r h => ?_
  obtain ⟨checked, -, h⟩ := Program.bind_eq_ok.1 h
  obtain ⟨_, -, h⟩ := Program.bind_eq_ok.1 h
  cases h
  refine .insert _ _ _ _ _ ?_
  rintro _ _ ⟨⟩
  exact (List.length_replicate ..).symm

theorem changes_registerNative (s : Session) (name signature : String) (call : Native) :
    s.env.registry.Changes (s.registerNative name signature call).2.env.registry := by
  refine changes_changing fun f r h => ?_
  obtain ⟨_, -, h⟩ := Program.bind_eq_ok.1 h
  obtain ⟨_, -, h⟩ := Program.bind_eq_ok.1 h
  cases h
  exact .insert _ _ _ _ _ nofun

theorem changes_registerObject (s : Session) (name signature : String) (object : NativeObject) :
    s.env.registry.Changes (s.registerObject name signature object).2.env.registry := by
  refine changes_changing fun f r h => ?_
  obtain ⟨_, -, h⟩ := Program.bind_eq_ok.1 h
  obtain ⟨_, -, h⟩ := Program.bind_eq_ok.1 h
  cases h
  exact .insert _ _ _ _ _ nofun

theorem changes_of_step (hs : s.Coherent) (hstep : Step s t) :
    s.env.registry.Changes t.env.registry := by
  cases hstep with
  | native => exact changes_registerNative ..
  | object => exact changes_registerObject ..
  | formula => exact changes_registerFormula ..
  | define text =>
    unfold define
    split
    · exact changes_registerFormula ..
    · exact .recompile rfl
  | remove name =>
    simp only [removeFunction, Registry.remove]
    split
    · exact .drop List.filter_sublist
    · exact .recompile rfl
  | reset => exact .recompile (Registry.reset_reset _)
  | resetOne id => exact .recompile (Registry.reset_modify (fun f => by rfl) _ id)
  | compile text =>
    rw [compileText_env]
    exact .recompile rfl
  | execution h => exact .recompile ((runs_execution h).reset_eq hs)
  | executeAll h => exact .recompile ((runs_executeAll h).reset_eq hs)
  | execute h => exact .recompile ((runs_execute h).reset_eq hs)
  | evaluateAll h => exact .recompile ((runs_evaluateAll h).reset_eq hs)
  | evaluate h => exact .recompile ((runs_evaluate h).reset_eq hs)
  | other h => exact .recompile (congrArg Registry.reset h)

theorem isFitted_empty : Registry.empty.IsFitted := by
  intro f hf
  cases hf

theorem isFitted_new : Session.new.env.registry.IsFitted := by
  have hregister : (Builtin.register Registry.empty).IsFitted := by
    unfold Builtin.register
    refine List.foldlRecOn Builtin.table _ isFitted_empty fun r hr entry _ => ?_
    refine hr.of_changes (.insert _ _ _ _ _ fun parameters text hbody => ?_)
    cases hbody
  exact hregister

theorem isFitted_of_reachable (h : Reachable s) : s.env.registry.IsFitted := by
  induction h with
  | empty => exact isFitted_empty
  | new => exact isFitted_new
  | step hs hstep ih => exact ih.of_changes (changes_of_step (coherent_of_reachable hs) hstep)

/-- Later on, each number still means the same function, if any. -/
theorem keeps_of_steps (hs : Reachable s) (hsteps : Relation.ReflTransGen Step s t) :
    Reachable t ∧ s.env.registry.Keeps t.env.registry := by
  induction hsteps with
  | refl => exact ⟨hs, .refl _⟩
  | tail _ hstep ih =>
    obtain ⟨hreachable, hkeeps⟩ := ih
    exact ⟨hreachable.step hstep,
      hkeeps.trans (changes_of_step (coherent_of_reachable hreachable) hstep).keeps⟩

end Session

end Reckoner
