import Reckoner.Proofs.Machine.Present
import Reckoner.Proofs.Session.Arguments
import Reckoner.Proofs.Session.Lists

/-!
Absent values stay inside calls. While a host registers functions that give values, and writes only
values itself, it never gets to see anything absent, and neither does an operator. What is absent is
an argument that was left out, and only a function of the host that allows for this is shown it.
-/

namespace Reckoner

open Machine Program Registry

namespace Function

variable {f g : Function}

/-! Compiled programs do not matter. -/

theorem GivesValues.of_uncompiled (h : g.GivesValues) (hsame : g.uncompiled = f.uncompiled) :
    f.GivesValues := by
  rw [eq_of_uncompiled hsame] at h
  exact ⟨h.result, h.parameters⟩

theorem MayOmit.of_uncompiled {missing : Nat} (h : g.MayOmit missing)
    (hsame : g.uncompiled = f.uncompiled) : f.MayOmit missing := by
  rw [eq_of_uncompiled hsame] at h
  exact ⟨h.declared, h.optional⟩

/-- A native that always gives values. -/
theorem givesValues_of_native {call : Native} (hbody : f.body = .native call)
    (h : ∀ view args, call view args ≠ .ok .null) : f.GivesValues := by
  refine ⟨fun view args _ _ _ => ?_, fun hformula => ?_⟩
  · rw [invoke, hbody]
    exact h view args
  · rw [isFormula, hbody] at hformula
    cases hformula

end Function

/-- The functions that a session starts with always give values. -/
theorem Builtin.ne_null_of_mem_table {entry : String × Signature × Native}
    (h : entry ∈ Builtin.table) (view : View) (args : List Value) :
    entry.2.2 view args ≠ .ok .null := by
  have hreal (f : Float → Value) (hf : ∀ x, f x ≠ .null) :
      (realArgument args >>= fun x => pure (f x)) ≠ .ok .null := by
    intro hbind
    obtain ⟨x, -, hx⟩ := bind_eq_ok.1 hbind
    exact hf x (Except.ok.inj hx)
  have hmagnitude : magnitude view args ≠ .ok .null := by
    unfold magnitude
    split
    · simp
    · exact hreal _ fun _ => by simp
  simp only [table, List.mem_cons, List.not_mem_nil, or_false] at h
  rcases h with rfl | rfl | rfl | rfl | rfl | rfl | rfl | rfl | rfl | rfl | rfl
  all_goals first
    | exact hmagnitude
    | exact hreal _ fun _ => by simp

namespace Session

structure HasValues (s : Session) : Prop where
  scope : s.env.scope.HasValues
  functions : ∀ f ∈ s.env.registry.functions, f.GivesValues

theorem HasValues.of_env {s t : Session} (h : s.HasValues) (henv : t.env = s.env) :
    t.HasValues := ⟨henv ▸ h.scope, henv ▸ h.functions⟩

/-! Runs of held programs. -/

namespace Held

variable {h : Held} {fuel : Nat} {l : Launch} {c : Config} {t : Session}

def Omits (h : Held) (target : Option FunctionId) (missing : Nat) : Prop :=
  ∀ f ∈ h.registry.functions, target = some f.id → f.MayOmit missing

theorem IsCode.isGuarded {program : Program} (hcode : h.IsCode program) :
    IsGuarded h.Omits 0 program := by
  obtain ⟨registry, source, root, part, hsource, -, -, hemits⟩ := hcode
  refine isGuarded_of_emits (fun f hf missing hmissing g hg htarget => ?_) hemits
  have hsame := hsource.uncompiled_eq hf hg (Option.some.inj htarget).symm
  exact hmissing.of_uncompiled hsame.symm

theorem IsCurrent.givesValues {registry : Registry} (hcurrent : h.IsCurrent registry)
    (hs : h.session.HasValues) : ∀ f ∈ registry.functions, f.GivesValues := by
  intro f hf
  obtain ⟨g, hg, hsame⟩ := exists_mem_of_reset hcurrent.reset hf
  exact (hs.functions g hg).of_uncompiled hsame

theorem isInvariant_holdsValues (hs : h.session.HasValues) :
    IsInvariant (fun l => h.IsRun l ∧ l.env.scope.HasValues)
      fun _ c => c.HoldsValues h.Omits where
  start hl := ⟨hl.2, 0, [], rfl, nofun, hl.1.code.isGuarded⟩
  ended hl hvisits hc hnext :=
    hc.ended ((isInvariant_isRun.visits hl.1 hvisits).givesValues hs)
      (Launch.isSound_of_visits hvisits) hnext
  nests hl hvisits hc hnext hprogram hfuel := by
    have hcurrent := isInvariant_isRun.visits hl.1 hvisits
    have hsound := Launch.isSound_of_visits hvisits
    exact ⟨isInvariant_isRun.nests hl.1 hvisits hcurrent hnext hprogram hfuel,
      (hc.pending (hcurrent.givesValues hs) hsound hnext).2.2.2 _⟩
  refused hl hvisits hc hnext _ := by
    have hcurrent := isInvariant_isRun.visits hl.1 hvisits
    obtain ⟨hrest, hbelow, hscope, -⟩ :=
      hc.pending (hcurrent.givesValues hs) (Launch.isSound_of_visits hvisits) hnext
    exact .push hscope hrest nofun hbelow
  returned {l c last inner below rest program s fuel execution env journal} hl hvisits hc hnext _ _
      hvisits' hlast hends := by
    have hcurrent := isInvariant_isRun.visits hl.1 hvisits
    obtain ⟨hrest, hbelow, -, -⟩ :=
      hc.pending (hcurrent.givesValues hs) (Launch.isSound_of_visits hvisits) hnext
    have hresult := last_ne_null (hlast.of_ends hvisits' hends)
    have hscope : (inner.leave env).scope.HasValues := by
      rw [Launch.env_of_ends hvisits' hends]
      cases inner with
      | branch => exact hlast.scope
      | formula => exact hlast.scope.pop
    exact .push hscope hrest (ofResult_ne_null hresult) hbelow

theorem holdsValues_of_visits (hs : h.session.HasValues) (hmakes : (h.launch fuel).Makes l)
    (hvisits : l.Visits c) : c.HoldsValues h.Omits :=
  have hinvariant := isInvariant_holdsValues hs
  hinvariant.visits
    (hinvariant.of_makes ⟨⟨h.isCode_program, h.isCurrent_session⟩, hs.scope⟩ hmakes) hvisits

/-- A run gives values and leaves values. -/
theorem hasValues_of_execution (hs : h.session.HasValues) {result : Execution}
    (hrun : h.session.execution fuel h.program = some (result, t)) :
    .null ∉ result.values ∧ t.HasValues := by
  obtain ⟨⟨_, env, journal⟩, hresult, heq⟩ := Option.map_eq_some_iff.1 hrun
  cases heq
  cases fuel with
  | zero => cases hresult
  | succ fuel =>
    obtain ⟨last, hvisits, hends⟩ := (h.launch fuel).result_iff.1 hresult
    have hlast := holdsValues_of_visits hs .refl hvisits
    have hcurrent := isCurrent_of_visits .refl hvisits
    have henv := Launch.env_of_ends hvisits hends
    exact ⟨hlast.of_ends hvisits hends, henv ▸ hlast.scope, henv ▸ hcurrent.givesValues hs⟩

theorem hasValues_of_executeAll (hs : h.session.HasValues) {result : Except Error (List Value)}
    (hrun : h.session.executeAll fuel h.program = some (result, t)) :
    (∀ values, result = .ok values → .null ∉ values) ∧ t.HasValues := by
  obtain ⟨⟨⟨values, failure⟩, t'⟩, hrun, heq⟩ := Option.map_eq_some_iff.1 hrun
  obtain ⟨hvalues, ht'⟩ := hasValues_of_execution hs hrun
  cases failure with
  | some e =>
    cases heq
    exact ⟨nofun, ht'.of_env rfl⟩
  | none =>
    cases heq
    exact ⟨fun _ heq => Except.ok.inj heq ▸ hvalues, ht'⟩

theorem hasValues_of_execute (hs : h.session.HasValues) {result : Except Error Value}
    (hrun : h.session.execute fuel h.program = some (result, t)) :
    result ≠ .ok .null ∧ t.HasValues := by
  obtain ⟨⟨all, t'⟩, hrun, heq⟩ := Option.map_eq_some_iff.1 hrun
  obtain ⟨hvalues, ht⟩ := hasValues_of_executeAll hs hrun
  cases heq
  refine ⟨?_, ht⟩
  cases all with
  | error e => nofun
  | ok values => exact lastOf_ne_null (hvalues values rfl)

/-- Wherever a run comes by, absent values are confined to calls. -/
theorem confinesAbsent_of_visits (hs : h.session.HasValues) (hmakes : (h.launch fuel).Makes l)
    (hvisits : l.Visits c) : c.ConfinesAbsent := by
  have hcurrent := isCurrent_of_visits hmakes hvisits
  refine (holdsValues_of_visits hs hmakes hvisits).confinesAbsent (Launch.isSound_of_visits hvisits)
    fun name target more hcall => ?_
  obtain ⟨registry, root, site, hwritten, rfl, rfl, hmet⟩ := exists_site hmakes hvisits hcall
  obtain ⟨part, -, hsite⟩ := hwritten.part
  obtain ⟨_, below, _, groups, -, -, hsupplies, hsplit⟩ := hmet.supplies hsite.emitted
  refine ⟨_, below, hsplit, fun f hfind => ?_⟩
  rw [Option.bind_some] at hfind
  have hsame := hwritten.uncompiled_eq hcurrent hfind
  have hf : f.uncompiled ∈ h.registry.functions :=
    List.mem_of_find?_eq_some (hcurrent.find?_eq hfind)
  refine ⟨hcurrent.givesValues hs f (List.mem_of_find?_eq_some hfind), ?_, fun missing homits => ?_⟩
  · have harity : f.arity = site.function.arity := by rw [Function.eq_of_uncompiled hsame]; rfl
    have hwidth := (sum_width_eq_length_iff site.args).1
    rw [List.length_append, List.length_replicate, hsupplies.length_flatten hsite.emitted, harity,
      Site.missing]
    omega
  · have hid : f.id = site.function.id := Function.id_eq_of_uncompiled hsame
    exact (homits _ hf (congrArg some hid.symm)).of_uncompiled rfl

end Held

/-! What a host does. -/

/-- What a host does that registers functions which give values, and writes values. It evaluates
texts, and runs programs that were compiled from texts at any time before. -/
inductive Provides : Session → Session → Prop where
  | native (s : Session) (name signature : String) (call : Native)
      (hgives : ∀ f r, s.env.registry.addNative name signature call = .ok (f, r) → f.GivesValues) :
      Provides s (s.registerNative name signature call).2
  | object (s : Session) (name signature : String) (object : NativeObject)
      (hgives : ∀ f r, s.env.registry.addObject name signature object = .ok (f, r) →
        f.GivesValues) :
      Provides s (s.registerObject name signature object).2
  | formula (s : Session) (name : String) (parameters : List String) (body : String) :
      Provides s (s.registerFormula name parameters body).2
  | define (s : Session) (text : String) : Provides s (s.define text).2
  | remove (s : Session) (name : String) : Provides s (s.removeFunction name).2
  | reset (s : Session) : Provides s s.resetFunctions
  | resetOne (s : Session) (id : FunctionId) :
      Provides s (s.withRegistry (s.env.registry.resetOne id))
  | compile (s : Session) (text : String) : Provides s (s.compileText text).2
  | evaluateAll {s t : Session} {fuel : Nat} {text : String} {result : Except Error (List Value)}
      (hrun : s.evaluateAll fuel text = some (result, t)) : Provides s t
  | evaluate {s t : Session} {fuel : Nat} {text : String} {result : Except Error Value}
      (hrun : s.evaluate fuel text = some (result, t)) : Provides s t
  | execution (h : Held) {t : Session} {fuel : Nat} {result : Execution}
      (hrun : h.session.execution fuel h.program = some (result, t)) : Provides h.session t
  | executeAll (h : Held) {t : Session} {fuel : Nat} {result : Except Error (List Value)}
      (hrun : h.session.executeAll fuel h.program = some (result, t)) : Provides h.session t
  | execute (h : Held) {t : Session} {fuel : Nat} {result : Except Error Value}
      (hrun : h.session.execute fuel h.program = some (result, t)) : Provides h.session t
  | createVariable (s : Session) (name : String) {value : Value} (hvalue : value ≠ .null) :
      Provides s (s.createVariable name value).2
  | createShared (s : Session) (name : String) {id : CellId} (hid : (s.env.scope.cell? id).isSome) :
      Provides s (s.createShared name id).2
  | removeVariable (s : Session) (name : String) : Provides s (s.removeVariable name).2
  | addCell (s : Session) {cell : Cell} (hcell : cell.GivesValues) :
      Provides s (s.withScope (s.env.scope.addCell cell).2)
  | setCell (s : Session) (id : CellId) {value : Value}
      (hvalue : ∀ cell, s.env.scope.cell? id = some cell → cell.get value ≠ .null) :
      Provides s (s.withScope (s.env.scope.setCell id value))
  /-- Switches, limits and messages. -/
  | other {s t : Session} (hscope : t.env.scope = s.env.scope)
      (hregistry : t.env.registry = s.env.registry) : Provides s t

inductive Provided : Session → Prop where
  | empty : Provided Session.empty
  | new : Provided Session.new
  | step {s t : Session} (h : Provided s) (hprovides : Provides s t) : Provided t

variable {s t : Session}

theorem registry_changing {α : Type} (s : Session) (result : Except Error α) {change : α → Session}
    (h : ∀ a, (change a).env.registry = s.env.registry) :
    (s.changing result change).2.env.registry = s.env.registry := by
  cases result with
  | error e => rfl
  | ok a => exact h a

theorem Provides.toStep (h : Provides s t) : Step s t := by
  cases h with
  | native => exact .native ..
  | object => exact .object ..
  | formula => exact .formula ..
  | define => exact .define ..
  | remove => exact .remove ..
  | reset => exact .reset _
  | resetOne => exact .resetOne ..
  | compile => exact .compile ..
  | evaluateAll hrun => exact .evaluateAll hrun
  | evaluate hrun => exact .evaluate hrun
  | execution _ hrun => exact .execution hrun
  | executeAll _ hrun => exact .executeAll hrun
  | execute _ hrun => exact .execute hrun
  | createVariable | createShared => exact .other (registry_changing s _ fun _ => rfl)
  | removeVariable | addCell | setCell => exact .other rfl
  | other _ hregistry => exact .other hregistry

theorem Provided.reachable (h : Provided s) : Reachable s := by
  induction h with
  | empty => exact .empty
  | new => exact .new
  | step _ hprovides ih => exact ih.step hprovides.toStep

/-! Functions that are registered. -/

/-- No parameter of a formula may be left out. -/
theorem kindsAt_replicate (count i : Nat) (variadic : Bool) :
    Signature.kindsAt ⟨List.replicate count Kinds.any, variadic⟩ i = Kinds.any := by
  rw [Signature.kindsAt]
  dsimp only
  cases hget : (List.replicate count Kinds.any)[i]? with
  | some kinds => exact List.eq_of_mem_replicate (List.mem_of_getElem? hget)
  | none =>
    cases hlast : (List.replicate count Kinds.any).getLast? with
    | some kinds => exact List.eq_of_mem_replicate (List.mem_of_getLast? hlast)
    | none => rfl

theorem givesValues_of_addFormula {r r' : Registry} {name body : String} {parameters : List String}
    {f : Function} (h : r.addFormula name parameters body = .ok (f, r')) : f.GivesValues := by
  obtain ⟨checked, -, h⟩ := bind_eq_ok.1 h
  obtain ⟨_, -, h⟩ := bind_eq_ok.1 h
  cases h
  exact ⟨fun _ _ _ _ _ => nofun,
    fun _ i => congrArg Kinds.absent (kindsAt_replicate checked.length i false)⟩

theorem givesValues_insert {r : Registry} (h : ∀ f ∈ r.functions, f.GivesValues) {name : String}
    {body : Function.Body} {signature : Signature} {builtin overload : Bool}
    (hnew : (r.insert name body signature builtin overload).1.GivesValues) :
    ∀ f ∈ (r.insert name body signature builtin overload).2.functions, f.GivesValues := by
  intro f hf
  rcases mem_insert hf with ⟨g, hg, hsame⟩ | rfl
  · exact (h g hg).of_uncompiled hsame
  · exact hnew

/-- The last value of a text is the last of all its values. -/
theorem evaluate_eq (fuel : Nat) (s : Session) (text : String) :
    s.evaluate fuel text = (s.evaluateAll fuel text).map
      fun result => (result.1.bind Execution.lastOf, result.2) := by
  unfold Session.evaluate Session.evaluateAll
  split <;> rfl

theorem hasValues_empty : Session.empty.HasValues := ⟨Scope.hasValues_empty, nofun⟩

theorem hasValues_new : Session.new.HasValues := by
  refine ⟨Scope.hasValues_empty, ?_⟩
  refine forall_mem_register (fun f g hsame hf => hf.of_uncompiled hsame) ?_
  intro entry hentry f hbody
  exact Function.givesValues_of_native hbody (Builtin.ne_null_of_mem_table hentry)

namespace HasValues

theorem changing (hs : s.HasValues) {α : Type} {result : Except Error α} {change : α → Session}
    (h : ∀ a, result = .ok a → (change a).HasValues) : (s.changing result change).2.HasValues := by
  cases result with
  | error e => exact hs.of_env rfl
  | ok a => exact h a rfl

theorem withScope (hs : s.HasValues) {scope : Scope} (h : scope.HasValues) :
    (s.withScope scope).HasValues := ⟨h, hs.functions⟩

theorem insert (hs : s.HasValues) {name : String} {body : Function.Body} {signature : Signature}
    {builtin overload : Bool}
    (hnew : (s.env.registry.insert name body signature builtin overload).1.GivesValues) :
    (s.withRegistry (s.env.registry.insert name body signature builtin overload).2).HasValues :=
  ⟨hs.scope, givesValues_insert hs.functions hnew⟩

/-- All functions are of before, whether they are compiled or not. -/
theorem of_kept (hs : s.HasValues) (hscope : t.env.scope = s.env.scope)
    (hkept : ∀ f ∈ t.env.registry.functions,
      ∃ g ∈ s.env.registry.functions, g.uncompiled = f.uncompiled) : t.HasValues := by
  refine ⟨hscope ▸ hs.scope, fun f hf => ?_⟩
  obtain ⟨g, hg, hsame⟩ := hkept f hf
  exact (hs.functions g hg).of_uncompiled hsame

theorem registerNative (hs : s.HasValues) {name signature : String} {call : Native}
    (hgives : ∀ f r, s.env.registry.addNative name signature call = .ok (f, r) → f.GivesValues) :
    (s.registerNative name signature call).2.HasValues := by
  refine hs.changing fun ⟨f, r⟩ hadd => ?_
  have hnew := hgives f r hadd
  obtain ⟨_, -, hadd⟩ := bind_eq_ok.1 hadd
  obtain ⟨_, -, hadd⟩ := bind_eq_ok.1 hadd
  cases hadd
  exact hs.insert hnew

theorem registerObject (hs : s.HasValues) {name signature : String} {object : NativeObject}
    (hgives : ∀ f r, s.env.registry.addObject name signature object = .ok (f, r) →
      f.GivesValues) :
    (s.registerObject name signature object).2.HasValues := by
  refine hs.changing fun ⟨f, r⟩ hadd => ?_
  have hnew := hgives f r hadd
  obtain ⟨_, -, hadd⟩ := bind_eq_ok.1 hadd
  obtain ⟨_, -, hadd⟩ := bind_eq_ok.1 hadd
  cases hadd
  exact hs.insert hnew

theorem registerFormula (hs : s.HasValues) (name : String) (parameters : List String)
    (body : String) : (s.registerFormula name parameters body).2.HasValues := by
  refine hs.changing fun ⟨f, r⟩ hadd => ?_
  have hnew := givesValues_of_addFormula hadd
  obtain ⟨_, -, hadd⟩ := bind_eq_ok.1 hadd
  obtain ⟨_, -, hadd⟩ := bind_eq_ok.1 hadd
  cases hadd
  exact hs.insert hnew

theorem removeFunction (hs : s.HasValues) (name : String) :
    (s.removeFunction name).2.HasValues := by
  refine hs.of_kept rfl fun f hf => ?_
  simp only [Session.removeFunction, Registry.remove] at hf
  split at hf
  · obtain ⟨g, hg, rfl⟩ := List.mem_map.1 hf
    exact ⟨g, List.mem_of_mem_filter hg, rfl⟩
  · exact ⟨f, hf, rfl⟩

/-- An evaluation gives values and leaves values. -/
theorem of_evaluateAll (hs : s.HasValues) (hreachable : Reachable s) {fuel : Nat} {text : String}
    {result : Except Error (List Value)} (hrun : s.evaluateAll fuel text = some (result, t)) :
    (∀ values, result = .ok values → .null ∉ values) ∧ t.HasValues := by
  cases hcompile : Machine.compileText s.env.registry text with
  | error e =>
    have herror := compileText_fst s text
    have henv := compileText_env s text
    unfold Session.evaluateAll at hrun
    split at hrun
    · next heq =>
      cases hrun
      rw [heq] at henv
      exact ⟨nofun, hs.of_env henv⟩
    · next heq =>
      rw [hcompile, heq] at herror
      cases herror
  | ok program =>
    have hcompiled := compileText_of_eq_ok hcompile
    let h : Held := ⟨s, text, program, s, hreachable, .refl, by rw [hcompiled]⟩
    rw [Session.evaluateAll, hcompiled] at hrun
    exact h.hasValues_of_executeAll hs hrun

theorem of_evaluate (hs : s.HasValues) (hreachable : Reachable s) {fuel : Nat} {text : String}
    {result : Except Error Value} (hrun : s.evaluate fuel text = some (result, t)) :
    result ≠ .ok .null ∧ t.HasValues := by
  rw [evaluate_eq] at hrun
  obtain ⟨⟨all, t'⟩, hrun, heq⟩ := Option.map_eq_some_iff.1 hrun
  obtain ⟨hvalues, ht⟩ := hs.of_evaluateAll hreachable hrun
  cases heq
  refine ⟨?_, ht⟩
  cases all with
  | error e => nofun
  | ok values => exact lastOf_ne_null (hvalues values rfl)

theorem of_provides (hs : s.HasValues) (hreachable : Reachable s) (h : Provides s t) :
    t.HasValues := by
  cases h with
  | native _ _ _ _ hgives => exact hs.registerNative hgives
  | object _ _ _ _ hgives => exact hs.registerObject hgives
  | formula => exact hs.registerFormula ..
  | define _ text =>
    unfold Session.define
    split
    · exact hs.registerFormula ..
    · exact hs.changing nofun
  | remove => exact hs.removeFunction _
  | reset => exact hs.of_kept rfl fun _ => exists_mem_of_reset (reset_reset _)
  | resetOne _ id =>
    exact hs.of_kept rfl fun _ => exists_mem_of_reset (reset_modify (fun f => by rfl) _ id)
  | compile => exact hs.of_env (compileText_env s _)
  | evaluateAll hrun => exact (hs.of_evaluateAll hreachable hrun).2
  | evaluate hrun => exact (hs.of_evaluate hreachable hrun).2
  | execution h hrun => exact (h.hasValues_of_execution hs hrun).2
  | executeAll h hrun => exact (h.hasValues_of_executeAll hs hrun).2
  | execute h hrun => exact (h.hasValues_of_execute hs hrun).2
  | createVariable _ _ hvalue =>
    exact hs.changing fun _ hcreate => hs.withScope (hs.scope.create hvalue hcreate)
  | createShared _ _ hid =>
    exact hs.changing fun _ hcreate => hs.withScope (hs.scope.createShared hid hcreate)
  | removeVariable => exact hs.withScope (hs.scope.withoutGlobal _)
  | addCell _ hcell => exact hs.withScope (hs.scope.addCell hcell)
  | setCell _ id hvalue => exact hs.withScope (hs.scope.setCell id hvalue)
  | other hscope hregistry => exact ⟨hscope ▸ hs.scope, hregistry ▸ hs.functions⟩

end HasValues

theorem hasValues_of_provided (hs : Provided s) : s.HasValues := by
  induction hs with
  | empty => exact hasValues_empty
  | new => exact hasValues_new
  | step hs hprovides ih => exact ih.of_provides hs.reachable hprovides

/-- Absent values stay inside calls. Take a session whose host has registered functions that give
values, has written values and has evaluated texts, any number of times and in any order. All its
variables have values then, and every evaluation gives values, as does every run of a program that
was compiled before. At each moment of such a run, at any level, all globals and all bindings of
frames have values, and so do the operands of an operator. What is absent is kept for a call that
comes next, as an argument that was left out, and is shown to functions of the host alone, at places
where they declare that it may be. -/
theorem confinesAbsent_of_provided (hs : Provided s) :
    s.env.scope.HasValues ∧
      (∀ fuel text values t, s.evaluateAll fuel text = some (.ok values, t) → .null ∉ values) ∧
      (∀ fuel text v t, s.evaluate fuel text = some (.ok v, t) → v ≠ .null) ∧
      ∀ h : Held, h.session = s → ∀ fuel,
        (∀ result t, s.execution fuel h.program = some (result, t) → .null ∉ result.values) ∧
        ∀ l c, (h.launch fuel).Makes l → l.Visits c → c.ConfinesAbsent := by
  have hvalues := hasValues_of_provided hs
  refine ⟨hvalues.scope, fun fuel text values t hrun => ?_, fun fuel text v t hrun => ?_, ?_⟩
  · exact (hvalues.of_evaluateAll hs.reachable hrun).1 values rfl
  · rintro rfl
    exact (hvalues.of_evaluate hs.reachable hrun).1 rfl
  · rintro h rfl fuel
    exact ⟨fun result t hrun => (h.hasValues_of_execution hvalues hrun).1,
      fun l c hmakes hvisits => Held.confinesAbsent_of_visits hvalues hmakes hvisits⟩

/-- A function of the host is shown an absent argument, and nothing else is. -/
theorem confinesAbsent_of_count :
    ∃ (h : Held) (c : Config), Provided h.session ∧ h.text = "f(2)" ∧ (h.launch 0).Visits c ∧
      c.Invokes ⟨0⟩ [.integer 2, .null] ∧ c.ConfinesAbsent := by
  have hprovided : Provided (withCount "i, in") := by
    refine .step .empty (.native _ _ _ _ fun f r hadd => ?_)
    obtain ⟨_, -, hadd⟩ := bind_eq_ok.1 hadd
    obtain ⟨_, -, hadd⟩ := bind_eq_ok.1 hadd
    cases hadd
    exact Function.givesValues_of_native rfl fun _ _ => nofun
  obtain ⟨h, c, hsession, htext, hvisits, hinvokes⟩ := exists_invocation_of_count
  exact ⟨h, c, hsession ▸ hprovided, htext, hvisits, hinvokes,
    ((confinesAbsent_of_provided hprovided).2.2.2 h hsession 0).2 _ c .refl hvisits⟩

end Session

end Reckoner
