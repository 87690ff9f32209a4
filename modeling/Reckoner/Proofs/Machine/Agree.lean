import Reckoner.Proofs.Machine.Caller

/-!
Runs that start from environments with different compiled programs. As long as the programs are
right for their formulas, and no native looks at them, they decide nothing: two such runs go through
related states, and leave environments that again differ in compiled programs alone.
-/

namespace Reckoner.Machine

/-- Both environments have the functions of `base`, with compiled programs that are right, and agree
in everything else. Where a native looks at the programs, they agree in these too. -/
structure EnvAlike (base : Registry) (env env' : Environment) : Prop where
  switches : env.switches = env'.switches
  scope : env.scope = env'.scope
  maxDepth : env.maxDepth = env'.maxDepth
  reset : env.registry.reset = base
  reset' : env'.registry.reset = base
  coherent : env.registry.Coherent
  coherent' : env'.registry.Coherent
  shown : base.Ignores View.uncompiled ∨ env.registry = env'.registry

theorem EnvAlike.refl {env : Environment} (h : env.registry.Coherent) :
    EnvAlike env.registry.reset env env :=
  ⟨rfl, rfl, rfl, rfl, rfl, h, h, .inr rfl⟩

structure Alike (base : Registry) (s s' : State) : Prop where
  env : EnvAlike base s.env s'.env
  journal : s.journal = s'.journal
  failure : s.failure = s'.failure

inductive Outcome.Rel {α β : Type} (base : Registry) (R : α → β → Prop) :
    Outcome α → Outcome β → Prop where
  | done {a : α} {b : β} {s s' : State} (hR : R a b) (h : Alike base s s') :
      Rel base R (.done a s) (.done b s')
  | stopped {s s' : State} (error : Error) (h : Alike base s s') :
      Rel base R (.stopped error s) (.stopped error s')
  | outOfFuel : Rel base R .outOfFuel .outOfFuel

structure ResultAlike (base : Registry) (result result' : Execution × Environment × List Event) :
    Prop where
  execution : result.1 = result'.1
  env : EnvAlike base result.2.1 result'.2.1
  journal : result.2.2 = result'.2.2

def Outcome.result? : Outcome (List Value) → Option (Execution × Environment × List Event)
  | .done values s => some (⟨values, s.failure.held⟩, s.env, s.journal)
  | .stopped error s => some (⟨[], some error⟩, s.env, s.journal)
  | .outOfFuel => none

theorem Outcome.Rel.result? {base : Registry} {o o' : Outcome (List Value)}
    (h : Outcome.Rel base Eq o o') : Option.Rel (ResultAlike base) o.result? o'.result? := by
  cases h with
  | done hR hs =>
    cases hR
    exact .some ⟨by rw [hs.failure], hs.env, hs.journal⟩
  | stopped error hs => exact .some ⟨rfl, hs.env, hs.journal⟩
  | outOfFuel => exact .none

def Agree {α β : Type} (base : Registry) (R : α → β → Prop) (m : Machine α) (m' : Machine β) :
    Prop :=
  ∀ s s', Alike base s s' → Outcome.Rel base R (m s) (m' s')

section Monad

variable {α α' β β' : Type} {base : Registry} {R : α → α' → Prop} {S : β → β' → Prop}

theorem agree_pure {a : α} {a' : α'} (h : R a a') : Agree base R (pure a) (pure a') :=
  fun _ _ hs => .done h hs

/-- Computations that agree are a case of machines side by side, of which both compute the same. -/
theorem agree_iff_mirrors {m : Machine α} {m' : Machine α'} :
    Agree base R m m' ↔ Mirrors False (Alike base) R m m' := by
  have hrel {o : Outcome α} {o' : Outcome α'} :
      Outcome.Rel base R o o' ↔ Outcome.Mirrors False (Alike base) R o o' := by
    constructor
    · rintro (⟨hR, h⟩ | ⟨error, h⟩ | _)
      · exact .done hR h
      · exact .stopped error h
      · exact .outOfFuel
    · rintro (⟨hR, h⟩ | ⟨error, h⟩ | _ | hlax)
      · exact .done hR h
      · exact .stopped error h
      · exact .outOfFuel
      · exact hlax.elim
  exact ⟨fun h s s' hs => hrel.1 (h s s' hs), fun h s s' hs => hrel.2 (h hs)⟩

theorem Agree.bind {m : Machine α} {m' : Machine α'} {f : α → Machine β} {f' : α' → Machine β'}
    (hm : Agree base R m m') (hf : ∀ a a', R a a' → Agree base S (f a) (f' a')) :
    Agree base S (m >>= f) (m' >>= f') :=
  agree_iff_mirrors.2 <| (agree_iff_mirrors.1 hm).bind
    fun a a' ha => agree_iff_mirrors.1 (hf a a' ha)

/-- After computations with the same result. -/
theorem Agree.bindEq {m m' : Machine α} {f : α → Machine β} {f' : α → Machine β'}
    (hm : Agree base Eq m m') (hf : ∀ a, Agree base S (f a) (f' a)) :
    Agree base S (m >>= f) (m' >>= f') := by
  refine hm.bind ?_
  rintro a _ rfl
  exact hf a

end Monad

variable {base : Registry}

theorem agree_environment : Agree base (EnvAlike base) environment environment :=
  fun _ _ hs => .done hs.env hs

theorem agree_setEnvironment {env env' : Environment} (h : EnvAlike base env env') :
    Agree base Eq (setEnvironment env) (setEnvironment env') :=
  fun _ _ hs => .done rfl ⟨h, hs.journal, hs.failure⟩

theorem agree_note (event : Event) : Agree base Eq (note event) (note event) :=
  fun _ _ hs => .done rfl ⟨hs.env, congrArg (event :: ·) hs.journal, hs.failure⟩

theorem agree_report (error : Error) : Agree base Eq (report error) (report error) :=
  fun _ _ hs => .done rfl ⟨hs.env, hs.journal, congrArg (·.set error) hs.failure⟩

theorem agree_fail (error : Error) : Agree base Eq (fail error) (fail error) :=
  (agree_report error).bindEq fun _ => agree_pure rfl

theorem agree_readName (name : String) : Agree base Eq (readName name) (readName name) := by
  refine agree_environment.bind fun env env' henv => ?_
  rw [henv.scope]
  split
  · exact (agree_report _).bindEq fun _ => agree_pure rfl
  · split
    · exact (agree_note _).bindEq fun _ => agree_pure rfl
    · exact agree_pure rfl

theorem EnvAlike.withScope {env env' : Environment} (h : EnvAlike base env env') (scope : Scope) :
    EnvAlike base { env with scope } { env' with scope } :=
  ⟨h.switches, rfl, h.maxDepth, h.reset, h.reset', h.coherent, h.coherent', h.shown⟩

theorem agree_writeName (name : String) (v : Value) :
    Agree base Eq (writeName name v) (writeName name v) := by
  refine agree_environment.bind fun env env' henv => ?_
  rw [henv.scope]
  split
  · exact agree_fail _
  · next scope _ =>
    have hset : Agree base Eq (do setEnvironment { env with scope }; return Slot.value v)
        (do setEnvironment { env' with scope }; return Slot.value v) :=
      (agree_setEnvironment (henv.withScope scope)).bindEq fun _ => agree_pure rfl
    split
    · exact (agree_note _).bindEq fun _ => hset
    · exact hset

theorem isKept_alike (base : Registry) : IsKept False (Alike base) where
  note event := agree_iff_mirrors.1 (agree_note event)
  report error := agree_iff_mirrors.1 (agree_report error)
  readName name := agree_iff_mirrors.1 (agree_readName name)
  writeName name v := agree_iff_mirrors.1 (agree_writeName name v)

theorem agree_slotOf (result : Except Error Value) :
    Agree base Eq (slotOf result) (slotOf result) :=
  agree_iff_mirrors.2 (mirrors_slotOf (isKept_alike base) result)

theorem agree_resolve (slot : Slot) : Agree base Eq (resolve slot) (resolve slot) :=
  agree_iff_mirrors.2 (mirrors_resolve (isKept_alike base) slot)

theorem agree_unary (op : Operator) (stack : Stack) :
    Agree base Eq (unary op stack) (unary op stack) :=
  agree_iff_mirrors.2 (mirrors_unary (isKept_alike base) op stack)

theorem agree_binary (op : Operator) (stack : Stack) :
    Agree base Eq (binary op stack) (binary op stack) :=
  agree_iff_mirrors.2 (mirrors_binary (isKept_alike base) op stack)

theorem agree_assign (stack : Stack) : Agree base Eq (assign stack) (assign stack) :=
  agree_iff_mirrors.2 (mirrors_assign (isKept_alike base) stack)

theorem agree_collect (slots : List Slot) : Agree base Eq (collect slots) (collect slots) :=
  agree_iff_mirrors.2 (mirrors_collect (isKept_alike base) slots)

/-! Formulas. Which of them have a compiled program may differ. -/

structure IsOf (base : Registry) (f : Function) : Prop where
  mem : f.uncompiled ∈ base.functions
  cached : ∀ program, f.compiled = some program →
    ∃ parameters text, f.body = .formula parameters text ∧ compileText base text = .ok program

/-- The same function, with or without its compiled program if no native looks at that. -/
structure FunctionAlike (base : Registry) (f f' : Function) : Prop where
  same : f.uncompiled = f'.uncompiled
  isOf : IsOf base f
  isOf' : IsOf base f'
  shown : base.Ignores View.uncompiled ∨ f = f'

theorem FunctionAlike.validate_eq {f f' : Function} (h : FunctionAlike base f f') :
    f.validate = f'.validate := by
  rw [Function.eq_of_uncompiled h.same]
  rfl

theorem EnvAlike.uncompiled_view {env env' : Environment} (h : EnvAlike base env env') :
    env.view.uncompiled = env'.view.uncompiled := by
  have hfunctions (env : Environment) (hreset : env.registry.reset = base) :
      env.view.uncompiled.functions = base.functions.map Function.listing := by
    rw [← hreset, Registry.map_listing_reset]
    rfl
  have hcompiled := (hfunctions env h.reset).trans (hfunctions env' h.reset').symm
  simp only [View.uncompiled, Environment.view, View.mk.injEq] at hcompiled ⊢
  exact ⟨h.switches, by rw [h.scope], by rw [h.scope], hcompiled, h.maxDepth⟩

/-- What a function is shown differs at most in what it ignores. -/
theorem EnvAlike.invoke_eq {env env' : Environment} (h : EnvAlike base env env') {f : Function}
    (hf : f.uncompiled ∈ base.functions) : f.invoke env.view = f.invoke env'.view := by
  rcases h.shown with hignores | hregistry
  · have hf := Function.ignores_uncompiled.1 (hignores _ hf)
    rw [← hf env.view, ← hf env'.view, h.uncompiled_view]
  · have hview : env.view = env'.view := by
      simp only [Environment.view, h.switches, h.scope, hregistry, h.maxDepth]
    rw [hview]

theorem unseen_alike {f : Function} (hf : f.uncompiled ∈ base.functions) :
    Unseen (Alike base) f :=
  fun _ _ hs => hs.env.invoke_eq hf

theorem FunctionAlike.agree_invoke {f f' : Function} (h : FunctionAlike base f f')
    (args : List Value) :
    Agree base Eq
      (do
        let env ← environment
        note (.invoked f.id args)
        return f.invoke env.view args)
      (do
        let env ← environment
        note (.invoked f'.id args)
        return f'.invoke env.view args) := by
  have hinvoke : f.invoke = f'.invoke := by
    rw [Function.eq_of_uncompiled h.same]
    rfl
  rw [← hinvoke, ← Function.id_eq_of_uncompiled h.same]
  intro s s' hs
  have hresult : f.invoke s.env.view args = f.invoke s'.env.view args := by
    rw [unseen_alike h.isOf.mem hs]
  exact ((agree_note (.invoked f.id args)).bindEq fun _ => agree_pure hresult) s s' hs

theorem isOf_of_mem {r : Registry} (hreset : r.reset = base) (hr : r.Coherent) {f : Function}
    (hf : f ∈ r.functions) : IsOf base f := by
  subst hreset
  refine ⟨List.mem_map_of_mem hf, fun program hprogram => ?_⟩
  obtain ⟨parameters, text, hbody, htext⟩ := hr.cached f hf program hprogram
  exact ⟨parameters, text, hbody, (compileText_congr r.reset_reset text).trans htext⟩

theorem EnvAlike.find? {env env' : Environment} (h : EnvAlike base env env') (id : FunctionId) :
    Option.Rel (FunctionAlike base) (env.registry.find? id) (env'.registry.find? id) := by
  have hsame : (env.registry.find? id).map Function.uncompiled =
      (env'.registry.find? id).map Function.uncompiled := by
    rw [← Registry.find?_reset, ← Registry.find?_reset, h.reset, h.reset']
  cases hf : env.registry.find? id with
  | none =>
    cases hf' : env'.registry.find? id with
    | none => exact .none
    | some f' => simp [hf, hf'] at hsame
  | some f =>
    cases hf' : env'.registry.find? id with
    | none => simp [hf, hf'] at hsame
    | some f' =>
      rw [hf, hf'] at hsame
      refine .some ⟨Option.some.inj hsame,
        isOf_of_mem h.reset h.coherent (List.mem_of_find?_eq_some hf),
        isOf_of_mem h.reset' h.coherent' (List.mem_of_find?_eq_some hf'), ?_⟩
      refine h.shown.imp_right fun hregistry => ?_
      rw [hregistry, hf'] at hf
      exact (Option.some.inj hf).symm

structure Recompiled (base : Registry) (s t : State) : Prop where
  journal : t.journal = s.journal
  failure : t.failure = s.failure
  switches : t.env.switches = s.env.switches
  scope : t.env.scope = s.env.scope
  maxDepth : t.env.maxDepth = s.env.maxDepth
  reset : t.env.registry.reset = base
  coherent : t.env.registry.Coherent

/-- The program of a formula is what its text compiles to, whether or not it was compiled before. -/
theorem formulaProgram_eq {f : Function} (hf : IsOf base f) {parameters : List String}
    {text : String} (hbody : f.body = .formula parameters text) {s : State}
    (hreset : s.env.registry.reset = base) (hcoherent : s.env.registry.Coherent) :
    ∃ t, formulaProgram f text s = .done (compileText base text) t ∧ Recompiled base s t ∧
      t.env.registry = s.env.registry.keeping f (compileText base text) := by
  have hsame : Recompiled base s s := ⟨rfl, rfl, rfl, rfl, rfl, hreset, hcoherent⟩
  have htext : compileText s.env.registry text = compileText base text := by
    refine compileText_congr ?_ text
    rw [← hreset, Registry.reset_reset]
  cases hcompiled : f.compiled with
  | some program =>
    obtain ⟨parameters', text', hbody', hprogram⟩ := hf.cached program hcompiled
    rw [hbody] at hbody'
    cases hbody'
    refine ⟨s, ?_, hsame, by simp [Registry.keeping, hcompiled]⟩
    simp only [formulaProgram, hcompiled, hprogram, pure_eq]
  | none =>
    cases hprogram : compileText base text with
    | error e =>
      refine ⟨s, ?_, hsame, by simp [Registry.keeping, hcompiled]⟩
      simp only [formulaProgram, hcompiled, bind_eq, environment, htext, hprogram, pure_eq]
    | ok program =>
      have hmem := hf.mem
      rw [← hreset] at hmem
      obtain ⟨g, hg, hsame⟩ := List.mem_map.1 hmem
      have hid : g.id = f.id := Function.id_eq_of_uncompiled hsame
      have hgbody : g.body = .formula parameters text :=
        (Function.body_eq_of_uncompiled hsame).trans hbody
      have hset := Registry.coherent_setCompiled hcoherent hg hgbody (htext.trans hprogram)
      rw [hid] at hset
      refine ⟨{ s with env := { s.env with
        registry := s.env.registry.setCompiled f.id program } }, ?_,
        ⟨rfl, rfl, rfl, rfl, rfl, ?_, hset⟩, by simp [Registry.keeping, hcompiled]⟩
      · simp only [formulaProgram, hcompiled, bind_eq, environment, htext, hprogram, setEnvironment,
          pure_eq]
      · exact (Registry.reset_setCompiled _ _ _).trans hreset

/-- Where the programs are looked at, both functions keep the same one. -/
theorem FunctionAlike.keeping_eq {f f' : Function} (h : FunctionAlike base f f')
    {r r' : Registry} (hr : base.Ignores View.uncompiled ∨ r = r')
    (compiled : Except Error Program) :
    base.Ignores View.uncompiled ∨ r.keeping f compiled = r'.keeping f' compiled := by
  rcases h.shown with hignores | rfl
  · exact .inl hignores
  · exact hr.imp_right fun hsame => by rw [hsame]

theorem Alike.of_recompiled {s s' t t' : State} (hs : Alike base s s') (h : Recompiled base s t)
    (h' : Recompiled base s' t')
    (hshown : base.Ignores View.uncompiled ∨ t.env.registry = t'.env.registry) :
    Alike base t t' where
  env :=
    { switches := h.switches.trans (hs.env.switches.trans h'.switches.symm)
      scope := h.scope.trans (hs.env.scope.trans h'.scope.symm)
      maxDepth := h.maxDepth.trans (hs.env.maxDepth.trans h'.maxDepth.symm)
      reset := h.reset
      reset' := h'.reset
      coherent := h.coherent
      coherent' := h'.coherent
      shown := hshown }
  journal := h.journal.trans (hs.journal.trans h'.journal.symm)
  failure := h.failure.trans (hs.failure.trans h'.failure.symm)

theorem agree_formulaProgram {f f' : Function} (h : FunctionAlike base f f')
    {parameters : List String} {text : String} (hbody : f.body = .formula parameters text) :
    Agree base (fun compiled compiled' => compiled = compiled' ∧ compiled = compileText base text)
      (formulaProgram f text) (formulaProgram f' text) := by
  intro s s' hs
  have hbody' : f'.body = .formula parameters text :=
    (Function.body_eq_of_uncompiled h.same).symm.trans hbody
  obtain ⟨t, ht, hrecompiled, hregistry⟩ :=
    formulaProgram_eq h.isOf hbody hs.env.reset hs.env.coherent
  obtain ⟨t', ht', hrecompiled', hregistry'⟩ :=
    formulaProgram_eq h.isOf' hbody' hs.env.reset' hs.env.coherent'
  rw [ht, ht']
  refine .done ⟨rfl, rfl⟩ (hs.of_recompiled hrecompiled hrecompiled' ?_)
  rw [hregistry, hregistry']
  exact h.keeping_eq hs.env.shown (compileText base text)

def RunnersAgree (base : Registry) (runner runner' : Runner) : Prop :=
  ∀ depth program env env' journal, EnvAlike base env env' →
    Option.Rel (ResultAlike base) (runner depth program env journal)
      (runner' depth program env' journal)

section Runner

variable {runner runner' : Runner} (hrunner : RunnersAgree base runner runner') (depth : Nat)

include hrunner

theorem agree_nested (program : Program) :
    Agree base Eq (nested runner depth program) (nested runner' depth program) := by
  intro s s' hs
  have hrel := hrunner depth program s.env s'.env s.journal hs.env
  rw [nested, nested, ← hs.journal]
  generalize runner depth program s.env s.journal = result at hrel ⊢
  generalize runner' depth program s'.env s.journal = result' at hrel ⊢
  cases hrel with
  | none => exact .outOfFuel
  | some h => exact .done h.execution ⟨h.env, h.journal, hs.failure⟩

omit hrunner in
/-- Works that agree do so in a frame of their own too. -/
theorem agree_frame {α β : Type} {f f' : Function} (hid : f.id = f'.id)
    (bindings : List (String × Value)) (result : α → β) {work work' : Machine α}
    (hwork : Agree base Eq work work') :
    Agree base Eq
      (do
        let env ← environment
        let inner := env.scope.push bindings
        setEnvironment { env with scope := inner }
        note (.entered f.id inner.depth)
        let a ← work
        let env ← environment
        setEnvironment { env with scope := env.scope.pop }
        note (.left f.id)
        return result a)
      (do
        let env ← environment
        let inner := env.scope.push bindings
        setEnvironment { env with scope := inner }
        note (.entered f'.id inner.depth)
        let a ← work'
        let env ← environment
        setEnvironment { env with scope := env.scope.pop }
        note (.left f'.id)
        return result a) := by
  refine agree_environment.bind fun env env' henv => ?_
  dsimp only
  rw [henv.scope, hid]
  refine (agree_setEnvironment (henv.withScope _)).bindEq fun _ => ?_
  refine (agree_note _).bindEq fun _ => ?_
  refine hwork.bindEq fun a => ?_
  refine agree_environment.bind fun env env' henv => ?_
  rw [henv.scope]
  refine (agree_setEnvironment (henv.withScope _)).bindEq fun _ => ?_
  exact (agree_note _).bindEq fun _ => agree_pure rfl

theorem agree_callFormula {f f' : Function} (h : FunctionAlike base f f')
    {parameters : List String} {text : String} (hbody : f.body = .formula parameters text)
    (args : List Value) :
    Agree base Eq (callFormula runner depth f parameters text args)
      (callFormula runner' depth f' parameters text args) := by
  have hname : f.name = f'.name := Function.name_eq_of_uncompiled h.same
  have hid : f.id = f'.id := Function.id_eq_of_uncompiled h.same
  refine agree_environment.bind fun env env' henv => ?_
  rw [henv.maxDepth, hname]
  split
  · exact agree_pure rfl
  · refine (agree_formulaProgram h hbody).bind ?_
    rintro compiled _ ⟨rfl, -⟩
    cases compiled with
    | error e => exact agree_pure rfl
    | ok program =>
      exact agree_frame hid _ Execution.last (agree_nested hrunner (depth + 1) program)

theorem agree_apply {f f' : Function} (h : FunctionAlike base f f') (args : List Value) :
    Agree base Eq (apply runner depth f args) (apply runner' depth f' args) := by
  have hformula (parameters : List String) (text : String)
      (hbody : f.body = .formula parameters text) :=
    agree_iff_mirrors.1 (agree_callFormula hrunner depth h hbody args)
  exact agree_iff_mirrors.2
    (mirrors_applyBy (isKept_alike base) h.same (unseen_alike h.isOf.mem) hformula)

omit hrunner in
theorem agree_readArguments {f f' : Function} (h : FunctionAlike base f f') (index : Nat)
    (slots : List Slot) :
    Agree base Eq (readArguments f index slots) (readArguments f' index slots) := by
  have hname := Function.name_eq_of_uncompiled h.same
  have hsignature : f.signature = f'.signature := by rw [Function.eq_of_uncompiled h.same]
  have hread := mirrors_readArguments (isKept_alike base) hname hsignature index slots
  exact agree_iff_mirrors.2 (hread.mono fun _ _ hargs => hargs.1)

theorem agree_call (name : String) (target : Option FunctionId) (stack : Stack) :
    Agree base Eq (call runner depth name target stack) (call runner' depth name target stack) := by
  have hfound (s s' : State) (hs : Alike base s s') : Option.Rel (FunctionAlike base)
      (target.bind s.env.registry.find?) (target.bind s'.env.registry.find?) := by
    cases target with
    | none => exact .none
    | some id => exact hs.env.find? id
  refine agree_iff_mirrors.2 (mirrors_callBy (isKept_alike base) (fun _ _ h => h.same)
    (fun _ _ h => unseen_alike h.isOf.mem) hfound ?_)
  rintro - - f f' parameters text args - h hbody -
  exact agree_iff_mirrors.1 (agree_callFormula hrunner depth h hbody args)

/-- One step after the other, the runs of a program agree. -/
theorem agree_perform (program : Program) (stack : Stack) :
    Agree base Eq (perform runner depth program stack) (perform runner' depth program stack) := by
  have hnested (program : Program) := agree_iff_mirrors.1 (agree_nested hrunner depth program)
  have hcall (name : String) (target : Option FunctionId) (stack : Stack) :=
    agree_iff_mirrors.1 (agree_call hrunner depth name target stack)
  rw [← performBy_callFormula, ← performBy_callFormula]
  exact agree_iff_mirrors.2 (mirrors_performBy (isKept_alike base) hnested hcall program stack)

end Runner

theorem runnersAgree_runWith {runner runner' : Runner} (h : RunnersAgree base runner runner') :
    RunnersAgree base (runWith runner) (runWith runner') := by
  intro depth program env env' journal henv
  have hwork : Agree base Eq
      (do
        let stack ← perform runner depth program []
        collect stack.reverse)
      (do
        let stack ← perform runner' depth program []
        collect stack.reverse) :=
    (agree_perform h depth program []).bindEq fun stack => agree_collect stack.reverse
  exact (hwork ⟨env, journal, FirstError.none⟩ ⟨env', journal, FirstError.none⟩
    ⟨henv, rfl, rfl⟩).result?

/-- Runs agree at any fuel. -/
theorem runnersAgree_run (base : Registry) (fuel : Nat) :
    RunnersAgree base (run fuel) (run fuel) := by
  induction fuel with
  | zero => exact fun _ _ _ _ _ _ => .none
  | succ fuel ih => exact runnersAgree_runWith ih

end Reckoner.Machine
