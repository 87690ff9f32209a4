import Reckoner.Proofs.Machine.Agree
import Reckoner.Proofs.Machine.Beside
import Reckoner.Proofs.Machine.Stacked
import Reckoner.Proofs.Scope.Frames

/-!
Calls without frames. A machine that writes the arguments of a call over the variables there are,
and puts back what it found, goes side by side with the machine whose calls have frames.
-/

namespace Reckoner.Machine

open Program

/-- Calls a formula on the variables there are: what its parameters mean is remembered, they get
the arguments, the body runs, and they get back what they meant or are dropped. -/
def savingCall : FormulaCall :=
  callBetween (fun parameters args before => before.putAll (parameters.zip args))
    (fun parameters before after =>
      after.restore (parameters.map fun name => (name, before.get? name)))

/-- Both environments have the functions of `base`, which look up variables by name only. Names mean
the same in the frames of the one and in the flat scope of the other, and the calls that the one was
in at `start` still have their frames. -/
structure Flattens (base : Registry) (start env env' : Environment) : Prop where
  alike : EnvAlike base env { env' with scope := env.scope }
  same : ∀ name, env.scope.get? name = env'.scope.get? name
  ownsAll : env.scope.OwnsAll
  isFlat : env'.scope.IsFlat
  keeps : start.scope.Keeps env.scope
  byName : ∀ names, base.Ignores (·.withNames names)

variable {base : Registry} {start : Environment}

theorem isBased_flattens (base : Registry) : IsBased (Flattens base) where
  restart h := ⟨h.alike, h.same, h.ownsAll, h.isFlat, .refl _, h.byName⟩
  trans h h' := ⟨h'.alike, h'.same, h'.ownsAll, h'.isFlat, h.keeps.trans h'.keeps, h'.byName⟩

/-- Without shared cells, reading a variable leaves no trace. -/
theorem readName_of_ownsAll {s : State} (h : s.env.scope.OwnsAll) (name : String) :
    readName name s =
      match s.env.scope.get? name with
      | some v => .done (some v) s
      | none => .done none
          { s with failure := s.failure.set (.invalidValue s!"undefined variable '{name}'") } := by
  simp only [readName, bind_eq, environment, Scope.get?]
  cases hfind : s.env.scope.find? name with
  | none => rfl
  | some v =>
    obtain ⟨value, hvalue⟩ := Scope.isOwned_of_find? h hfind
    simp only [hvalue]
    rfl

theorem writeName_of_ownsAll {s : State} (h : s.env.scope.OwnsAll) (name : String) (v : Value) :
    writeName name v s =
      match s.env.scope.set name v with
      | .ok scope => .done (.value v) { s with env := { s.env with scope } }
      | .error error => .done .failed { s with failure := s.failure.set error } := by
  simp only [writeName, bind_eq, environment]
  cases s.env.scope.set name v with
  | error e => rfl
  | ok scope =>
    cases hfind : s.env.scope.find? name with
    | none => rfl
    | some found =>
      obtain ⟨_, storage⟩ := found
      obtain ⟨value, rfl : storage = .own value⟩ := Scope.isOwned_of_find? h hfind
      rfl

theorem mirrors_readName_flattens (name : String) :
    Mirrors False (Beside (Flattens base start)) Eq (readName name) (readName name) := by
  intro s s' h
  rw [readName_of_ownsAll h.env.ownsAll, readName_of_ownsAll h.env.isFlat.ownsAll, h.env.same name]
  cases s'.env.scope.get? name with
  | none => exact .done rfl ⟨h.env, by rw [h.failure]⟩
  | some v => exact .done rfl h

theorem mirrors_writeName_flattens (name : String) (v : Value) :
    Mirrors False (Beside (Flattens base start)) Eq (writeName name v) (writeName name v) := by
  intro s s' h
  have hflat := h.env.isFlat
  rw [writeName_of_ownsAll h.env.ownsAll, writeName_of_ownsAll hflat.ownsAll]
  rcases Scope.set_both (h.env.same name) v with ⟨e, hs, hs'⟩ | ⟨scope, scope', hs, hs'⟩
  · rw [hs, hs']
    exact .done rfl ⟨h.env, congrArg (·.set e) h.failure⟩
  · rw [hs, hs']
    refine .done rfl ⟨⟨h.env.alike.withScope scope, fun other => ?_, h.env.ownsAll.set hs,
      hflat.set hs', h.env.keeps.trans (Scope.keeps_set h.env.ownsAll hs), h.env.byName⟩,
      h.failure⟩
    rw [Scope.get?_set h.env.ownsAll hs, Scope.get?_set hflat.ownsAll hs', h.env.same other]

theorem isKept_flattens (base : Registry) (start : Environment) :
    IsKept False (Beside (Flattens base start)) :=
  isKept_beside mirrors_readName_flattens mirrors_writeName_flattens

theorem unseen_flattens {f : Function} (hf : f.uncompiled ∈ base.functions) :
    Unseen (Beside (Flattens base start)) f := by
  intro s s' h
  have hlookup : s.env.scope.get? = s'.env.scope.get? := funext h.env.same
  have hview : Environment.view { s'.env with scope := s.env.scope } =
      s'.env.view.withNames s.env.scope.names := by
    simp only [Environment.view, View.withNames, hlookup]
  rw [h.env.alike.invoke_eq hf, hview]
  exact Function.ignores_uncompiled.1 (h.env.byName _ _ hf) _

/-! Calls. -/

def HasOwnParameters (base : Registry) : Prop :=
  ∀ f ∈ base.functions, ∀ parameters text, f.body = .formula parameters text →
    parameters.Nodup ∧ parameters.length = f.arity

def IsCallable (registry base : Registry) : Prop :=
  ∀ name count f, choose registry name count = .ok f →
    ∀ g ∈ base.functions, g.id = f.id → g.arity = f.arity

def EmittedBeside (base : Registry) (runner runner' : Runner) : Prop :=
  ∀ registry, IsCallable registry base → ∀ tree program, Emits registry tree program →
    ∀ depth, RunBeside False (Flattens base) runner runner' depth program

/-- In both ways the parameters have the arguments, and other names keep their meaning. -/
theorem flattens_enter {env env' : Environment} (h : Flattens base start env env')
    {parameters : List String} {args : List Value} (hdistinct : parameters.Nodup)
    (hlength : parameters.length ≤ args.length) :
    Flattens base { env with scope := env.scope.push (parameters.zip args) }
      { env with scope := env.scope.push (parameters.zip args) }
      { env' with scope := env'.scope.putAll (parameters.zip args) } := by
  refine ⟨h.alike.withScope _, fun name => ?_, h.ownsAll.push _, h.isFlat.putAll _, .refl _,
    h.byName⟩
  have hnames : ((parameters.zip args).map Prod.fst).Nodup := by rwa [List.map_fst_zip hlength]
  exact (Scope.get?_push h.ownsAll _ name).trans
    ((congrArg _ (h.same name)).trans (Scope.get?_putAll h.isFlat hnames name).symm)

/-- In both ways the parameters have their old meaning again. -/
theorem flattens_leave {env env' after after' : Environment} (h : Flattens base start env env')
    {parameters : List String} {args : List Value} (hlength : parameters.length ≤ args.length)
    (hafter : Flattens base { env with scope := env.scope.push (parameters.zip args) }
      after after') :
    Flattens base start { after with scope := after.scope.pop }
      { after' with
        scope := after'.scope.restore
          (parameters.map fun name => (name, env'.scope.get? name)) } := by
  obtain ⟨-, -, -, -, -, hkeeps⟩ := Scope.exists_frame hafter.keeps
  refine ⟨hafter.alike.withScope _, fun name => ?_, hafter.ownsAll.pop, hafter.isFlat.restore _,
    h.keeps.trans hkeeps, h.byName⟩
  refine (Scope.get?_pop h.ownsAll hafter.ownsAll hafter.keeps name).trans ?_
  refine Eq.trans ?_ (Scope.get?_restore hafter.isFlat parameters env'.scope.get? name).symm
  rw [List.map_fst_zip hlength, h.same name, hafter.same name]

variable {runner runner' : Runner} {depth : Nat}

theorem isCallable_self (hbase : (base.functions.map Function.id).Nodup) :
    IsCallable base base := by
  intro name count f hf g hg hid
  have hmem := (exists_function_of_choose hf).1
  rw [List.inj_on_of_nodup_map hbase hg hmem hid]

/-- The text of a formula is compiled to the same program on both sides, which is emitted code. -/
theorem mirrors_formulaProgram {f f' : Function} (h : FunctionAlike base f f')
    {parameters : List String} {text : String} (hbody : f.body = .formula parameters text) :
    Mirrors False (Beside (Flattens base start))
      (fun compiled compiled' => compiled = compiled' ∧ compiled = compileText base text)
      (formulaProgram f text) (formulaProgram f' text) := by
  intro s s' hs
  have hbody' : f'.body = .formula parameters text :=
    (Function.body_eq_of_uncompiled h.same).symm.trans hbody
  have halike := hs.env.alike
  obtain ⟨t, ht, hkept, hregistry⟩ := formulaProgram_eq h.isOf hbody halike.reset halike.coherent
  obtain ⟨t', ht', hkept', hregistry'⟩ := formulaProgram_eq (s := s') h.isOf' hbody'
    halike.reset' halike.coherent'
  rw [ht, ht']
  refine .done ⟨rfl, rfl⟩ ⟨⟨?_, ?_, ?_, ?_, ?_, hs.env.byName⟩, ?_⟩
  · exact
      { switches := hkept.switches.trans (halike.switches.trans hkept'.switches.symm)
        scope := rfl
        maxDepth := hkept.maxDepth.trans (halike.maxDepth.trans hkept'.maxDepth.symm)
        reset := hkept.reset
        reset' := hkept'.reset
        coherent := hkept.coherent
        coherent' := hkept'.coherent
        shown := hregistry ▸ hregistry' ▸ h.keeping_eq halike.shown (compileText base text) }
  · rw [hkept.scope, hkept'.scope]
    exact hs.env.same
  · rw [hkept.scope]
    exact hs.env.ownsAll
  · rw [hkept'.scope]
    exact hs.env.isFlat
  · rw [hkept.scope]
    exact hs.env.keeps
  · rw [hkept.failure, hkept'.failure, hs.failure]

/-- The calls themselves, given that bodies are run alike. -/
theorem mirrors_savingCall (hbase : (base.functions.map Function.id).Nodup)
    (hparameters : HasOwnParameters base) (hrunner : EmittedBeside base runner runner')
    {f f' : Function} (h : FunctionAlike base f f') {parameters : List String} {text : String}
    (hbody : f.body = .formula parameters text) {args : List Value}
    (hlength : f.arity ≤ args.length) :
    Mirrors False (Beside (Flattens base start)) Eq
      (callFormula runner depth f parameters text args)
      (savingCall runner' depth f' parameters text args) := by
  obtain ⟨hdistinct, harity⟩ := hparameters f.uncompiled h.isOf.mem parameters text hbody
  have hlength : parameters.length ≤ args.length := harity.trans_le hlength
  rw [callFormula_eq_callBetween, savingCall]
  refine mirrors_callBetween (E := Flattens base) (Function.name_eq_of_uncompiled h.same)
    (fun env env' h => h.alike.maxDepth) ?_ (fun env env' h => flattens_enter h hdistinct hlength)
    (fun env env' after after' h => flattens_leave h hlength)
  refine (mirrors_formulaProgram h hbody).mono ?_
  rintro compiled _ ⟨rfl, hcompiled⟩
  refine ⟨rfl, fun program hprogram => ?_⟩
  obtain ⟨tree, hemits⟩ := emits_of_compileText (hcompiled.symm.trans hprogram)
  exact hrunner base (isCallable_self hbase) tree program hemits (depth + 1)

/-- A call takes what is above its mark and the mark, and pushes an entry. -/
theorem ends_callBy {formula : FormulaCall} {name : String} {target : Option FunctionId}
    {stack rest : Stack} {slots : List Slot} (hsplit : splitCall [] stack = some (slots, rest)) :
    Ends (callBy formula runner depth name target stack) (IsPushed rest) := by
  unfold callBy
  rw [hsplit]
  refine ends_after fun env => ?_
  split
  · exact ends_push rest (ends_of_yields (yields_fail _))
  · refine ends_after fun args => ?_
    cases args with
    | none => exact ends_pure ⟨.failed, rfl, rfl⟩
    | some args => exact ends_after fun result => ends_push rest (ends_slotOf result)

/-- Side by side through emitted code. -/
theorem isHandedBack_flattens (hbase : (base.functions.map Function.id).Nodup)
    (hparameters : HasOwnParameters base) (hrunner : EmittedBeside base runner runner')
    {registry : Registry} (hregistry : IsCallable registry base) (start : Environment)
    (depth : Nat) :
    IsHandedBack registry fun program stack =>
      Mirrors False (Beside (Flattens base start)) Eq
        (performBy callFormula runner depth program stack)
        (performBy savingCall runner' depth program stack) where
  name h := by
    rw [performBy_name, performBy_name]
    exact h
  value h := by
    rw [performBy_value, performBy_value]
    exact h
  openCall h := by
    rw [performBy_openCall, performBy_openCall]
    exact h
  startBlock hsplit h := by
    rw [performBy_startBlock _ _ _ _ hsplit, performBy_startBlock _ _ _ _ hsplit]
    exact h
  comma h := by
    rw [performBy_operator, performBy_operator]
    exact h
  takesOne hone _ _ _ h := by
    rw [performBy_operator, performBy_operator, operator_of_takesOne hone,
      operator_of_takesOne hone]
    exact (mirrors_unary (isKept_flattens base start) _ _).bindEnds
      (ends_of_yields (yields_unary _ _ _)) h
  takesTwo htwo _ _ _ _ h := by
    rw [performBy_operator, performBy_operator, operator_of_takesTwo htwo,
      operator_of_takesTwo htwo]
    exact (mirrors_binary (isKept_flattens base start) _ _).bindEnds
      (ends_of_yields (yields_binary _ _ _ _)) h
  assign h := by
    rw [performBy_operator, performBy_operator]
    exact (mirrors_assign (isKept_flattens base start) _).bindEnds (ends_assign _ _ _) h
  choice {first second a b} hfirst hsecond condition more below h := by
    rw [performBy_operator, performBy_operator]
    have hbranches : Mirrors False (Beside (Flattens base start)) Eq
        (conditional runner depth (condition :: .block b :: .block a :: below))
        (conditional runner' depth (condition :: .block b :: .block a :: below)) := by
      refine mirrors_conditional (isKept_flattens base start) depth _ ?_
      rintro _ _ _ ⟨⟩
      have hrun := hrunner registry hregistry first a hfirst depth
      have hrun' := hrunner registry hregistry second b hsecond depth
      exact ⟨mirrors_nested (isBased_flattens base) hrun start,
        mirrors_nested (isBased_flattens base) hrun' start⟩
    exact hbranches.bindEnds (ends_of_yields (yields_conditional (fun _ => trivial) _ _ _ _ _)) h
  stuck {condition other} hother more below := by
    rw [performBy_operator, performBy_operator]
    have hstuck : Mirrors False (Beside (Flattens base start)) Eq
        (conditional runner depth (condition :: other :: below))
        (conditional runner' depth (condition :: other :: below)) := by
      refine mirrors_conditional (isKept_flattens base start) depth _ fun _ _ _ heq => ?_
      rw [List.drop_one, List.tail_cons, List.cons.injEq] at heq
      rw [heq.1] at hother
      cases hother
    exact hstuck.bindEnds (ends_stuck hother below) fun _ h => h.elim
  call {name count f} hf slots hread harity more below h := by
    rw [performBy_call, performBy_call]
    have hsplit := splitCall_append (openCall_notMem hread) [] below
    rw [List.append_nil] at hsplit
    have hcall : Mirrors False (Beside (Flattens base start)) Eq
        (callBy callFormula runner depth name (some f.id) (slots ++ .openCall :: below))
        (callBy savingCall runner' depth name (some f.id) (slots ++ .openCall :: below)) := by
      refine mirrors_callBy (F := fun g g' => FunctionAlike base g g' ∧ g.id = f.id)
        (isKept_flattens base start) (fun _ _ h => h.1.same)
        (fun _ _ h => unseen_flattens h.1.isOf.mem) (fun s s' hs => ?_) ?_
      · have hfound : Option.Rel (FunctionAlike base) (s.env.registry.find? f.id)
            (s'.env.registry.find? f.id) := hs.env.alike.find? f.id
        rw [Option.bind_some, Option.bind_some]
        generalize s'.env.registry.find? f.id = found' at hfound ⊢
        cases hg : s.env.registry.find? f.id with
        | none =>
          rw [hg] at hfound
          cases hfound with
          | none => exact .none
        | some g =>
          rw [hg] at hfound
          cases hfound with
          | some halike => exact .some ⟨halike, by simpa using List.find?_some hg⟩
      · rintro slots' rest g g' parameters text args hsplit' ⟨halike, hid⟩ hbody hlength
        rw [hsplit] at hsplit'
        cases hsplit'
        have hsame := hregistry name count f hf g.uncompiled halike.isOf.mem hid
        refine mirrors_savingCall hbase hparameters hrunner halike hbody ?_
        rw [hlength, List.length_reverse]
        exact hsame.trans_le harity
    exact hcall.bindEnds (ends_callBy hsplit) h

/-- At any fuel, both machines run emitted code alike. -/
theorem emittedBeside_runBy (hbase : (base.functions.map Function.id).Nodup)
    (hparameters : HasOwnParameters base) (fuel : Nat) :
    EmittedBeside base (runBy callFormula fuel) (runBy savingCall fuel) := by
  induction fuel with
  | zero => exact fun _ _ _ _ _ _ _ _ _ _ _ => .none
  | succ fuel ih =>
    intro registry hregistry tree program hemits depth env env' journal journal' henv
    refine runsBeside_of_mirrors ?_ henv journal journal'
    have hcode := carries_of_emits
      (isHandedBack_flattens hbase hparameters ih hregistry env depth) hemits
    have hperform := hcode [] [] fun slots _ _ => by
      dsimp only
      rw [performBy_nil, performBy_nil]
      exact mirrors_pure rfl
    dsimp only at hperform
    rw [List.append_nil] at hperform
    exact hperform.bindEq fun stack => mirrors_collect (isKept_flattens base env) stack.reverse

end Reckoner.Machine
