import Mathlib
import Reckoner.Proofs.Machine.Steps
import Reckoner.Proofs.Program.Parts
import Reckoner.Session.Basic

/-!
The stack discipline of compiled code. When no brackets directly hold a comma list, the code of each
expression pushes one entry, and the run of a program leaves one entry for each expression of its
comma list. Brackets that do hold a list push an entry for each of its expressions, wherever they
stand.
-/

namespace Reckoner.Machine

open Program

def Pushes (count : Nat) (code : Program) : Prop :=
  ∃ shapes : List Shape, shapes.length = count ∧ (∀ shape ∈ shapes, shape.isReadable) ∧
    ∀ more below, effect (code ++ more) below = effect more (shapes ++ below)

theorem Pushes.nil : Pushes 0 [] := ⟨[], rfl, nofun, fun _ _ => rfl⟩

theorem Pushes.append {m n : Nat} {code code' : Program} (h : Pushes m code)
    (h' : Pushes n code') : Pushes (m + n) (code ++ code') := by
  obtain ⟨shapes, rfl, hread, heffect⟩ := h
  obtain ⟨shapes', rfl, hread', heffect'⟩ := h'
  refine ⟨shapes' ++ shapes, by rw [List.length_append, Nat.add_comm], ?_, ?_⟩
  · intro shape hshape
    exact (List.mem_append.1 hshape).elim (hread' shape) (hread shape)
  · intro more below
    rw [List.append_assoc, heffect, heffect', List.append_assoc]

/-- A single entry of a known shape. -/
theorem Pushes.one {code : Program} (shape : Shape) (hshape : shape.isReadable)
    (h : ∀ more below, effect (code ++ more) below = effect more (shape :: below)) :
    Pushes 1 code :=
  ⟨[shape], rfl, fun _ hmem => List.mem_singleton.1 hmem ▸ hshape, h⟩

theorem Pushes.eq_one {code : Program} (h : Pushes 1 code) :
    ∃ shape : Shape, shape.isReadable ∧
      ∀ more below, effect (code ++ more) below = effect more (shape :: below) := by
  obtain ⟨shapes, hlength, hread, heffect⟩ := h
  obtain ⟨shape, rfl⟩ := List.length_eq_one_iff.1 hlength
  exact ⟨shape, hread shape (.head _), heffect⟩

theorem pushes_name (name : String) : Pushes 1 [.name name] :=
  .one .name rfl fun _ _ => effect_name ..

theorem pushes_value (v : Value) : Pushes 1 [.value v] :=
  .one .operand rfl fun _ _ => effect_value ..

theorem pushes_takesOne {op : Operator} {code : Program} (h : op.takesOne) (hcode : Pushes 1 code) :
    Pushes 1 (code ++ [Instruction.operator op]) := by
  obtain ⟨shape, hshape, heffect⟩ := hcode.eq_one
  refine .one .operand rfl fun more below => ?_
  rw [List.append_assoc, heffect, List.singleton_append, effect_operator,
    afterOperator_of_takesOne h]
  simp [belowReadable, hshape]

theorem pushes_takesTwo {op : Operator} {left right : Program} (h : op.takesTwo)
    (hleft : Pushes 1 left) (hright : Pushes 1 right) :
    Pushes 1 (left ++ right ++ [Instruction.operator op]) := by
  obtain ⟨shape, hshape, heffect⟩ := hleft.eq_one
  obtain ⟨shape', hshape', heffect'⟩ := hright.eq_one
  refine .one .operand rfl fun more below => ?_
  rw [List.append_assoc, List.append_assoc, heffect, heffect', List.singleton_append,
    effect_operator, afterOperator_of_takesTwo h]
  simp [belowReadable, hshape, hshape']

theorem pushes_assign (name : String) {value : Program} (hvalue : Pushes 1 value) :
    Pushes 1 ([Instruction.name name] ++ value ++ [Instruction.operator .assign]) := by
  obtain ⟨shape, hshape, heffect⟩ := hvalue.eq_one
  refine .one .operand rfl fun more below => ?_
  rw [List.append_assoc, List.append_assoc, List.singleton_append, effect_name, heffect,
    List.singleton_append, effect_operator]
  simp [afterOperator, belowReadable, hshape]

theorem pushes_choice {a b c : Program} (ha : Balanced a) (hb : Balanced b) (hc : Pushes 1 c) :
    Pushes 1 ([Instruction.startBlock] ++ a ++ [Instruction.endBlock, .startBlock] ++ b ++
      [Instruction.endBlock] ++ c ++ [Instruction.operator .question]) := by
  obtain ⟨shape, hshape, heffect⟩ := hc.eq_one
  refine .one .operand rfl fun more below => ?_
  have ha := ha.splitBlock_append
    (.startBlock :: (b ++ .endBlock :: (c ++ .operator .question :: more)))
  have hb := hb.splitBlock_append (c ++ .operator .question :: more)
  simp only [List.append_assoc, List.cons_append, List.nil_append]
  rw [effect_startBlock ha, effect_startBlock hb, heffect, effect_operator]
  simp [afterOperator, belowReadable, hshape]

theorem belowCall_append {shapes rest : List Shape} (h : ∀ shape ∈ shapes, shape.isReadable) :
    belowCall (shapes ++ .openCall :: rest) = some rest := by
  induction shapes with
  | nil => rfl
  | cons shape shapes ih =>
    have hshape := h shape (.head _)
    have ih := ih fun s hs => h s (.tail _ hs)
    cases shape with
    | name | operand => exact ih
    | block | openCall => cases hshape

theorem pushes_call (name : String) (target : Option FunctionId) {count : Nat} {args : Program}
    (hargs : Pushes count args) :
    Pushes 1 ([Instruction.openCall] ++ args ++ [Instruction.call name target]) := by
  obtain ⟨shapes, -, hread, heffect⟩ := hargs
  refine .one .operand rfl fun more below => ?_
  rw [List.append_assoc, List.append_assoc, List.singleton_append, effect_openCall, heffect,
    List.singleton_append, effect_call, belowCall_append hread]
  rfl

theorem pushes_step (name : String) (op : Operator) : Pushes 1 (step name op) := by
  have hstep : ∀ base : Operator, base.takesTwo → Pushes 1
      ([Instruction.name name] ++
        ([Instruction.name name] ++ [Instruction.value (.integer 1)] ++
          [Instruction.operator base]) ++
        [Instruction.operator .assign]) := by
    intro base hbase
    exact pushes_assign name (pushes_takesTwo hbase (pushes_name name) (pushes_value _))
  refine hstep _ ?_
  split <;> rfl

theorem pushes_stepBack (name : String) (op : Operator) : Pushes 1 (step name op ++ undo op) := by
  have hundo : ∀ base : Operator, base.takesTwo → Pushes 1
      (step name op ++ ([Instruction.value (.integer 1)] ++ [Instruction.operator base])) := by
    intro base hbase
    rw [← List.append_assoc]
    exact pushes_takesTwo hbase (pushes_step name op) (pushes_value _)
  refine hundo _ ?_
  split <;> rfl

theorem pushes_flatMap {args : List (Tree × Program)} (h : ∀ arg ∈ args, Pushes 1 arg.2) :
    Pushes args.length (args.flatMap Prod.snd) := by
  induction args with
  | nil => exact .nil
  | cons arg args ih =>
    rw [List.flatMap_cons, List.length_cons, Nat.add_comm]
    exact (h arg (.head _)).append (ih fun a ha => h a (.tail _ ha))

theorem pushes_replicate (count : Nat) (v : Value) :
    Pushes count (List.replicate count (.value v)) := by
  induction count with
  | zero => exact .nil
  | succ count ih =>
    rw [List.replicate_succ, Nat.add_comm]
    exact (pushes_value v).append ih

theorem pushes_omitted {name : String} {f : Function} {count : Nat} {added : Program}
    (h : omitted name f count = .ok added) : Pushes (f.arity - count) added := by
  rw [eq_replicate_of_omitted h]
  exact pushes_replicate _ _

theorem pushes_of_ofToken {token : Token} {code : Program} (h : ofToken token = .ok code) :
    Pushes 1 code := by
  unfold ofToken at h
  split at h <;> cases h
  · exact pushes_name _
  all_goals exact pushes_value _

variable {registry : Registry} {tree : Tree} {code : Program}

/-- The code of a tree in which brackets directly hold no comma list pushes an entry for each
expression of its own list. -/
theorem pushes_of_emits (h : Emits registry tree code) (hplain : tree.isPlain) :
    Pushes tree.elements.length code := by
  induction h with
  | leaf h => exact pushes_of_ofToken h
  | list _ _ hsingle ihl ihr =>
    have hleft := ihl (Tree.isPlain_of_mem hplain (by simp))
    have hright := ihr (Tree.isPlain_of_mem hplain (by simp))
    rw [Tree.elements_of_isList_eq_false hsingle] at hright
    rw [Tree.elements, List.length_append]
    obtain ⟨shapes, hlength, hread, heffect⟩ := hleft.append hright
    refine ⟨shapes, hlength, hread, fun more below => ?_⟩
    rw [List.append_assoc, heffect, List.singleton_append, effect_operator]
    rfl
  | assign _ _ _ hsingle ih =>
    have hvalue := ih (Tree.isPlain_of_mem hplain (by simp))
    rw [Tree.elements_of_isList_eq_false hsingle] at hvalue
    exact pushes_assign _ hvalue
  | @compound token op right name o base value _ _ hbase _ hsingle ih =>
    have hvalue := ih (Tree.isPlain_of_mem hplain (by simp))
    rw [Tree.elements_of_isList_eq_false hsingle] at hvalue
    have htwo := pushes_takesTwo (Operator.takesTwo_of_compoundBase hbase) (pushes_name name) hvalue
    have hassign := pushes_assign name htwo
    simp only [List.append_assoc, List.cons_append, List.nil_append] at hassign ⊢
    exact hassign
  | choice hfirst hsecond _ hsingle _ _ _ ihc =>
    have hcondition := ihc (Tree.isPlain_of_mem hplain (by simp))
    rw [Tree.elements_of_isList_eq_false hsingle] at hcondition
    exact pushes_choice (balanced_of_emits hfirst) (balanced_of_emits hsecond) hcondition
  | stepFirst => exact pushes_step _ _
  | prefixed _ _ hone _ hsingle ih =>
    have hoperand := ih (Tree.isPlain_of_mem hplain (by simp))
    rw [Tree.elements_of_isList_eq_false hsingle] at hoperand
    exact pushes_takesOne hone hoperand
  | stepAfter => exact pushes_stepBack _ _
  | emptyCall _ _ hadded => exact pushes_call _ _ (pushes_omitted hadded)
  | @call token left right name f args added _ _ _ hsingle hadded ih =>
    have hlist : (Tree.node .arguments (args.map Prod.fst)).isPlain :=
      Tree.isPlain_of_mem hplain (by simp)
    have hargs : ∀ arg ∈ args, Pushes 1 arg.2 := by
      intro arg harg
      have hone := ih arg harg (Tree.isPlain_of_mem hlist (List.mem_map_of_mem harg))
      rwa [Tree.elements_of_isList_eq_false (hsingle arg harg)] at hone
    have hcall := pushes_call name (some f.id)
      ((pushes_flatMap hargs).append (pushes_omitted hadded))
    rw [← List.append_assoc] at hcall
    exact hcall
  | @group left right inner code _ ih =>
    obtain ⟨hgroup, hplain⟩ := Tree.isPlain_node.1 hplain
    have hinner := ih (hplain inner (by simp))
    rwa [Tree.elements_of_isList_eq_false (hgroup rfl inner (by simp))] at hinner
  | operation hrule _ htwo _ _ hleftSingle hrightSingle ihl ihr =>
    have hleft := ihl (Tree.isPlain_of_mem hplain (by simp))
    have hright := ihr (Tree.isPlain_of_mem hplain (by simp))
    rw [Tree.elements_of_isList_eq_false hleftSingle] at hleft
    rw [Tree.elements_of_isList_eq_false hrightSingle] at hright
    rw [Tree.elements_of_isList_eq_false (isList_of_isInfix hrule _)]
    exact pushes_takesTwo htwo hleft hright

/-! What code does to the stack of a run. -/

/-- The code leaves as many more entries on any stack, and the entries below as they were; what
follows the code goes on from there. It is never stopped, and ends unless a nested run does not. -/
structure Leaves (count : Nat) (code : Program) : Prop where
  append : ∀ (runner : Runner) (depth : Nat) (below : Stack) (more : Program),
    perform runner depth (code ++ more) below =
      perform runner depth code below >>= perform runner depth more
  yields : ∀ (runner : Runner) (depth : Nat) (below : Stack),
    Yields runner.LacksFuel (perform runner depth code below)
      fun stack => ∃ slots : List Slot, slots.length = count ∧ stack = slots ++ below

theorem holds_nil (below : Stack) : Holds below [] below := ⟨[], rfl, rfl⟩

theorem Pushes.effect_nil {count : Nat} (h : Pushes count code) :
    ∃ shapes : List Shape, shapes.length = count ∧ effect code [] = some shapes := by
  obtain ⟨shapes, hlength, -, heffect⟩ := h
  have heffect := heffect [] []
  rw [List.append_nil, List.append_nil, Machine.effect_nil] at heffect
  exact ⟨shapes, hlength, heffect⟩

theorem Pushes.leaves {count : Nat} (h : Pushes count code) : Leaves count code := by
  obtain ⟨shapes, rfl, heffect⟩ := h.effect_nil
  constructor
  · intro runner depth below more
    exact perform_append code more (holds_nil below) heffect
  · intro runner depth below
    refine (yields_perform id code (holds_nil below) heffect).mono ?_
    rintro _ ⟨slots, rfl, rfl⟩
    exact ⟨slots, (List.length_map _).symm, rfl⟩

def idleRunner : Runner := fun _ _ env journal => some (⟨[], none⟩, env, journal)

/-- The run comes to its end when nested runs do. -/
theorem Leaves.exists_done {count : Nat} (h : Leaves count code) :
    ∃ stack s, perform idleRunner 0 code [] ⟨{}, [], {}⟩ = .done stack s ∧
      stack.length = count := by
  have hidle : ¬ idleRunner.LacksFuel := by
    rintro ⟨depth, program, env, journal, hnone⟩
    cases hnone
  have hyields := h.yields idleRunner 0 [] ⟨{}, [], {}⟩
  cases hrun : perform idleRunner 0 code [] ⟨{}, [], {}⟩ with
  | done stack s =>
    rw [hrun] at hyields
    obtain ⟨slots, hlength, rfl⟩ := hyields
    exact ⟨_, s, rfl, by rw [List.append_nil, hlength]⟩
  | stopped error s =>
    rw [hrun] at hyields
    exact hyields.elim
  | outOfFuel =>
    rw [hrun] at hyields
    exact absurd hyields hidle

theorem Leaves.unique {m n : Nat} (h : Leaves m code) (h' : Leaves n code) : m = n := by
  obtain ⟨stack, s, hdone, rfl⟩ := h.exists_done
  obtain ⟨stack', s', hdone', rfl⟩ := h'.exists_done
  cases hdone.symm.trans hdone'
  rfl

/-- The code of every part of a plain tree pushes an entry for each expression of its list. -/
theorem pushes_of_mem_parts (h : Emits registry tree code) (hplain : tree.isPlain) {part : Tree}
    {code' : Program} (hpart : part ∈ tree.parts) (hcompile : compile registry part = .ok code') :
    Pushes part.elements.length code' :=
  pushes_of_emits (emits_of_mem_parts h hpart hcompile)
    (Tree.isPlain_of_mem_parts tree hplain hpart)

/-- Exactly when no brackets hold a comma list, the code of every expression leaves one entry. -/
theorem isPlain_iff_leaves_one (h : Emits registry tree code) :
    tree.isPlain ↔ ∀ part ∈ tree.parts, part.isList = false →
      ∀ code', compile registry part = .ok code' → Leaves 1 code' := by
  constructor
  · intro hplain part hpart hsingle code' hcompile
    have hpushes := pushes_of_mem_parts h hplain hpart hcompile
    rw [Tree.elements_of_isList_eq_false hsingle] at hpushes
    exact hpushes.leaves
  · intro hleaves
    by_contra hnot
    obtain ⟨left, inner, right, code', hpart, hlist, hplain, hinner⟩ :=
      holdsList_of_emits h (by simpa using hnot)
    have hone := hleaves _ hpart rfl code' (compile_of_emits (.group hinner))
    have hmany := (pushes_of_emits hinner hplain).leaves
    have hcount := hone.unique hmany
    have htwo := two_le_length_elements hinner hlist
    omega

/-- Every instruction that is reached finds the entries it needs. -/
theorem Pushes.isReady {count : Nat} (h : Pushes count code) {runner : Runner} {depth : Nat}
    {below : Stack} {state : State} {c : Config}
    (hreaches : Reaches runner depth ⟨code, below, state⟩ c) : c.IsReady := by
  obtain ⟨shapes, -, heffect⟩ := h.effect_nil
  have hfits : Config.Fits below shapes ⟨code, below, state⟩ := ⟨[], holds_nil below, heffect⟩
  exact isReady_of_fits (fits_reaches hfits hreaches)

/-! The values of a run without failure. -/

theorem held_set_ne (slot : FirstError) (error : Error) : (slot.set error).held ≠ none := by
  intro h
  have hset := FirstError.isSet_set slot error
  rw [FirstError.isSet, h] at hset
  cases hset

theorem held_of_readName {name : String} {v : Option Value} {s s' : State}
    (h : readName name s = .done v s') (hfailure : s'.failure.held = none) :
    s.failure.held = none := by
  simp only [readName, bind_eq, environment] at h
  cases hfind : s.env.scope.find? name with
  | none =>
    rw [hfind] at h
    cases h
    exact absurd hfailure (held_set_ne _ _)
  | some found =>
    obtain ⟨_, storage⟩ := found
    rw [hfind] at h
    cases storage <;> cases h <;> exact hfailure

/-- Reading takes no failure back. -/
theorem held_of_resolve {slot : Slot} {v : Option Value} {s s' : State}
    (h : resolve slot s = .done v s') (hfailure : s'.failure.held = none) :
    s.failure.held = none := by
  cases slot with
  | name name => exact held_of_readName h hfailure
  | value v =>
    cases h
    exact hfailure
  | failed =>
    cases h
    exact hfailure
  | block | openCall =>
    cases h
    exact absurd hfailure (held_set_ne _ _)

/-- When nothing failed, every entry gave a value. -/
theorem length_of_collect {slots : List Slot} {values : List Value} {s s' : State}
    (h : collect slots s = .done values s') (hfailure : s'.failure.held = none) :
    values.length = slots.length ∧ s.failure.held = none := by
  induction slots generalizing s values with
  | nil =>
    cases h
    exact ⟨rfl, hfailure⟩
  | cons slot more ih =>
    rw [collect, bind_eq] at h
    cases hslot : resolve slot s with
    | stopped | outOfFuel => rw [hslot] at h; cases h
    | done v s₁ =>
      rw [hslot] at h
      cases v with
      | none =>
        obtain ⟨-, hheld⟩ := ih h
        exact absurd hheld (held_set_ne _ _)
      | some v =>
        simp only [bind_eq] at h
        cases hmore : collect more s₁ with
        | stopped | outOfFuel => rw [hmore] at h; cases h
        | done vs s₂ =>
          rw [hmore] at h
          cases h
          obtain ⟨hlength, hheld⟩ := ih hmore
          exact ⟨by rw [List.length_cons, List.length_cons, hlength], held_of_resolve hslot hheld⟩

/-- A single entry that is read. -/
theorem resolve_of_collect {slot : Slot} {v : Value} {s s' : State}
    (h : collect [slot] s = .done [v] s') : resolve slot s = .done (some v) s' := by
  rw [collect, bind_eq] at h
  cases hslot : resolve slot s with
  | stopped | outOfFuel => rw [hslot] at h; cases h
  | done w t =>
    rw [hslot] at h
    cases w <;> cases h
    rfl

/-- A run without failure leaves entries on the stack, and reads them. -/
theorem exists_collect_of_runWith {runner : Runner} {depth : Nat} {env env' : Environment}
    {journal journal' : List Event} {values : List Value}
    (h : runWith runner depth code env journal = some (⟨values, none⟩, env', journal')) :
    ∃ stack s s', perform runner depth code [] ⟨env, journal, FirstError.none⟩ = .done stack s ∧
      collect stack.reverse s = .done values s' ∧ s'.failure.held = none ∧ s'.env = env' := by
  simp only [runWith, bind_eq] at h
  cases hperform : perform runner depth code [] ⟨env, journal, FirstError.none⟩ with
  | outOfFuel | stopped => simp [hperform] at h
  | done stack s =>
    rw [hperform] at h
    cases hcollect : collect stack.reverse s with
    | outOfFuel | stopped => simp [hcollect] at h
    | done values' s' =>
      simp only [hcollect, Option.some.injEq, Prod.mk.injEq, Execution.mk.injEq] at h
      obtain ⟨⟨rfl, hfailure⟩, rfl, -⟩ := h
      exact ⟨stack, s, s', rfl, hcollect, hfailure, rfl⟩

theorem Leaves.length_values {count : Nat} (h : Leaves count code) {runner : Runner} {depth : Nat}
    {env env' : Environment} {journal journal' : List Event} {execution : Execution}
    (hrun : runWith runner depth code env journal = some (execution, env', journal'))
    (hfailure : execution.failure = none) : execution.values.length = count := by
  obtain ⟨values, failure⟩ := execution
  cases hfailure
  obtain ⟨stack, s, s', hperform, hcollect, hheld, -⟩ := exists_collect_of_runWith hrun
  have hyields := h.yields runner depth [] ⟨env, journal, FirstError.none⟩
  rw [hperform] at hyields
  obtain ⟨slots, rfl, rfl⟩ := hyields
  have hlength := (length_of_collect hcollect hheld).1
  simpa using hlength

theorem Leaves.length_executeAll {count : Nat} (h : Leaves count code) {fuel : Nat}
    {host after : Session} {values : List Value}
    (hrun : host.executeAll fuel code = some (.ok values, after)) : values.length = count := by
  cases fuel with
  | zero => cases hrun
  | succ fuel =>
    simp only [Session.executeAll, Session.execution, Option.map_map] at hrun
    obtain ⟨⟨execution, env, journal⟩, hrun, hvalues⟩ := Option.map_eq_some_iff.1 hrun
    have hlength := h.length_values hrun
    obtain ⟨values', failure⟩ := execution
    cases failure with
    | none =>
      cases hvalues
      exact hlength rfl
    | some error => cases hvalues

/-- The stack discipline of a text that compiles. The code of every expression leaves one entry
exactly when no brackets directly hold a comma list. Then, in the code of every part of the text,
the branches of its choices among them, each instruction that a run reaches finds what it needs, and
a run of the whole that succeeds gives a value for each expression of the text. -/
theorem stack_discipline {text : String} {tokens : List Token} {tree : Tree} {s : Session}
    {program : Program} (htokens : Token.tokenize text = .ok tokens)
    (hparse : Tree.parse tokens = .ok tree)
    (hcompile : compile s.env.registry tree = .ok program) :
    (tree.isPlain ↔ ∀ part ∈ tree.parts, part.isList = false →
      ∀ code, compile s.env.registry part = .ok code → Leaves 1 code) ∧
    (tree.isPlain →
      (∀ part ∈ tree.parts, ∀ code, compile s.env.registry part = .ok code →
        Leaves part.elements.length code ∧
        ∀ (runner : Runner) (depth : Nat) (below : Stack) (state : State) (c : Config),
          Reaches runner depth ⟨code, below, state⟩ c → c.IsReady) ∧
      (∀ (fuel : Nat) (host after : Session) (values : List Value),
        host.executeAll fuel program = some (.ok values, after) →
        values.length = tree.elements.length) ∧
      ∀ (fuel : Nat) (after : Session) (values : List Value),
        s.evaluateAll fuel text = some (.ok values, after) →
        values.length = tree.elements.length) := by
  have hemits := emits_of_parse hparse hcompile
  refine ⟨isPlain_iff_leaves_one hemits, fun hplain => ?_⟩
  have hleaves := (pushes_of_emits hemits hplain).leaves
  refine ⟨?_, ?_, ?_⟩
  · intro part hpart code hcode
    have hpushes := pushes_of_mem_parts hemits hplain hpart hcode
    refine ⟨hpushes.leaves, ?_⟩
    intro runner depth below state c hreaches
    exact hpushes.isReady hreaches
  · intro fuel host after values hrun
    exact hleaves.length_executeAll hrun
  · intro fuel after values hrun
    simp only [Session.evaluateAll, Session.compileText, htokens, hparse, hcompile,
      Session.reporting] at hrun
    exact hleaves.length_executeAll hrun

/-- An operator next to brackets takes the last entry of their list, and leaves the others. -/
example : (Session.empty.evaluateAll 1 "(1, 2) + 3").map Prod.fst =
    some (.ok [.integer 1, .integer 5]) := by cbv

/-- Two expressions leave two entries, whatever state they run in. -/
theorem leaves_two_of_pair :
    Leaves 2 [.name "x", .value (.integer 1), .operator .assign,
      .name "x", .value (.integer 2), .operator .plus, .operator .comma] := by
  have htokens : Token.tokenize "x = 1, x + 2" =
      .ok [⟨.name "x", 0⟩, ⟨.operator .assign, 2⟩, ⟨.integer 1, 4⟩, ⟨.operator .comma, 5⟩,
        ⟨.name "x", 7⟩, ⟨.operator .plus, 9⟩, ⟨.integer 2, 11⟩] := by cbv
  have hparse : Tree.parse
      [⟨.name "x", 0⟩, ⟨.operator .assign, 2⟩, ⟨.integer 1, 4⟩, ⟨.operator .comma, 5⟩,
        ⟨.name "x", 7⟩, ⟨.operator .plus, 9⟩, ⟨.integer 2, 11⟩] =
      .ok (.node .list
        [.node .assignment
          [.leaf ⟨.name "x", 0⟩, .leaf ⟨.operator .assign, 2⟩, .leaf ⟨.integer 1, 4⟩],
         .leaf ⟨.operator .comma, 5⟩,
         .node .additive
          [.leaf ⟨.name "x", 7⟩, .leaf ⟨.operator .plus, 9⟩, .leaf ⟨.integer 2, 11⟩]]) := by cbv
  have hcompile : compile Session.empty.env.registry (.node .list
        [.node .assignment
          [.leaf ⟨.name "x", 0⟩, .leaf ⟨.operator .assign, 2⟩, .leaf ⟨.integer 1, 4⟩],
         .leaf ⟨.operator .comma, 5⟩,
         .node .additive
          [.leaf ⟨.name "x", 7⟩, .leaf ⟨.operator .plus, 9⟩, .leaf ⟨.integer 2, 11⟩]]) =
      .ok [.name "x", .value (.integer 1), .operator .assign,
        .name "x", .value (.integer 2), .operator .plus, .operator .comma] := by cbv
  have hparts := ((stack_discipline htokens hparse hcompile).2 rfl).1
  exact (hparts _ (Tree.mem_parts_self _) _ hcompile).1

end Reckoner.Machine
