import Mathlib
import Reckoner.Proofs.Machine.Invariants
import Reckoner.Proofs.Value.Present

/-!
What functions of the host are shown. Only a call notes an invocation, and only when its function is
registered, all its arguments were read and converted, and the check of the function has passed. So
the signature of the function holds of whatever arguments it is invoked with, in every run of every
program.
-/

namespace Reckoner

def Machine.Event.isAccess : Event → Bool
  | read _ | wrote _ _ => true
  | _ => false

namespace Machine

def OnlyAccesses (before after : List Event) : Prop :=
  ∃ events : List Event, (∀ event ∈ events, event.isAccess) ∧ after = events ++ before

namespace OnlyAccesses

variable {before middle after : List Event}

theorem refl (journal : List Event) : OnlyAccesses journal journal := ⟨[], nofun, rfl⟩

theorem single {event : Event} (h : event.isAccess) (journal : List Event) :
    OnlyAccesses journal (event :: journal) := ⟨[event], List.forall_mem_singleton.2 h, rfl⟩

theorem trans (h : OnlyAccesses before middle) (h' : OnlyAccesses middle after) :
    OnlyAccesses before after := by
  obtain ⟨events, haccess, rfl⟩ := h
  obtain ⟨events', haccess', rfl⟩ := h'
  refine ⟨events' ++ events, fun event hmem => ?_, (List.append_assoc ..).symm⟩
  exact (List.mem_append.1 hmem).elim (haccess' event) (haccess event)

/-- What is no access was noted before. -/
theorem mem (h : OnlyAccesses before after) {event : Event} (hmem : event ∈ after)
    (hother : event.isAccess = false) : event ∈ before := by
  obtain ⟨events, haccess, rfl⟩ := h
  rcases List.mem_append.1 hmem with hmem | hmem
  · rw [haccess event hmem] at hother
    cases hother
  · exact hmem

end OnlyAccesses

def IsQuiet {α : Type} (m : Machine α) : Prop :=
  ∀ s,
    match m s with
    | .done _ s' => OnlyAccesses s.journal s'.journal
    | .stopped _ s' => OnlyAccesses s.journal s'.journal
    | .outOfFuel => True

section Quiet

variable {α β : Type} {m : Machine α} {f : α → Machine β}

theorem quiet_pure (a : α) : IsQuiet (pure a : Machine α) := fun _ => .refl _

theorem IsQuiet.bind (hm : IsQuiet m) (hf : ∀ a, IsQuiet (f a)) : IsQuiet (m >>= f) := by
  intro s
  have hms := hm s
  rw [bind_eq]
  cases hs : m s with
  | done a s₁ =>
    rw [hs] at hms
    have hfs := hf a s₁
    dsimp only
    cases hs' : f a s₁ with
    | done b s₂ =>
      rw [hs'] at hfs
      exact hms.trans hfs
    | stopped e s₂ =>
      rw [hs'] at hfs
      exact hms.trans hfs
    | outOfFuel => trivial
  | stopped e s₁ =>
    rw [hs] at hms
    exact hms
  | outOfFuel => trivial

theorem quiet_environment : IsQuiet environment := fun _ => .refl _

theorem quiet_setEnvironment (env : Environment) : IsQuiet (setEnvironment env) := fun _ => .refl _

theorem quiet_note {event : Event} (h : event.isAccess) : IsQuiet (note event) :=
  fun _ => .single h _

theorem quiet_report (e : Error) : IsQuiet (report e) := fun _ => .refl _

theorem quiet_stop (e : Error) : IsQuiet (stop e : Machine α) := fun _ => .refl _

theorem quiet_fail (e : Error) : IsQuiet (fail e) := (quiet_report e).bind fun _ => quiet_pure _

theorem quiet_slotOf (r : Except Error Value) : IsQuiet (slotOf r) := by
  cases r with
  | ok v => exact quiet_pure _
  | error e => exact quiet_fail e

theorem quiet_readName (name : String) : IsQuiet (readName name) := by
  refine quiet_environment.bind fun env => ?_
  split
  · exact (quiet_report _).bind fun _ => quiet_pure _
  · split
    · exact (quiet_note rfl).bind fun _ => quiet_pure _
    · exact quiet_pure _

theorem quiet_resolve (slot : Slot) : IsQuiet (resolve slot) := by
  cases slot with
  | name name => exact quiet_readName name
  | value | failed => exact quiet_pure _
  | block | openCall => exact (quiet_report _).bind fun _ => quiet_pure _

theorem quiet_popValue (stack : Stack) : IsQuiet (popValue stack) := by
  cases stack with
  | nil => exact (quiet_report _).bind fun _ => quiet_pure _
  | cons slot rest => exact (quiet_resolve slot).bind fun _ => quiet_pure _

theorem quiet_unary (op : Operator) (stack : Stack) : IsQuiet (unary op stack) := by
  refine (quiet_popValue stack).bind fun popped => ?_
  obtain ⟨v, rest⟩ := popped
  cases v with
  | none => exact quiet_pure _
  | some v => exact (quiet_slotOf _).bind fun _ => quiet_pure _

theorem quiet_binary (op : Operator) (stack : Stack) : IsQuiet (binary op stack) := by
  refine (quiet_popValue stack).bind fun popped => ?_
  refine (quiet_popValue popped.2).bind fun popped' => ?_
  dsimp only
  split
  · exact (quiet_slotOf _).bind fun _ => quiet_pure _
  · exact quiet_pure _

theorem quiet_writeName (name : String) (v : Value) : IsQuiet (writeName name v) := by
  refine quiet_environment.bind fun env => ?_
  split
  · exact quiet_fail _
  · dsimp only
    split
    · exact (quiet_note rfl).bind fun _ => (quiet_setEnvironment _).bind fun _ => quiet_pure _
    · exact (quiet_setEnvironment _).bind fun _ => quiet_pure _

theorem quiet_assign (stack : Stack) : IsQuiet (assign stack) := by
  refine (quiet_popValue stack).bind fun popped => ?_
  obtain ⟨v, rest⟩ := popped
  dsimp only
  split
  · cases v with
    | none => exact quiet_pure _
    | some v => exact (quiet_writeName _ v).bind fun _ => quiet_pure _
  · exact quiet_pure _
  · exact (quiet_fail _).bind fun _ => quiet_pure _

theorem quiet_readArguments (f : Function) (index : Nat) (slots : List Slot) :
    IsQuiet (readArguments f index slots) := by
  induction slots generalizing index with
  | nil => exact quiet_pure _
  | cons slot more ih =>
    have hmore : ∀ argument : Option Value, IsQuiet (do
        let others ← readArguments f (index + 1) more
        return argument.bind fun v => others.map (v :: ·)) :=
      fun _ => (ih _).bind fun _ => quiet_pure _
    refine (quiet_resolve slot).bind fun v => ?_
    cases v with
    | none => exact hmore none
    | some v =>
      dsimp only
      split
      · exact hmore (some _)
      · exact (quiet_report _).bind fun _ => hmore none

theorem quiet_collect (slots : List Slot) : IsQuiet (collect slots) := by
  induction slots with
  | nil => exact quiet_pure _
  | cons slot more ih =>
    refine (quiet_resolve slot).bind fun v => ?_
    cases v with
    | none => exact (quiet_report _).bind fun _ => ih
    | some v => exact ih.bind fun _ => quiet_pure _

theorem quiet_operatorTurn (op : Operator) (stack : Stack) : IsQuiet (operatorTurn op stack) := by
  by_cases hone : op.takesOne
  · rw [operatorTurn_of_takesOne hone]
    exact (quiet_unary op stack).bind fun _ => quiet_pure _
  · by_cases htwo : op.takesTwo
    · rw [operatorTurn_of_takesTwo htwo]
      exact (quiet_binary op stack).bind fun _ => quiet_pure _
    · cases op with
      | comma => exact quiet_pure _
      | assign => exact (quiet_assign stack).bind fun _ => quiet_pure _
      | question =>
        refine (quiet_popValue stack).bind fun popped => ?_
        dsimp only
        split
        · exact quiet_pure _
        · exact quiet_stop _
      | _ => first | exact absurd rfl hone | exact absurd rfl htwo | exact quiet_stop _

end Quiet

/-! The one step that invokes something. -/

/-- What a call needs in order to invoke a function of the host with these arguments. -/
structure IsInvocation (env : Environment) (target : Option FunctionId) (slots : List Slot)
    (f : Function) (args : List Value) : Prop where
  registered : target.bind env.registry.find? = some f
  native : f.isFormula = false
  read : lookArguments env f 0 slots = .ok args
  valid : f.validate args = .ok ()

variable {s : State} {stack below : Stack} {target : Option FunctionId} {slots : List Slot}
  {f : Function} {args : List Value}

/-- The invocation is noted on top of what the arguments were read from. -/
theorem callTurn_of_isInvocation (name : String) (hsplit : splitCall [] stack = some (slots, below))
    (hreported : IsReported stack s.failure) (h : IsInvocation s.env target slots f args) :
    ∃ half s' before, callTurn name target stack s = .done half s' ∧
      OnlyAccesses s.journal before ∧ s'.journal = .invoked f.id args :: before := by
  have hslots : IsReported slots s.failure := by
    obtain ⟨taken, rfl, rfl⟩ := eq_append_of_splitCall hsplit
    exact hreported.subset fun slot hslot => by simp_all
  obtain ⟨journal, hread⟩ := reads_readArguments f 0 hslots
  have hquiet := quiet_readArguments f 0 slots s
  rw [h.read] at hread
  rw [hread] at hquiet
  have hnative := h.native
  simp only [callTurn, hsplit, bind_eq environment, environment, h.registered,
    bind_eq (readArguments f 0 slots), hread, Except.toOption, applyTurn, h.valid]
  cases hbody : f.body with
  | formula parameters text =>
    simp only [Function.isFormula, hbody] at hnative
    cases hnative
  | native | object =>
    simp only [bind_eq, note, slotOf_eq, pure_eq]
    exact ⟨_, _, journal, rfl, hquiet, rfl⟩

/-- Without an invocation only accesses are noted. -/
theorem quiet_callTurn (name : String)
    (h : ∀ slots below f args, splitCall [] stack = some (slots, below) →
      ¬ IsInvocation s.env target slots f args) (hreported : IsReported stack s.failure) :
    match callTurn name target stack s with
    | .done _ s' => OnlyAccesses s.journal s'.journal
    | .stopped _ s' => OnlyAccesses s.journal s'.journal
    | .outOfFuel => True := by
  unfold callTurn
  cases hsplit : splitCall [] stack with
  | none => exact .refl _
  | some parts =>
    obtain ⟨slots, below⟩ := parts
    have hslots : IsReported slots s.failure := by
      obtain ⟨taken, rfl, rfl⟩ := eq_append_of_splitCall hsplit
      exact hreported.subset fun slot hslot => by simp_all
    simp only [bind_eq environment, environment]
    cases hfind : target.bind s.env.registry.find? with
    | none => exact .refl _
    | some f =>
      obtain ⟨journal, hread⟩ := reads_readArguments f 0 hslots
      have hquiet := quiet_readArguments f 0 slots s
      rw [hread] at hquiet
      simp only [bind_eq (readArguments f 0 slots), hread]
      cases hargs : lookArguments s.env f 0 slots with
      | error e => exact hquiet
      | ok args =>
        simp only [Except.toOption, applyTurn]
        cases hvalid : f.validate args with
        | error e => exact hquiet
        | ok _ =>
          cases hbody : f.body with
          | formula parameters text => exact hquiet
          | native | object =>
            have hnative : f.isFormula = false := by rw [Function.isFormula, hbody]
            exact absurd ⟨hfind, hnative, hargs, hvalid⟩ (h slots below f args hsplit)

def Config.Invokes (c : Config) (id : FunctionId) (args : List Value) : Prop :=
  ∃ half s events, c.next? = some (.done half s) ∧ s.journal = events ++ c.state.journal ∧
    .invoked id args ∈ events

inductive Config.Invoking (c : Config) (f : Function) (args : List Value) : Prop where
  | intro {name : String} {target : Option FunctionId} {more : Program} {slots : List Slot}
      {below : Stack} (hprogram : c.program = .call name target :: more)
      (hsplit : splitCall [] c.stack = some (slots, below))
      (hinvocation : IsInvocation c.state.env target slots f args)

variable {c : Config}

/-- What the first half of an instruction notes. -/
theorem journal_of_next? {half : Turn × Program} {s : State} (hsound : c.IsSound)
    (hnext : c.next? = some (.done half s)) :
    (∃ f args before, c.Invoking f args ∧ OnlyAccesses c.state.journal before ∧
        s.journal = .invoked f.id args :: before) ∨
      (∀ f args, ¬ c.Invoking f args) ∧ OnlyAccesses c.state.journal s.journal := by
  obtain ⟨program, stack, state⟩ := c
  cases program with
  | nil => cases hnext
  | cons instruction more =>
    have hturn := Option.some.inj hnext
    -- Only a call can invoke something.
    have hquiet (hother : ∀ name target, instruction ≠ .call name target)
        (h : IsQuiet (turn instruction more stack)) :
        (∀ f args, ¬ Config.Invoking ⟨instruction :: more, stack, state⟩ f args) ∧
          OnlyAccesses state.journal s.journal := by
      have hstate := h state
      rw [hturn] at hstate
      refine ⟨?_, hstate⟩
      rintro f args ⟨hprogram, -, -⟩
      exact hother _ _ (List.cons.inj hprogram).1
    cases instruction with
    | name | value | openCall => exact .inr (hquiet (by simp) (quiet_pure _))
    | startBlock =>
      refine .inr (hquiet (by simp) ?_)
      rw [turn]
      split
      · exact quiet_stop _
      · exact quiet_pure _
    | endBlock => exact .inr (hquiet (by simp) (quiet_stop _))
    | operator op =>
      exact .inr (hquiet (by simp) ((quiet_operatorTurn op stack).bind fun _ => quiet_pure _))
    | call name target =>
      obtain ⟨after, s', hcall, hpure⟩ := bind_eq_done.1 hturn
      cases hpure
      by_cases h : ∃ slots below f args, splitCall [] stack = some (slots, below) ∧
          IsInvocation state.env target slots f args
      · obtain ⟨slots, below, f, args, hsplit, hinvocation⟩ := h
        obtain ⟨_, _, before, hdone, haccesses, hjournal⟩ :=
          callTurn_of_isInvocation name hsplit hsound hinvocation
        cases hcall.symm.trans hdone
        exact .inl ⟨f, args, before, ⟨rfl, hsplit, hinvocation⟩, haccesses, hjournal⟩
      · have hnone : ∀ slots below f args, splitCall [] stack = some (slots, below) →
            ¬ IsInvocation state.env target slots f args :=
          fun slots below f args hsplit hinvocation =>
            h ⟨slots, below, f, args, hsplit, hinvocation⟩
        have hstate := quiet_callTurn name hnone hsound
        rw [hcall] at hstate
        refine .inr ⟨?_, hstate⟩
        rintro f args ⟨hprogram, hsplit, hinvocation⟩
        cases hprogram
        exact hnone _ _ f args hsplit hinvocation

theorem journal_of_stopped {e : Error} {s : State} (hsound : c.IsSound)
    (hnext : c.next? = some (.stopped e s)) : OnlyAccesses c.state.journal s.journal := by
  obtain ⟨program, stack, state⟩ := c
  cases program with
  | nil => cases hnext
  | cons instruction more =>
    have hturn := Option.some.inj hnext
    have hquiet (h : IsQuiet (turn instruction more stack)) :
        OnlyAccesses state.journal s.journal := by
      have hstate := h state
      rwa [hturn] at hstate
    cases instruction with
    | name | value | openCall => exact hquiet (quiet_pure _)
    | startBlock =>
      refine hquiet ?_
      rw [turn]
      split
      · exact quiet_stop _
      · exact quiet_pure _
    | endBlock => exact hquiet (quiet_stop _)
    | operator op => exact hquiet ((quiet_operatorTurn op stack).bind fun _ => quiet_pure _)
    | call name target =>
      cases hsplit : splitCall [] stack with
      | none =>
        rw [turn, callTurn, hsplit] at hturn
        cases hturn
        exact .refl _
      | some parts =>
        obtain ⟨slots, below⟩ := parts
        obtain ⟨journal, hcall⟩ := reads_callTurn name target hsplit hsound
        rw [turn, bind_eq, hcall] at hturn
        cases hturn

/-- An invocation is noted exactly by a call that has all it needs. -/
theorem invokes_iff (hsound : c.IsSound) {id : FunctionId} {args : List Value} :
    c.Invokes id args ↔ ∃ f, f.id = id ∧ c.Invoking f args := by
  constructor
  · rintro ⟨half, s, events, hnext, hjournal, hmem⟩
    rcases journal_of_next? hsound hnext with ⟨f, args', before, hinvoking, haccesses, hnoted⟩ |
      ⟨-, haccesses⟩
    · obtain ⟨accesses, haccess, rfl⟩ := haccesses
      rw [hjournal, ← List.cons_append] at hnoted
      rw [List.append_cancel_right hnoted] at hmem
      rcases List.mem_cons.1 hmem with heq | hmem
      · cases heq
        exact ⟨f, rfl, hinvoking⟩
      · exact absurd (haccess _ hmem) (by simp [Event.isAccess])
    · obtain ⟨accesses, haccess, hnoted⟩ := haccesses
      rw [hjournal] at hnoted
      rw [List.append_cancel_right hnoted] at hmem
      exact absurd (haccess _ hmem) (by simp [Event.isAccess])
  · rintro ⟨f, rfl, @⟨name, target, more, slots, below, hprogram, hsplit, hinvocation⟩⟩
    obtain ⟨half, s, before, hcall, ⟨accesses, -, rfl⟩, hjournal⟩ :=
      callTurn_of_isInvocation name hsplit hsound hinvocation
    refine ⟨(half, more), s, .invoked f.id args :: accesses, ?_, hjournal, .head _⟩
    rw [Config.next?, hprogram]
    exact congrArg some (bind_eq_done.2 ⟨half, s, hcall, rfl⟩)

namespace Launch

variable {l : Launch}

def Invokes (l : Launch) (id : FunctionId) (args : List Value) : Prop :=
  ∃ l' c, l.Makes l' ∧ l'.Visits c ∧ c.Invokes id args

def IsTraced (l : Launch) (journal : List Event) : Prop :=
  ∀ id args, .invoked id args ∈ journal → .invoked id args ∈ l.journal ∨ l.Invokes id args

theorem IsTraced.mono {journal journal' : List Event} (h : l.IsTraced journal)
    (hsub : ∀ id args, .invoked id args ∈ journal' → .invoked id args ∈ journal) :
    l.IsTraced journal' := fun id args hmem => h id args (hsub id args hmem)

theorem isTraced_of_next? (hvisits : l.Visits c) (hc : l.IsTraced c.state.journal)
    {half : Turn × Program} {s : State} (hnext : c.next? = some (.done half s)) :
    l.IsTraced s.journal := by
  have hsound := isSound_of_visits hvisits
  rcases journal_of_next? hsound hnext with ⟨f, args, before, hinvoking, haccesses, hnoted⟩ |
    ⟨-, haccesses⟩
  · intro id args' hmem
    rw [hnoted] at hmem
    rcases List.mem_cons.1 hmem with heq | hmem
    · cases heq
      exact .inr ⟨l, c, .refl, hvisits, (invokes_iff hsound).2 ⟨f, rfl, hinvoking⟩⟩
    · exact hc id args' (haccesses.mem hmem rfl)
  · exact hc.mono fun _ _ hmem => haccesses.mem hmem rfl

theorem isTraced_of_ends {execution : Execution} {env : Environment} {journal : List Event}
    (hvisits : l.Visits c) (hc : l.IsTraced c.state.journal)
    (hends : Ends c execution env journal) : l.IsTraced journal := by
  cases hends with
  | collected _ hcollect =>
    have hquiet := quiet_collect c.stack.reverse c.state
    rw [hcollect] at hquiet
    exact hc.mono fun _ _ hmem => hquiet.mem hmem rfl
  | stopped hnext =>
    have haccesses := journal_of_stopped (isSound_of_visits hvisits) hnext
    exact hc.mono fun _ _ hmem => haccesses.mem hmem rfl

theorem isInvariant_isTraced :
    IsInvariant (fun _ => True) fun l c => l.IsTraced c.state.journal where
  start _ _ _ hmem := .inl hmem
  ended _ hvisits hc hnext := isTraced_of_next? hvisits hc hnext
  nests _ _ _ _ _ _ := trivial
  refused _ hvisits hc hnext _ := by
    have hbefore := isTraced_of_next? hvisits hc hnext
    exact hbefore
  returned {l c last inner below rest program s fuel execution env journal} _ hvisits hc hnext
      hprogram hfuel hvisits' hlast hends := by
    have hbefore := isTraced_of_next? hvisits hc hnext
    have hinner := isTraced_of_ends hvisits' hlast hends
    intro id args hmem
    have hjournal : .invoked id args ∈ journal := by
      cases inner with
      | branch body => exact hmem
      | formula => simpa [Inner.closing] using hmem
    rcases hinner id args hjournal with hopening | ⟨l', c', hmakes, hvisits', hinvokes⟩
    · refine hbefore id args ?_
      cases inner with
      | branch body => exact hopening
      | formula => simpa [Inner.launch, Inner.opening] using hopening
    · exact .inr ⟨l', c', .head ⟨hvisits, hnext, hprogram, hfuel⟩ hmakes, hvisits', hinvokes⟩

/-- The journal of a run tells of no invocation that was not made. -/
theorem isTraced_of_result {execution : Execution} {env : Environment} {journal : List Event}
    (h : l.result = some (execution, env, journal)) : l.IsTraced journal := by
  obtain ⟨c, hvisits, hends⟩ := result_iff.1 h
  exact isTraced_of_ends hvisits (isInvariant_isTraced.visits trivial hvisits) hends

end Launch

/-! What the arguments are like. -/

/-- A converted argument is of an accepted kind, and being absent is a kind. -/
theorem meets_of_convertArgument {v arg : Value} {kinds : Kinds}
    (h : convertArgument v kinds = some arg) : kinds.meets arg.kind := by
  unfold convertArgument at h
  split at h
  · next habsent =>
    cases h
    obtain ⟨hnull, habsent⟩ := Bool.and_eq_true_iff.1 habsent
    cases v with
    | null => exact Value.meets_null.2 habsent
    | boolean | integer | real | string => cases hnull
  · exact Value.meets_of_convert h

/-- What is accepted already is passed on as it is. -/
theorem convertArgument_of_meets {v : Value} {kinds : Kinds} (h : kinds.meets v.kind) :
    convertArgument v kinds = some v := by
  unfold convertArgument
  split
  · rfl
  · rw [Value.convert, if_pos h]

/-- Each argument is read from its entry and converted for its position. -/
theorem convert_of_lookArguments {env : Environment} {f : Function} {index : Nat}
    {slots : List Slot} {args : List Value} (h : lookArguments env f index slots = .ok args) :
    args.length = slots.length ∧ ∀ i slot, slots[i]? = some slot →
      ∃ v arg, slot.look env = .ok v ∧ args[i]? = some arg ∧
        convertArgument v (f.signature.kindsAt (index + i)) = some arg := by
  induction slots generalizing index args with
  | nil =>
    cases h
    exact ⟨rfl, fun i slot hslot => by simp at hslot⟩
  | cons first more ih =>
    obtain ⟨v, hv, h⟩ := Program.bind_eq_ok.1 h
    cases hconvert : convertArgument v (f.signature.kindsAt index) with
    | none =>
      rw [hconvert] at h
      cases h
    | some arg =>
      rw [hconvert] at h
      obtain ⟨others, hothers, h⟩ := Program.bind_eq_ok.1 h
      cases h
      obtain ⟨hlength, hmore⟩ := ih hothers
      refine ⟨by rw [List.length_cons, List.length_cons, hlength], fun i slot hslot => ?_⟩
      cases i with
      | zero =>
        cases hslot
        exact ⟨v, arg, hv, rfl, hconvert⟩
      | succ i =>
        obtain ⟨v', arg', hlook, harg, hconvert'⟩ := hmore i slot hslot
        refine ⟨v', arg', hlook, harg, ?_⟩
        rw [← hconvert', Nat.add_right_comm, Nat.add_assoc]

/-- Each argument comes from the entry at its place. -/
theorem exists_slot_of_lookArguments {env : Environment} {f : Function} {slots : List Slot}
    {args : List Value} (h : lookArguments env f 0 slots = .ok args) {i : Nat} {arg : Value}
    (harg : args[i]? = some arg) :
    ∃ slot v, slots[i]? = some slot ∧ slot.look env = .ok v ∧
      convertArgument v (f.signature.kindsAt i) = some arg := by
  obtain ⟨hlength, hread⟩ := convert_of_lookArguments h
  have hlt : i < slots.length := hlength ▸ (List.getElem?_eq_some_iff.1 harg).1
  obtain ⟨v, arg', hlook, harg', hconvert⟩ := hread i _ (List.getElem?_eq_getElem hlt)
  cases harg.symm.trans harg'
  rw [Nat.zero_add] at hconvert
  exact ⟨_, v, List.getElem?_eq_getElem hlt, hlook, hconvert⟩

/-- The arguments are what the function declares. Every entry had a value that could be converted
for its position, and a value of an accepted kind was not changed. -/
structure IsTyped (env : Environment) (f : Function) (slots : List Slot) (args : List Value) :
    Prop where
  length : args.length = slots.length
  read : ∀ i slot, slots[i]? = some slot → ∃ v arg, slot.look env = .ok v ∧ args[i]? = some arg ∧
    convertArgument v (f.signature.kindsAt i) = some arg ∧
    ((f.signature.kindsAt i).meets v.kind → arg = v)
  accepted : ∀ i arg, args[i]? = some arg →
    arg ≠ .null ∧ (f.signature.kindsAt i).meets arg.kind ∨
      arg = .null ∧ (f.signature.kindsAt i).absent
  validated : ∀ object, f.body = .object object → object.validate args = .ok ()

theorem isTyped_of_isInvocation {env : Environment} (h : IsInvocation env target slots f args) :
    IsTyped env f slots args := by
  obtain ⟨hlength, hread⟩ := convert_of_lookArguments h.read
  simp only [Nat.zero_add] at hread
  refine ⟨hlength, fun i slot hslot => ?_, fun i arg harg => ?_, fun object hobject => ?_⟩
  · obtain ⟨v, arg, hlook, harg, hconvert⟩ := hread i slot hslot
    refine ⟨v, arg, hlook, harg, hconvert, fun hmeets => ?_⟩
    rw [convertArgument_of_meets hmeets] at hconvert
    exact (Option.some.inj hconvert).symm
  · obtain ⟨_, _, -, -, hconvert⟩ := exists_slot_of_lookArguments h.read harg
    have hmeets := meets_of_convertArgument hconvert
    by_cases hnull : arg = .null
    · subst hnull
      exact .inr ⟨rfl, Value.meets_null.1 hmeets⟩
    · exact .inl ⟨hnull, hmeets⟩
  · have hvalid := h.valid
    unfold Function.validate at hvalid
    split at hvalid
    · cases hvalid
    · rw [hobject] at hvalid
      exact hvalid

/-- Functions of the host only see arguments that they declare. In any run, at any level, of any
program in any environment, an invocation is made by a call of a registered function, whose entries
all had values that could be converted, and the check of an object has passed on the very arguments
that are shown. The journal of the run tells of no other invocations. -/
theorem isTyped_of_invokes (l : Launch) :
    (∀ l' c, l.Makes l' → l'.Visits c → ∀ id args, c.Invokes id args →
      ∃ name more slots below f, c.program = .call name (some id) :: more ∧
        splitCall [] c.stack = some (slots, below) ∧ c.state.env.registry.find? id = some f ∧
        f.id = id ∧ f.isFormula = false ∧ IsTyped c.state.env f slots args) ∧
      ∀ execution env journal, l.result = some (execution, env, journal) →
        ∀ id args, .invoked id args ∈ journal →
          .invoked id args ∈ l.journal ∨
            ∃ l' c, l.Makes l' ∧ l'.Visits c ∧ c.Invokes id args := by
  refine ⟨fun l' c _ hvisits id args hinvokes => ?_, fun _ _ _ hresult => ?_⟩
  · obtain ⟨f, rfl, @⟨name, target, more, slots, below, hprogram, hsplit, hinvocation⟩⟩ :=
      (invokes_iff (Launch.isSound_of_visits hvisits)).1 hinvokes
    obtain ⟨id, rfl, hfind⟩ := Option.bind_eq_some_iff.1 hinvocation.registered
    have hid : f.id = id := by simpa using List.find?_some hfind
    subst hid
    exact ⟨name, more, slots, below, f, hprogram, hsplit, hfind, rfl, hinvocation.native,
      isTyped_of_isInvocation hinvocation⟩
  · exact Launch.isTraced_of_result hresult

def counter : Function :=
  ⟨⟨0⟩, "f", .native fun _ args => .ok (.integer (Int64.ofNat args.length)),
    ⟨[{ integer := true }, { integer := true, absent := true }], false⟩, false, none⟩

/-- A string is shown as the integer that it spells, and an argument that was left out is absent. -/
theorem isTyped_of_counter :
    ∃ (l : Launch) (c : Config), l.Visits c ∧ c.Invokes ⟨0⟩ [.integer 2, .null] ∧
      ∃ f, c.state.env.registry.find? ⟨0⟩ = some f ∧
        IsTyped c.state.env f [.value (.string "2"), .value .null] [.integer 2, .null] := by
  let env : Environment := { registry := ⟨[counter], 1⟩ }
  let program : Program := [.openCall, .value (.string "2"), .value .null, .call "f" (some ⟨0⟩)]
  let l : Launch := ⟨0, 0, program, env, []⟩
  let c : Config := ⟨[.call "f" (some ⟨0⟩)], [.value .null, .value (.string "2"), .openCall],
    ⟨env, [], FirstError.none⟩⟩
  have hvisits : l.Visits c :=
    ((Relation.ReflTransGen.refl.tail (.openCall _ _ _)).tail (.value _ _ _ _)).tail
      (.value _ _ _ _)
  have hsplit : splitCall [] c.stack = some ([.value (.string "2"), .value .null], []) := rfl
  have hread : lookArguments env counter 0 [.value (.string "2"), .value .null] =
      .ok [.integer 2, .null] := by cbv
  have hinvokes : c.Invokes ⟨0⟩ [.integer 2, .null] :=
    (invokes_iff (Launch.isSound_of_visits hvisits)).2
      ⟨counter, rfl, rfl, hsplit, ⟨rfl, rfl, hread, rfl⟩⟩
  obtain ⟨_, _, _, _, f, _, hsplit', hfind, _, _, htyped⟩ :=
    (isTyped_of_invokes l).1 l c .refl hvisits ⟨0⟩ _ hinvokes
  cases hsplit.symm.trans hsplit'
  exact ⟨l, c, hvisits, hinvokes, f, hfind, htyped⟩

end Machine

end Reckoner
