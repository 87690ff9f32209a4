import Mathlib
import Reckoner.Proofs.Machine.Arguments
import Reckoner.Proofs.Program.Guarded
import Reckoner.Proofs.Scope.Present
import Reckoner.Proofs.Value.Present

/-!
Absent values in a run. As long as variables have values and functions give some, an absent value
gets on the stack right before a call and is gone with it. So no operator reads one, no variable is
given one, and none is left at the end.
-/

namespace Reckoner

/-- The function brings no absent value about. One of the host gives values for arguments that it
declares, while there are no absent values to look up, and no parameter of a formula may be left
out. -/
structure Function.GivesValues (f : Function) : Prop where
  result : ∀ (view : View) (args : List Value), (∀ name, view.lookup name ≠ some .null) →
    (∀ i arg, args[i]? = some arg → (f.signature.kindsAt i).meets arg.kind) →
    f.validate args = .ok () → f.invoke view args ≠ .ok .null
  parameters : f.isFormula → ∀ i, (f.signature.kindsAt i).absent = false

namespace Machine

open Program

variable {env : Environment} {s : State} {c : Config} {rest : Program} {stack below : Stack}
  {slots : List Slot}

/-! Entries. -/

theorem look_ne_null_of_ne (henv : env.scope.HasValues) {slot : Slot} (h : slot ≠ .value .null) :
    slot.look env ≠ .ok .null := by
  cases slot with
  | value v =>
    rintro ⟨⟩
    exact h rfl
  | name name =>
    have hget := henv.get?_ne_null name
    rw [Slot.look]
    cases hvalue : env.scope.get? name with
    | none => rintro ⟨⟩
    | some v =>
      rintro ⟨⟩
      exact hget hvalue
  | failed | block | openCall => rintro ⟨⟩

theorem look_ne_null (henv : env.scope.HasValues) (h : .value .null ∉ stack) :
    look env stack ≠ .ok .null := by
  cases stack with
  | nil => nofun
  | cons slot below =>
    refine look_ne_null_of_ne henv ?_
    rintro rfl
    exact h (.head _)

theorem ofResult_ne_null {r : Except Error Value} (h : r ≠ .ok .null) :
    Slot.ofResult r ≠ .value .null := by
  cases r with
  | error e => nofun
  | ok v =>
    rintro ⟨⟩
    exact h rfl

/-! Results. -/

theorem unaryResult_ne_null (op : Operator) : unaryResult env op stack ≠ .ok .null := by
  intro h
  obtain ⟨v, -, h⟩ := bind_eq_ok.1 h
  exact applyUnary_ne_null op v h

theorem binaryResult_ne_null (op : Operator) : binaryResult env op stack ≠ .ok .null := by
  intro h
  obtain ⟨r, -, h⟩ := bind_eq_ok.1 h
  obtain ⟨l, -, h⟩ := bind_eq_ok.1 h
  exact applyBinary_ne_null op l r h

/-- An assignment gives the value that it is given. -/
theorem assignResult_ne_null (h : look env stack ≠ .ok .null) :
    assignResult env stack ≠ .ok .null := by
  intro hassign
  obtain ⟨v, hlook, hassign⟩ := bind_eq_ok.1 hassign
  split at hassign
  · next name _ _ =>
    rw [writeResult] at hassign
    cases hset : env.scope.set name v with
    | error e =>
      rw [hset] at hassign
      cases hassign
    | ok scope =>
      rw [hset] at hassign
      cases hassign
      exact h hlook
  · cases hassign

/-- What an assignment may write is a value. -/
theorem Assigns.hasValues {env' : Environment} (h : Assigns env stack env')
    (henv : env.scope.HasValues) (hlook : look env stack ≠ .ok .null) : env'.scope.HasValues := by
  cases h with
  | nothing => exact henv
  | write hvalue hset =>
    refine henv.set ?_ hset
    rintro rfl
    exact hlook hvalue

/-- A function of the host gives a value for the arguments of a call. -/
theorem Gives.ne_null {target : Option FunctionId} {v : Value}
    (h : Gives env target slots (.value v)) (henv : env.scope.HasValues)
    (hgives : ∀ f ∈ env.registry.functions, f.GivesValues) : v ≠ .null := by
  rintro rfl
  cases h with
  | value hfind _ hargs hvalid hresult =>
    obtain ⟨id, -, hfind⟩ := Option.bind_eq_some_iff.1 hfind
    refine (hgives _ (List.mem_of_find?_eq_some hfind)).result _ _ henv.get?_ne_null
      (fun i arg harg => ?_) hvalid hresult
    obtain ⟨_, _, -, -, hconvert⟩ := exists_slot_of_lookArguments hargs harg
    exact meets_of_convertArgument hconvert

/-- No parameter of a formula is absent. -/
theorem ne_null_of_lookArguments {f : Function} {args : List Value}
    (hargs : lookArguments env f 0 slots = .ok args)
    (hparameters : ∀ i, (f.signature.kindsAt i).absent = false) : ∀ arg ∈ args, arg ≠ .null := by
  rintro arg hmem rfl
  obtain ⟨i, harg⟩ := List.getElem?_of_mem hmem
  obtain ⟨_, _, -, -, hconvert⟩ := exists_slot_of_lookArguments hargs harg
  have habsent := Value.meets_null.1 (meets_of_convertArgument hconvert)
  rw [hparameters] at habsent
  cases habsent

/-- What a function is given by a call: entries that have values, and then absent ones. It is one of
the host that accepts absent arguments from there on, if there are any, and what it is shown is
absent from there on and nowhere before. -/
structure IsFilled (env : Environment) (f : Function) (shown : List Slot) (count : Nat) : Prop where
  entries : ∀ slot ∈ shown, slot.look env ≠ .ok .null
  optional : 0 < count →
    f.isFormula = false ∧ ∀ i, shown.length ≤ i → (f.signature.kindsAt i).absent
  arguments : ∀ args,
    lookArguments env f 0 (shown ++ List.replicate count (.value .null)) = .ok args →
      ∀ i arg, args[i]? = some arg → (arg = .null ↔ shown.length ≤ i)

/-- A call that leaves out what it may, and is given no less than is declared. -/
theorem isFilled_of_mayOmit {f : Function} {shown : List Slot} {count : Nat}
    (henv : env.scope.HasValues) (hgives : f.GivesValues) (homit : f.MayOmit count)
    (harity : f.arity ≤ shown.length + count) (hshown : .value .null ∉ shown) :
    IsFilled env f shown count := by
  have hentries : ∀ slot ∈ shown, slot.look env ≠ .ok .null := by
    intro slot hslot
    refine look_ne_null_of_ne henv ?_
    rintro rfl
    exact hshown hslot
  refine ⟨hentries, fun hcount => ?_, fun args hargs i arg harg => ?_⟩
  · have habsent : ∀ i, shown.length ≤ i → (f.signature.kindsAt i).absent :=
      fun i hi => absent_kindsAt homit hcount (by omega)
    refine ⟨Bool.eq_false_iff.2 fun hformula => ?_, habsent⟩
    have hnot := hgives.parameters hformula shown.length
    rw [habsent _ le_rfl] at hnot
    cases hnot
  · obtain ⟨slot, v, hslot, hlook, hconvert⟩ := exists_slot_of_lookArguments hargs harg
    by_cases hi : i < shown.length
    · rw [List.getElem?_append_left hi] at hslot
      have hv : v ≠ .null := by
        rintro rfl
        exact hentries slot (List.mem_of_getElem? hslot) hlook
      exact iff_of_false (ne_null_of_convertArgument hv hconvert) (Nat.not_le.2 hi)
    · rw [List.getElem?_append_right (Nat.not_lt.1 hi)] at hslot
      obtain rfl := List.eq_of_mem_replicate (List.mem_of_getElem? hslot)
      cases hlook
      exact iff_of_true (eq_null_of_convertArgument hconvert) (Nat.not_lt.1 hi)

/-! Moments of a run. -/

/-- At this moment nothing is absent but the newest entries, and these are for the call to come. -/
structure Config.HoldsValues (Q : Option FunctionId → Nat → Prop) (c : Config) : Prop where
  scope : c.state.env.scope.HasValues
  stack : ∃ count others, c.stack = List.replicate count (.value .null) ++ others ∧
    .value .null ∉ others ∧ IsGuarded Q count c.program

namespace Config.HoldsValues

variable {Q : Option FunctionId → Nat → Prop}

/-- What was pushed is not absent. -/
theorem push {slot : Slot} (hscope : s.env.scope.HasValues) (hprogram : IsGuarded Q 0 rest)
    (hslot : slot ≠ .value .null) (hbelow : .value .null ∉ below) :
    HoldsValues Q ⟨rest, slot :: below, s⟩ := by
  refine ⟨hscope, 0, slot :: below, rfl, fun hmem => ?_, hprogram⟩
  rcases List.mem_cons.1 hmem with heq | hmem
  · exact hslot heq.symm
  · exact hbelow hmem

/-- Before anything else than an absent value or a call no entry is absent. -/
theorem of_plain (h : c.HoldsValues Q) {instruction : Instruction} {more : Program}
    (hprogram : c.program = instruction :: more) (hplain : isPlain instruction) :
    .value .null ∉ c.stack ∧ IsGuarded Q 0 more := by
  obtain ⟨count, others, hstack, hothers, hguarded⟩ := h.stack
  rw [hprogram] at hguarded
  obtain ⟨rfl, hmore⟩ := hguarded.of_plain hplain
  exact ⟨hstack ▸ hothers, hmore⟩

theorem of_operator (h : c.HoldsValues Q) {op : Operator} {more : Program}
    (hprogram : c.program = .operator op :: more) :
    .value .null ∉ c.stack ∧ IsGuarded Q 0 more := h.of_plain hprogram rfl

theorem of_nil (h : c.HoldsValues Q) (hprogram : c.program = []) : .value .null ∉ c.stack := by
  obtain ⟨count, others, hstack, hothers, hguarded⟩ := h.stack
  rw [hprogram] at hguarded
  cases hguarded
  exact hstack ▸ hothers

theorem look_ne_null (h : c.HoldsValues Q) (hstack : .value .null ∉ c.stack) :
    ∀ slot ∈ c.stack, slot.look c.state.env ≠ .ok .null := by
  intro slot hslot
  refine look_ne_null_of_ne h.scope ?_
  rintro rfl
  exact hstack hslot

/-- The entries of a call have values up to some point, and from there on they are absent. Below
its mark no entry is. -/
theorem of_call (h : c.HoldsValues Q) {name : String} {target : Option FunctionId} {more : Program}
    (hprogram : c.program = .call name target :: more)
    (hsplit : splitCall [] c.stack = some (slots, below)) :
    .value .null ∉ below ∧ IsGuarded Q 0 more ∧ ∃ shown count,
      slots = shown ++ List.replicate count (.value .null) ∧ .value .null ∉ shown ∧
      Q target count := by
  obtain ⟨count, others, hstack, hothers, hguarded⟩ := h.stack
  obtain ⟨hcall, hmore⟩ : Q target count ∧ IsGuarded Q 0 more := by
    rw [hprogram] at hguarded
    cases hguarded with
    | plain hplain => cases hplain
    | call hcall hmore => exact ⟨hcall, hmore⟩
  obtain ⟨taken, rfl, htaken⟩ := eq_append_of_splitCall hsplit
  rw [htaken] at hstack
  obtain ⟨shown, rfl⟩ : ∃ shown, taken = List.replicate count (.value .null) ++ shown := by
    rcases List.append_eq_append_iff.1 hstack with ⟨slots, hslots, hmark⟩ | ⟨shown, heq, -⟩
    · cases slots with
      | nil => exact ⟨[], by rw [hslots, List.append_nil, List.append_nil]⟩
      | cons slot slots =>
        -- The mark of the call is not absent.
        cases hmark
        have hmem : Slot.openCall ∈ List.replicate count (Slot.value .null) := by simp [hslots]
        cases List.eq_of_mem_replicate hmem
    · exact ⟨shown, heq⟩
  rw [List.append_assoc, List.append_cancel_left_eq] at hstack
  rw [← hstack] at hothers
  refine ⟨fun hmem => hothers (by simp [hmem]), hmore, shown.reverse, count, by simp,
    fun hmem => ?_, hcall⟩
  exact hothers (List.mem_append_left _ (List.mem_reverse.1 hmem))

/-- Whatever a step puts on the stack and writes is a value, or is absent for the call to come. -/
theorem ended (h : c.HoldsValues Q) (hgives : ∀ f ∈ c.state.env.registry.functions, f.GivesValues)
    (hsound : c.IsSound) {after : Stack} (hnext : c.next? = some (.done (.ended after, rest) s)) :
    HoldsValues Q ⟨rest, after, s⟩ := by
  have hturns := turns_of_next? hsound hnext
  have hscope := h.scope
  generalize hhalf : Turn.ended after = half, henv : s.env = env at hturns
  cases hturns with
  | @push instruction _ slot heq hslot =>
    cases hhalf
    rw [← henv] at hscope
    by_cases hnull : instruction = .value .null
    · subst hnull
      cases hslot
      obtain ⟨count, others, hstack, hothers, hguarded⟩ := h.stack
      rw [heq] at hguarded
      cases hguarded with
      | plain hplain => cases hplain
      | absent hmore =>
        exact ⟨hscope, count + 1, others, by rw [hstack, List.replicate_succ]; rfl, hothers, hmore⟩
    · have hplain : isPlain instruction := by
        cases instruction with
        | value v => cases v <;> first | rfl | exact absurd rfl hnull
        | name | openCall => rfl
        | operator | call | startBlock | endBlock => cases hslot
      obtain ⟨hstack, hmore⟩ := h.of_plain heq hplain
      refine push hscope hmore ?_ hstack
      rintro rfl
      cases instruction <;> cases hslot
      exact hnull rfl
  | block heq hsplit =>
    cases hhalf
    obtain ⟨hstack, hmore⟩ := h.of_plain heq rfl
    rw [eq_append_of_splitBlock hsplit] at hmore
    exact push (henv ▸ hscope) hmore.of_endBlock nofun hstack
  | comma heq =>
    cases hhalf
    obtain ⟨hstack, hmore⟩ := h.of_operator heq
    exact ⟨henv ▸ hscope, 0, c.stack, rfl, hstack, hmore⟩
  | unary heq =>
    cases hhalf
    obtain ⟨hstack, hmore⟩ := h.of_operator heq
    exact push (henv ▸ hscope) hmore (ofResult_ne_null (unaryResult_ne_null _))
      fun hmem => hstack (List.mem_of_mem_drop hmem)
  | binary heq =>
    cases hhalf
    obtain ⟨hstack, hmore⟩ := h.of_operator heq
    exact push (henv ▸ hscope) hmore (ofResult_ne_null (binaryResult_ne_null _))
      fun hmem => hstack (List.mem_of_mem_drop hmem)
  | assign heq hassigns =>
    cases hhalf
    obtain ⟨hstack, hmore⟩ := h.of_operator heq
    have hlook := Machine.look_ne_null hscope hstack
    exact push (henv ▸ hassigns.hasValues hscope hlook) hmore
      (ofResult_ne_null (assignResult_ne_null hlook)) fun hmem => hstack (List.mem_of_mem_drop hmem)
  | question => cases hhalf
  | @call name target _ slots below heq hsplit =>
    obtain ⟨hbelow, hmore, -⟩ := h.of_call heq hsplit
    cases hgiven : callResult c.state.env name target slots with
    | error e =>
      rw [hgiven] at hhalf
      cases hhalf
      exact push (henv ▸ hscope) hmore nofun hbelow
    | ok given =>
      have hgive := gives_of_callResult hgiven
      rw [hgiven] at hhalf
      cases given with
      | formula => cases hhalf
      | value v =>
        cases hhalf
        refine push (henv ▸ hscope) hmore ?_ hbelow
        rintro ⟨⟩
        exact hgive.ne_null hscope hgives rfl

/-- What is left when something nested is run. A formula is run with values for its parameters. -/
theorem pending (h : c.HoldsValues Q)
    (hgives : ∀ f ∈ c.state.env.registry.functions, f.GivesValues) (hsound : c.IsSound)
    {inner : Inner} (hnext : c.next? = some (.done (.pending inner below, rest) s)) :
    IsGuarded Q 0 rest ∧ .value .null ∉ below ∧ s.env.scope.HasValues ∧
      ∀ program, (inner.enter program s.env).scope.HasValues := by
  have hturns := turns_of_next? hsound hnext
  have hscope := h.scope
  generalize hhalf : Turn.pending inner below = half, henv : s.env = env at hturns
  cases hturns with
  | @question _ body second first _ heq hbranches =>
    cases hhalf
    obtain ⟨hstack, hmore⟩ := h.of_operator heq
    refine ⟨hmore, fun hmem => hstack ?_, hscope, fun _ => hscope⟩
    have hdrop : Slot.value .null ∈ c.stack.drop 1 := by simp [hbranches, hmem]
    exact List.mem_of_mem_drop hdrop
  | @call name target _ slots below' heq hsplit =>
    obtain ⟨hbelow, hmore, -⟩ := h.of_call heq hsplit
    cases hgiven : callResult c.state.env name target slots with
    | error e =>
      rw [hgiven] at hhalf
      cases hhalf
    | ok given =>
      have hgive := gives_of_callResult hgiven
      rw [hgiven] at hhalf
      cases hgive with
      | value => cases hhalf
      | @formula f parameters text args hfind hbody hargs =>
        cases hhalf
        refine ⟨hmore, hbelow, hscope, fun _ => hscope.push ?_⟩
        obtain ⟨id, -, hfind⟩ := Option.bind_eq_some_iff.1 hfind
        have hformula : f.isFormula := by rw [Function.isFormula, hbody]
        have hvalues := ne_null_of_lookArguments hargs
          ((hgives f (List.mem_of_find?_eq_some hfind)).parameters hformula)
        exact fun binding hbinding => hvalues _ (List.of_mem_zip hbinding).2
  | _ => cases hhalf

/-- No absent value is left at the end. -/
theorem of_ends {l : Launch} {execution : Execution} {env : Environment} {journal : List Event}
    (h : c.HoldsValues Q) (hvisits : l.Visits c) (hends : Launch.Ends c execution env journal) :
    .null ∉ execution.values := by
  cases hends with
  | collected hprogram hcollect =>
    obtain ⟨values, ⟨journal', hreads⟩, hvalues⟩ := Launch.collect_of_visits hvisits
    cases hreads.symm.trans hcollect
    intro hmem
    obtain ⟨slot, hslot, hlook⟩ := hvalues _ hmem
    exact h.look_ne_null (h.of_nil hprogram) slot hslot hlook
  | stopped => nofun

end Config.HoldsValues

structure Config.ConfinesAbsent (c : Config) : Prop where
  /-- All globals, also hidden ones, and all bindings of frames have values. -/
  scope : c.state.env.scope.HasValues
  /-- An operator has operands that have values. -/
  operands : ∀ op more, c.program = .operator op :: more →
    ∀ slot ∈ c.stack, slot.look c.state.env ≠ .ok .null
  /-- So does everything that is left at the end. -/
  left : c.program = [] → ∀ slot ∈ c.stack, slot.look c.state.env ≠ .ok .null
  /-- While an entry is absent, the call that it is for comes next, or another absent value. -/
  kept : .value .null ∈ c.stack → (∃ more, c.program = .value .null :: more) ∨
    ∃ name target more, c.program = .call name target :: more
  /-- A call takes all absent entries. -/
  given : ∀ name target more, c.program = .call name target :: more →
    ∃ shown count below,
      splitCall [] c.stack = some (shown ++ List.replicate count (.value .null), below) ∧
      .value .null ∉ below ∧
      ∀ f, target.bind c.state.env.registry.find? = some f → IsFilled c.state.env f shown count
  /-- What is shown as absent may be. -/
  invoked : ∀ id args, c.Invokes id args →
    ∃ f, c.state.env.registry.find? id = some f ∧ f.isFormula = false ∧
      ∀ i : Nat, args[i]? = some .null → (f.signature.kindsAt i).absent

/-- What calls are given decides. -/
theorem Config.HoldsValues.confinesAbsent {Q : Option FunctionId → Nat → Prop}
    (h : c.HoldsValues Q) (hsound : c.IsSound)
    (hgiven : ∀ name target more, c.program = .call name target :: more →
      ∃ slots below, splitCall [] c.stack = some (slots, below) ∧
        ∀ f, target.bind c.state.env.registry.find? = some f →
          f.GivesValues ∧ f.arity ≤ slots.length ∧
            ∀ missing, Q target missing → f.MayOmit missing) :
    c.ConfinesAbsent where
  scope := h.scope
  operands _ _ hop := h.look_ne_null (h.of_operator hop).1
  left hnil := h.look_ne_null (h.of_nil hnil)
  kept hmem := by
    cases hprogram : c.program with
    | nil => exact absurd hmem (h.of_nil hprogram)
    | cons instruction more =>
      by_cases hplain : isPlain instruction
      · exact absurd hmem (h.of_plain hprogram hplain).1
      · unfold isPlain at hplain
        split at hplain
        · exact .inl ⟨more, rfl⟩
        · exact .inr ⟨_, _, more, rfl⟩
        · exact absurd rfl hplain
  given name target more hcall := by
    obtain ⟨slots, below, hsplit, hfunction⟩ := hgiven name target more hcall
    obtain ⟨hbelow, -, shown, count, rfl, hshown, hmissing⟩ := h.of_call hcall hsplit
    refine ⟨shown, count, below, hsplit, hbelow, fun f hfind => ?_⟩
    obtain ⟨hgives, harity, homit⟩ := hfunction f hfind
    rw [List.length_append, List.length_replicate] at harity
    exact isFilled_of_mayOmit h.scope hgives (homit count hmissing) harity hshown
  invoked id args hinvokes := by
    obtain ⟨f, rfl, @⟨name, target, more, slots, below, hprogram, hsplit, hinvocation⟩⟩ :=
      (invokes_iff hsound).1 hinvokes
    obtain ⟨id, rfl, hfind⟩ := Option.bind_eq_some_iff.1 hinvocation.registered
    have hid : f.id = id := by simpa using List.find?_some hfind
    refine ⟨f, hid ▸ hfind, hinvocation.native, fun i harg => ?_⟩
    obtain ⟨_, _, -, -, hconvert⟩ := exists_slot_of_lookArguments hinvocation.read harg
    exact Value.meets_null.1 (meets_of_convertArgument hconvert)

theorem lastOf_ne_null {values : List Value} (h : .null ∉ values) :
    Execution.lastOf values ≠ .ok .null := by
  unfold Execution.lastOf
  cases hlast : values.getLast? with
  | none => nofun
  | some v =>
    rintro ⟨⟩
    exact h (List.mem_of_getLast? hlast)

theorem last_ne_null {execution : Execution} (h : .null ∉ execution.values) :
    execution.last ≠ .ok .null := by
  obtain ⟨values, failure⟩ := execution
  cases failure with
  | some e => nofun
  | none => exact lastOf_ne_null h

end Machine

end Reckoner
