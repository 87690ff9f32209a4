import Reckoner.Proofs.Machine.Basic

/-!
Steps read as exceptions. A step looks at what it needs in turn, and the first thing without a value
is an exception that ends it. The machine reports that exception, unless a failure was reported
before, and goes on with a failed entry in place of the value.
-/

namespace Reckoner

namespace FirstError

def after {α : Type} (slot : FirstError) : Except Error α → FirstError
  | .ok _ => slot
  | .error e => slot.set e

variable {α : Type}

@[simp] theorem after_ok (slot : FirstError) (a : α) :
    slot.after (.ok a : Except Error α) = slot := rfl

@[simp] theorem after_error (slot : FirstError) (e : Error) :
    slot.after (.error e : Except Error α) = slot.set e := rfl

@[simp] theorem isSet_after (slot : FirstError) (r : Except Error α) :
    (slot.after r).isSet = (slot.isSet || !r.isOk) := by
  cases r <;> simp [Except.isOk, Except.toBool]

/-- An error that is held stays. -/
theorem isSet_after_of_isSet {slot : FirstError} (h : slot.isSet) (r : Except Error α) :
    (slot.after r).isSet := by
  rw [isSet_after, h, Bool.true_or]

@[simp] theorem after_set (slot : FirstError) (e : Error) (r : Except Error α) :
    (slot.set e).after r = slot.set e := by
  cases r with
  | ok a => rfl
  | error e' => exact set_set slot e e'

theorem set_of_isSet {slot : FirstError} (h : slot.isSet) (e : Error) : slot.set e = slot := by
  obtain ⟨held⟩ := slot
  cases held with
  | none => cases h
  | some _ => rfl

theorem after_of_isSet {slot : FirstError} (h : slot.isSet) (r : Except Error α) :
    slot.after r = slot := by
  cases r with
  | ok a => rfl
  | error e => exact set_of_isSet h e

end FirstError

namespace Machine

def IsReported (slots : List Slot) (failure : FirstError) : Prop :=
  .failed ∈ slots → failure.isSet

namespace IsReported

variable {slots slots' : List Slot} {failure : FirstError}

theorem subset (h : IsReported slots failure) (hsubset : ∀ slot ∈ slots', slot ∈ slots) :
    IsReported slots' failure := fun hmem => h (hsubset _ hmem)

theorem after {α : Type} (h : IsReported slots failure) (r : Except Error α) :
    IsReported slots (failure.after r) := fun hmem => FirstError.isSet_after_of_isSet (h hmem) r

end IsReported

/-! Values and where they come from. -/

def Slot.look (env : Environment) : Slot → Except Error Value
  | value v => .ok v
  | name x =>
    match env.scope.get? x with
    | some v => .ok v
    | none => .error (.invalidValue s!"undefined variable '{x}'")
  | failed | block _ | openCall => .error .missingResult

def look (env : Environment) : Stack → Except Error Value
  | slot :: _ => slot.look env
  | [] => .error .missingResult

def Slot.ofResult : Except Error Value → Slot
  | .ok v => value v
  | .error _ => failed

def unaryResult (env : Environment) (op : Operator) (stack : Stack) : Except Error Value := do
  let v ← look env stack
  applyUnary op v

def binaryResult (env : Environment) (op : Operator) (stack : Stack) : Except Error Value := do
  let r ← look env stack
  let l ← look env (stack.drop 1)
  applyBinary op l r

def writeResult (env : Environment) (name : String) (v : Value) : Except Error Value :=
  (env.scope.set name v).map fun _ => v

def assignResult (env : Environment) (stack : Stack) : Except Error Value := do
  let v ← look env stack
  match stack.drop 1 with
  | .name name :: _ => writeResult env name v
  | _ => .error .notAssignable

def lookArguments (env : Environment) (f : Function) (index : Nat) :
    List Slot → Except Error (List Value)
  | [] => .ok []
  | slot :: more => do
    let v ← slot.look env
    match convertArgument v (f.signature.kindsAt index) with
    | none => .error (.argumentType f.name (index + 1))
    | some v => do
      let others ← lookArguments env f (index + 1) more
      return v :: others

def lookAll (env : Environment) : List Slot → Except Error (List Value)
  | [] => .ok []
  | slot :: more => do
    let v ← slot.look env
    let others ← lookAll env more
    return v :: others

inductive MayWrite (env : Environment) : Environment → Prop where
  | nothing : MayWrite env env
  | write {name : String} {v : Value} {scope : Scope} (h : env.scope.set name v = .ok scope) :
      MayWrite env { env with scope }

/-! What the machine makes of these. -/

/-- From this state the computation gives `a`, leaves the environment as it is, and reports the
exception, if `r` is one. -/
def Reads {α β : Type} (m : Machine α) (s : State) (r : Except Error β) (a : α) : Prop :=
  ∃ journal, m s = .done a ⟨s.env, journal, s.failure.after r⟩

variable {s : State}

theorem Slot.look_eq_error_of_none {env : Environment} {name : String}
    (h : env.scope.find? name = none) :
    (Slot.name name).look env = .error (.invalidValue s!"undefined variable '{name}'") := by
  simp only [Slot.look, Scope.get?, h, Option.map_none]

theorem Slot.look_of_find? {env : Environment} {name : String} {v : Variable}
    (h : env.scope.find? name = some v) : (Slot.name name).look env = .ok (env.scope.read v) := by
  simp only [Slot.look, Scope.get?, h, Option.map_some]

theorem reads_resolve {slot : Slot} (h : IsReported [slot] s.failure) :
    Reads (resolve slot) s (slot.look s.env) (slot.look s.env).toOption := by
  cases slot with
  | name name =>
    cases hfind : s.env.scope.find? name with
    | none =>
      rw [Reads, Slot.look_eq_error_of_none hfind]
      refine ⟨s.journal, ?_⟩
      simp only [resolve, readName, bind_eq, environment, hfind]
      rfl
    | some v =>
      rw [Reads, Slot.look_of_find? hfind]
      obtain ⟨found, storage⟩ := v
      cases storage with
      | own value =>
        refine ⟨s.journal, ?_⟩
        simp only [resolve, readName, bind_eq, environment, hfind]
        rfl
      | shared id =>
        refine ⟨.read id :: s.journal, ?_⟩
        simp only [resolve, readName, bind_eq, environment, hfind]
        rfl
  | value v => exact ⟨s.journal, rfl⟩
  | failed =>
    refine ⟨s.journal, ?_⟩
    rw [Slot.look, FirstError.after_error, FirstError.set_of_isSet (h (.head _))]
    rfl
  | block body => exact ⟨s.journal, rfl⟩
  | openCall => exact ⟨s.journal, rfl⟩

theorem reads_popValue {stack : Stack} (h : IsReported stack s.failure) :
    Reads (popValue stack) s (look s.env stack) ((look s.env stack).toOption, stack.drop 1) := by
  cases stack with
  | nil => exact ⟨s.journal, rfl⟩
  | cons slot rest =>
    have hslot : IsReported [slot] s.failure := h.subset (by simp)
    obtain ⟨journal, hresolve⟩ := reads_resolve hslot
    refine ⟨journal, ?_⟩
    rw [popValue, bind_eq, hresolve]
    rfl

theorem slotOf_eq (r : Except Error Value) (s : State) :
    slotOf r s = .done (.ofResult r) { s with failure := s.failure.after r } := by
  cases r <;> rfl

theorem reads_unary (op : Operator) {stack : Stack} (h : IsReported stack s.failure) :
    Reads (unary op stack) s (unaryResult s.env op stack)
      (.ofResult (unaryResult s.env op stack) :: stack.drop 1) := by
  obtain ⟨journal, hpop⟩ := reads_popValue h
  refine ⟨journal, ?_⟩
  rw [unary, bind_eq, hpop, unaryResult]
  cases look s.env stack with
  | error e => rfl
  | ok v =>
    change (slotOf (applyUnary op v) >>= _) _ = _
    rw [bind_eq, slotOf_eq]
    rfl

theorem reads_binary (op : Operator) {stack : Stack} (h : IsReported stack s.failure) :
    Reads (binary op stack) s (binaryResult s.env op stack)
      (.ofResult (binaryResult s.env op stack) :: stack.drop 2) := by
  obtain ⟨journal, hright⟩ := reads_popValue h
  have hbelow : IsReported (stack.drop 1) (s.failure.after (look s.env stack)) :=
    (h.after _).subset fun _ => List.mem_of_mem_drop
  obtain ⟨journal, hleft⟩ :=
    @reads_popValue ⟨s.env, journal, s.failure.after (look s.env stack)⟩ _ hbelow
  refine ⟨journal, ?_⟩
  rw [binary, bind_eq, hright]
  dsimp only at hleft ⊢
  rw [bind_eq, hleft, binaryResult, List.drop_drop]
  cases look s.env stack with
  | error e =>
    -- The left operand may have no value either, but that is reported second.
    cases look s.env (stack.drop 1) with
    | error e' => simp only [FirstError.after_error, FirstError.set_set]; rfl
    | ok l => rfl
  | ok r =>
    cases look s.env (stack.drop 1) with
    | error e' => rfl
    | ok l =>
      change (slotOf (applyBinary op l r) >>= _) _ = _
      rw [bind_eq, slotOf_eq]
      rfl

/-- A name takes the value, or it fails and nothing is written. -/
theorem writeName_cases (name : String) (v : Value) (s : State) :
    (∃ e, s.env.scope.set name v = .error e ∧
        writeName name v s = .done .failed ⟨s.env, s.journal, s.failure.set e⟩) ∨
      ∃ scope journal, s.env.scope.set name v = .ok scope ∧
        writeName name v s = .done (.value v) ⟨{ s.env with scope }, journal, s.failure⟩ := by
  rw [writeName, bind_eq]
  simp only [environment]
  cases hset : s.env.scope.set name v with
  | error e => exact .inl ⟨e, rfl, rfl⟩
  | ok scope =>
    refine .inr ⟨scope, ?_⟩
    cases s.env.scope.find? name with
    | none => exact ⟨_, rfl, rfl⟩
    | some found =>
      obtain ⟨_, storage⟩ := found
      cases storage <;> exact ⟨_, rfl, rfl⟩

/-- An assignment writes the newest entry to the name below it, or it fails and writes nothing. -/
theorem assign_cases {stack : Stack} (h : IsReported stack s.failure) :
    (∃ e journal, assignResult s.env stack = .error e ∧ assign stack s =
        .done (.failed :: stack.drop 2) ⟨s.env, journal, s.failure.set e⟩) ∨
      ∃ name v rest scope journal, look s.env stack = .ok v ∧ stack.drop 1 = .name name :: rest ∧
        s.env.scope.set name v = .ok scope ∧
        assign stack s = .done (.value v :: stack.drop 2)
          ⟨{ s.env with scope }, journal, s.failure⟩ := by
  obtain ⟨journal, hpop⟩ := reads_popValue h
  have hdrop : stack.drop 2 = (stack.drop 1).drop 1 := by rw [List.drop_drop]
  have hbelow : IsReported (stack.drop 1) s.failure := h.subset fun _ => List.mem_of_mem_drop
  rw [assign, bind_eq, hpop, assignResult, hdrop]
  dsimp only
  generalize stack.drop 1 = rest at hbelow ⊢
  cases hlook : look s.env stack with
  | error e =>
    refine .inl ⟨e, journal, rfl, ?_⟩
    split
    · rfl
    · rfl
    · -- The target is no name either, but that is reported second.
      simp only [fail, report, bind_eq, pure_eq, FirstError.after_error, FirstError.set_set]
  | ok v =>
    cases rest with
    | nil => exact .inl ⟨.notAssignable, journal, rfl, rfl⟩
    | cons target rest =>
      cases target with
      | name name =>
        change (∃ e journal', writeResult s.env name v = .error e ∧
            (writeName name v >>= _) _ = _) ∨
          ∃ _ _ _ _ _, _ ∧ _ ∧ _ ∧ (writeName name v >>= _) _ = _
        simp only [FirstError.after_ok, bind_eq, writeResult]
        rcases writeName_cases name v ⟨s.env, journal, s.failure⟩ with
          ⟨e, hset, hwrite⟩ | ⟨scope, journal', hset, hwrite⟩
        · exact .inl ⟨e, journal, by rw [hset]; rfl, by rw [hwrite]; rfl⟩
        · exact .inr ⟨name, v, rest, scope, journal', rfl, rfl, hset, by rw [hwrite]; rfl⟩
      | failed =>
        refine .inl ⟨.notAssignable, journal, rfl, ?_⟩
        rw [FirstError.set_of_isSet (hbelow (.head _))]
        rfl
      | value _ | block _ | openCall => exact .inl ⟨.notAssignable, journal, rfl, rfl⟩

/-- What an assignment leaves is its result. -/
theorem assign_eq {stack : Stack} (h : IsReported stack s.failure) :
    ∃ env journal, MayWrite s.env env ∧
      assign stack s = .done (.ofResult (assignResult s.env stack) :: stack.drop 2)
        ⟨env, journal, s.failure.after (assignResult s.env stack)⟩ := by
  rcases assign_cases h with ⟨e, journal, hresult, hassign⟩ |
    ⟨name, v, rest, scope, journal, hlook, htarget, hset, hassign⟩
  · exact ⟨s.env, journal, .nothing, by rw [hresult]; exact hassign⟩
  · have hresult : assignResult s.env stack = .ok v := by
      rw [assignResult, hlook, htarget]
      simp only [bind, Except.bind, writeResult, hset, Except.map]
    exact ⟨_, journal, .write hset, by rw [hresult]; exact hassign⟩

/-- All arguments are read, also behind one that failed. -/
theorem reads_readArguments (f : Function) (index : Nat) {slots : List Slot}
    (h : IsReported slots s.failure) :
    Reads (readArguments f index slots) s (lookArguments s.env f index slots)
      (lookArguments s.env f index slots).toOption := by
  induction slots generalizing index s with
  | nil => exact ⟨s.journal, rfl⟩
  | cons slot more ih =>
    have hfirst : IsReported [slot] s.failure := h.subset (by simp)
    obtain ⟨journal, hslot⟩ := reads_resolve hfirst
    have hmore : IsReported more s.failure := h.subset fun _ => List.mem_cons_of_mem slot
    -- Behind a first error the others are read in vain.
    have hvain (journal : List Event) (e : Error) :
        ∃ journal' others, readArguments f (index + 1) more ⟨s.env, journal, s.failure.set e⟩ =
          .done others ⟨s.env, journal', s.failure.set e⟩ := by
      obtain ⟨journal', hothers⟩ := ih (s := ⟨s.env, journal, s.failure.set e⟩) (index + 1)
        (hmore.after (.error e : Except Error Value))
      exact ⟨journal', _, by rw [hothers, FirstError.after_set]⟩
    rw [Reads, readArguments, bind_eq, hslot, lookArguments]
    cases slot.look s.env with
    | error e =>
      obtain ⟨journal', others, hothers⟩ := hvain journal e
      refine ⟨journal', ?_⟩
      change (readArguments f (index + 1) more >>= _) _ = _
      rw [FirstError.after_error, bind_eq, hothers]
      rfl
    | ok v =>
      cases hconvert : convertArgument v (f.signature.kindsAt index) with
      | none =>
        obtain ⟨journal', others, hothers⟩ := hvain journal (.argumentType f.name (index + 1))
        refine ⟨journal', ?_⟩
        simp only [Except.toOption, bind, Except.bind, hconvert]
        change (readArguments f (index + 1) more >>= _) _ = _
        rw [bind_eq, FirstError.after_ok, hothers]
        rfl
      | some v =>
        obtain ⟨journal', hothers⟩ := ih (s := ⟨s.env, journal, s.failure⟩) (index + 1) hmore
        refine ⟨journal', ?_⟩
        simp only [Except.toOption, bind, Except.bind, hconvert]
        change (readArguments f (index + 1) more >>= _) _ = _
        rw [FirstError.after_ok, bind_eq, hothers]
        cases lookArguments s.env f (index + 1) more <;> rfl

/-- What is left out of the values was reported. -/
theorem collect_eq {slots : List Slot} (h : IsReported slots s.failure) :
    ∃ values, Reads (collect slots) s (lookAll s.env slots) values ∧
      ∀ v ∈ values, ∃ slot ∈ slots, slot.look s.env = .ok v := by
  induction slots generalizing s with
  | nil => exact ⟨[], ⟨s.journal, rfl⟩, nofun⟩
  | cons slot more ih =>
    have hfirst : IsReported [slot] s.failure := h.subset (by simp)
    obtain ⟨journal, hslot⟩ := reads_resolve hfirst
    have hmore : IsReported more s.failure := h.subset fun _ => List.mem_cons_of_mem slot
    simp only [Reads, collect, bind_eq, hslot, lookAll]
    cases hlook : slot.look s.env with
    | error e =>
      obtain ⟨values, ⟨journal, hothers⟩, hvalues⟩ :=
        ih (s := ⟨s.env, journal, s.failure.set e⟩) (hmore.after (.error e : Except Error Value))
      refine ⟨values, ⟨journal, ?_⟩, fun v hv => ?_⟩
      · simp only [Except.toOption, report, bind_eq, FirstError.after_error, FirstError.set_set]
        rw [hothers, FirstError.after_set]
        rfl
      · obtain ⟨other, hother, hlook'⟩ := hvalues v hv
        exact ⟨other, .tail _ hother, hlook'⟩
    | ok v =>
      obtain ⟨values, ⟨journal, hothers⟩, hvalues⟩ :=
        ih (s := ⟨s.env, journal, s.failure⟩) hmore
      refine ⟨v :: values, ⟨journal, ?_⟩,
        List.forall_mem_cons.2 ⟨⟨slot, .head _, hlook⟩, fun v' hv => ?_⟩⟩
      · simp only [Except.toOption, bind_eq, FirstError.after_ok]
        rw [hothers]
        cases lookAll s.env more <;> rfl
      · obtain ⟨other, hother, hlook'⟩ := hvalues v' hv
        exact ⟨other, .tail _ hother, hlook'⟩

end Machine

end Reckoner
