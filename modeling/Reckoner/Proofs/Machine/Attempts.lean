import Reckoner.Proofs.Machine.Turns

/-!
What the first half of an instruction can do. It gives a value, it has something run for the value,
or it fails, and the failure is that of the instruction read as an exception. At most one variable
is written, and whatever was on the stack before is used up from the top.
-/

namespace Reckoner.Machine

inductive Given where
  | value (v : Value)
  | formula (f : Function) (parameters : List String) (text : String) (args : List Value)

def applyResult (env : Environment) (f : Function) (args : List Value) : Except Error Given := do
  f.validate args
  match f.body with
  | .formula parameters text => return .formula f parameters text args
  | _ => return .value (← f.invoke env.view args)

def callResult (env : Environment) (name : String) (target : Option FunctionId)
    (slots : List Slot) : Except Error Given :=
  match target.bind env.registry.find? with
  | none => .error (.unknownFunction name)
  | some f => do
    let args ← lookArguments env f 0 slots
    applyResult env f args

def attempt (env : Environment) (instruction : Instruction) (stack : Stack) : Except Error Unit :=
  match instruction with
  | .call name target =>
    match splitCall [] stack with
    | none => .ok ()
    | some (slots, _) => (callResult env name target slots).map fun _ => ()
  | .operator op =>
    if op.takesOne then (unaryResult env op stack).map fun _ => ()
    else if op.takesTwo then (binaryResult env op stack).map fun _ => ()
    else
      match op with
      | .assign => (assignResult env stack).map fun _ => ()
      -- A condition may be no boolean, but it has to have a value.
      | .question => (look env stack).map fun _ => ()
      | _ => .ok ()
  | _ => .ok ()

def Turn.ofGiven (below : Stack) : Except Error Given → Turn
  | .ok (.value v) => ended (.value v :: below)
  | .ok (.formula f parameters text args) => pending (.formula f parameters text args) below
  | .error _ => ended (.failed :: below)

/-- The entries of a call are those above its mark. -/
theorem eq_append_of_splitCall {args slots : List Slot} {stack below : Stack}
    (h : splitCall args stack = some (slots, below)) :
    ∃ taken, slots = taken.reverse ++ args ∧ stack = taken ++ .openCall :: below := by
  induction stack generalizing args with
  | nil => cases h
  | cons slot rest ih =>
    by_cases hslot : slot = .openCall
    · subst hslot
      cases h
      exact ⟨[], rfl, rfl⟩
    · have hrest : splitCall (slot :: args) rest = some (slots, below) := by
        rw [← h, splitCall]
        exact hslot
      obtain ⟨taken, rfl, rfl⟩ := ih hrest
      exact ⟨slot :: taken, by simp, rfl⟩

variable {s : State} {stack : Stack}

theorem reads_applyTurn (f : Function) (args : List Value) (below : Stack) :
    Reads (applyTurn f args below) s (applyResult s.env f args)
      (.ofGiven below (applyResult s.env f args)) := by
  rw [applyTurn, applyResult]
  cases f.validate args with
  | error e => exact ⟨s.journal, rfl⟩
  | ok _ =>
    cases f.body with
    | formula parameters text => exact ⟨s.journal, rfl⟩
    | native | object =>
      refine ⟨.invoked f.id args :: s.journal, ?_⟩
      change (slotOf (f.invoke s.env.view args) >>= _) _ = _
      rw [bind_eq, slotOf_eq]
      cases f.invoke s.env.view args <;> rfl

theorem reads_callTurn (name : String) (target : Option FunctionId) {slots : List Slot}
    {below : Stack} (hsplit : splitCall [] stack = some (slots, below))
    (h : IsReported stack s.failure) :
    Reads (callTurn name target stack) s (callResult s.env name target slots)
      (.ofGiven below (callResult s.env name target slots)) := by
  have hslots : IsReported slots s.failure := by
    obtain ⟨taken, rfl, rfl⟩ := eq_append_of_splitCall hsplit
    exact h.subset fun slot hslot => by simp_all
  simp only [Reads, callTurn, hsplit, callResult, bind_eq environment, environment]
  cases target.bind s.env.registry.find? with
  | none => exact ⟨s.journal, rfl⟩
  | some f =>
    obtain ⟨journal, hread⟩ := reads_readArguments f 0 hslots
    simp only [bind_eq (readArguments f 0 slots), hread]
    cases lookArguments s.env f 0 slots with
    | error e => exact ⟨journal, rfl⟩
    | ok args => exact @reads_applyTurn ⟨s.env, journal, s.failure⟩ f args below

inductive TurnsTo (instruction : Instruction) (more : Program) (stack : Stack) (s : State) :
    Outcome (Turn × Program) → Prop where
  | stopped (error : Error) {s' : State} (henv : s'.env = s.env) :
      TurnsTo instruction more stack s (.stopped error s')
  | ended {after : Stack} {rest : Program} {s' : State}
      (hlength : rest.length ≤ more.length) (hwrite : MayWrite s.env s'.env)
      (hfailure : s'.failure = s.failure.after (attempt s.env instruction stack))
      (hfailed : .failed ∈ after → .failed ∈ stack ∨ ¬ (attempt s.env instruction stack).isOk)
      (hresult : ¬ (attempt s.env instruction stack).isOk → ∃ below, after = .failed :: below)
      (hblock : ∀ body, .block body ∈ after → .block body ∈ stack ∨ body.length < more.length) :
      TurnsTo instruction more stack s (.done (.ended after, rest) s')
  | pending {inner : Inner} {below : Stack} {s' : State} (henv : s'.env = s.env)
      (hfailure : s'.failure = s.failure.after (attempt s.env instruction stack))
      (hcondition : ¬ (attempt s.env instruction stack).isOk → instruction = .operator .question)
      (hbelow : ∀ slot ∈ below, slot ∈ stack)
      (hbranch : ∀ body, inner = .branch body → .block body ∈ stack) :
      TurnsTo instruction more stack s (.done (.pending inner below, more) s')

theorem isOk_map {α β : Type} (r : Except Error α) (f : α → β) : (r.map f).isOk = r.isOk := by
  cases r <;> rfl

theorem after_map {α β : Type} (slot : FirstError) (r : Except Error α) (f : α → β) :
    slot.after (r.map f) = slot.after r := by
  cases r <;> rfl

theorem mem_ofResult {r : Except Error Value} {slot : Slot} {below : Stack}
    (h : slot ∈ Slot.ofResult r :: below) :
    slot ∈ below ∨ (∃ v, slot = .value v) ∨ slot = .failed ∧ ¬ r.isOk := by
  rcases List.mem_cons.1 h with rfl | hbelow
  · cases r with
    | ok v => exact .inr (.inl ⟨v, rfl⟩)
    | error e => exact .inr (.inr ⟨rfl, nofun⟩)
  · exact .inl hbelow

/-- An instruction that gives a result on top of entries that were there. -/
theorem TurnsTo.result {instruction : Instruction} {more : Program} {r : Except Error Value}
    {below : Stack} {env : Environment} {journal : List Event} (hwrite : MayWrite s.env env)
    (hbelow : ∀ slot ∈ below, slot ∈ stack)
    (hattempt : attempt s.env instruction stack = r.map fun _ => ()) :
    TurnsTo instruction more stack s
      (.done (.ended (.ofResult r :: below), more) ⟨env, journal, s.failure.after r⟩) := by
  refine .ended (Nat.le_refl _) hwrite ?_ (fun hmem => ?_) (fun hr => ?_) fun body hmem => ?_
  · rw [hattempt, after_map]
  · rw [hattempt, isOk_map]
    rcases mem_ofResult hmem with hslot | ⟨v, heq⟩ | ⟨-, hr⟩
    · exact .inl (hbelow _ hslot)
    · cases heq
    · exact .inr hr
  · rw [hattempt, isOk_map] at hr
    cases r with
    | ok v => exact absurd rfl hr
    | error e => exact ⟨below, rfl⟩
  · rcases mem_ofResult hmem with hslot | ⟨v, heq⟩ | ⟨heq, -⟩
    · exact .inl (hbelow _ hslot)
    · cases heq
    · cases heq

/-- An instruction that only pushes. -/
theorem TurnsTo.push {instruction : Instruction} {more rest : Program} {slot : Slot}
    (hlength : rest.length ≤ more.length) (hattempt : attempt s.env instruction stack = .ok ())
    (hfailed : slot ≠ .failed) (hblock : ∀ body, slot = .block body → body.length < more.length) :
    TurnsTo instruction more stack s (.done (.ended (slot :: stack), rest) s) := by
  refine .ended hlength .nothing (by rw [hattempt]; rfl) (fun hmem => ?_) (fun hr => ?_)
    fun body hmem => ?_
  · rcases List.mem_cons.1 hmem with heq | hbelow
    · exact absurd heq.symm hfailed
    · exact .inl hbelow
  · exact absurd (by rw [hattempt]; rfl) hr
  · rcases List.mem_cons.1 hmem with heq | hbelow
    · exact .inr (hblock body heq.symm)
    · exact .inl hbelow

theorem turnsTo_conditional (more : Program) (h : IsReported stack s.failure) :
    TurnsTo (.operator .question) more stack s (turn (.operator .question) more stack s) := by
  obtain ⟨journal, hpop⟩ := reads_popValue h
  have hdrop : ∀ slot ∈ stack.drop 1, slot ∈ stack := fun _ => List.mem_of_mem_drop
  have hattempt : attempt s.env (.operator .question) stack = (look s.env stack).map fun _ => () :=
    rfl
  change TurnsTo _ _ _ _ ((conditionalTurn stack >>= _) s)
  rw [conditionalTurn, bind_assoc, bind_eq, hpop]
  dsimp only
  generalize stack.drop 1 = rest at hdrop ⊢
  split
  · next second first below =>
    refine .pending rfl ?_ (fun _ => rfl) (fun slot hslot => ?_) fun body hbody => ?_
    · rw [hattempt, after_map]
    · exact hdrop slot (by simp [hslot])
    · cases hbody
      split <;> exact hdrop _ (by simp)
  · exact .stopped _ rfl

theorem turnsTo_operator (op : Operator) (more : Program) (h : IsReported stack s.failure) :
    TurnsTo (.operator op) more stack s (turn (.operator op) more stack s) := by
  by_cases hone : op.takesOne
  · obtain ⟨journal, hunary⟩ := reads_unary op h
    rw [turn, operatorTurn_of_takesOne hone, bind_assoc, bind_eq, hunary]
    exact .result .nothing (fun _ => List.mem_of_mem_drop) (by simp only [attempt, hone, if_true])
  · by_cases htwo : op.takesTwo
    · obtain ⟨journal, hbinary⟩ := reads_binary op h
      rw [turn, operatorTurn_of_takesTwo htwo, bind_assoc, bind_eq, hbinary]
      refine .result .nothing (fun _ => List.mem_of_mem_drop) ?_
      simp only [attempt, hone, htwo, if_true, Bool.false_eq_true, if_false]
    · cases op with
      | comma => exact .ended (Nat.le_refl _) .nothing rfl .inl (absurd rfl ·) fun _ => .inl
      | assign =>
        obtain ⟨env, journal, hwrite, hassign⟩ := assign_eq h
        change TurnsTo _ _ _ _ (((assign stack >>= fun after => pure (Turn.ended after)) >>= _) s)
        rw [bind_assoc, bind_eq, hassign]
        exact .result hwrite (fun _ => List.mem_of_mem_drop) rfl
      | question => exact turnsTo_conditional more h
      | _ => first | exact absurd rfl hone | exact absurd rfl htwo | exact .stopped _ rfl

theorem turnsTo_call (name : String) (target : Option FunctionId) (more : Program)
    (h : IsReported stack s.failure) :
    TurnsTo (.call name target) more stack s (turn (.call name target) more stack s) := by
  cases hsplit : splitCall [] stack with
  | none =>
    rw [turn, callTurn, hsplit]
    exact .stopped _ rfl
  | some parts =>
    obtain ⟨slots, below⟩ := parts
    obtain ⟨journal, hcall⟩ := reads_callTurn name target hsplit h
    have hattempt : attempt s.env (.call name target) stack =
        (callResult s.env name target slots).map fun _ => () := by
      rw [attempt, hsplit]
    have hbelow : ∀ slot ∈ below, slot ∈ stack := by
      obtain ⟨taken, -, rfl⟩ := eq_append_of_splitCall hsplit
      exact fun slot hslot => by simp [hslot]
    rw [turn, bind_eq, hcall]
    cases hresult : callResult s.env name target slots with
    | error e =>
      rw [hresult] at hattempt
      exact .result (r := .error e) .nothing hbelow hattempt
    | ok given =>
      rw [hresult] at hattempt
      cases given with
      | value v => exact .result (r := .ok v) .nothing hbelow hattempt
      | formula f parameters text args =>
        refine .pending rfl (by rw [hattempt]; rfl) (fun hr => ?_) hbelow fun _ hbranch => ?_
        · exact absurd (by rw [hattempt]; rfl) hr
        · cases hbranch

/-- A failed entry comes only with a failure, and a block only from the program. -/
theorem turnsTo (instruction : Instruction) (more : Program) (h : IsReported stack s.failure) :
    TurnsTo instruction more stack s (turn instruction more stack s) := by
  cases instruction with
  | name | value | openCall =>
    exact .push (Nat.le_refl _) rfl (fun heq => by cases heq) fun _ hbody => by cases hbody
  | startBlock =>
    rw [turn]
    cases hsplit : splitBlock 0 more with
    | none => exact .stopped _ rfl
    | some parts =>
      obtain ⟨body, rest⟩ := parts
      have hlength := length_splitBlock hsplit
      refine .push (by omega) rfl (fun heq => by cases heq) fun body' hbody => ?_
      cases hbody
      omega
  | endBlock => exact .stopped _ rfl
  | call name target => exact turnsTo_call name target more h
  | operator op => exact turnsTo_operator op more h

end Reckoner.Machine
