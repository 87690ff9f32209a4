import Reckoner.Proofs.Machine.Launches

/-!
What an instruction comes to, said in full: the entries that it leaves, what is nested in it and the
one value that it may write. The first half of an instruction is opened here only; what later proofs
need about stacks and variables they read off these cases.
-/

namespace Reckoner.Machine

inductive Assigns (env : Environment) (stack : Stack) : Environment → Prop where
  | nothing : Assigns env stack env
  | write {name : String} {v : Value} {scope : Scope} (hlook : look env stack = .ok v)
      (hset : env.scope.set name v = .ok scope) : Assigns env stack { env with scope }

def pushed? : Instruction → Option Slot
  | .name name => some (.name name)
  | .value v => some (.value v)
  | .openCall => some .openCall
  | _ => none

inductive Config.Turns (c : Config) : Turn → Program → Environment → Prop where
  | push {instruction : Instruction} {more : Program} {slot : Slot}
      (hprogram : c.program = instruction :: more) (hslot : pushed? instruction = some slot) :
      Turns c (.ended (slot :: c.stack)) more c.state.env
  | block {more body rest : Program} (hprogram : c.program = .startBlock :: more)
      (hsplit : splitBlock 0 more = some (body, rest)) :
      Turns c (.ended (.block body :: c.stack)) rest c.state.env
  | comma {more : Program} (hprogram : c.program = .operator .comma :: more) :
      Turns c (.ended c.stack) more c.state.env
  | unary {op : Operator} {more : Program} (hprogram : c.program = .operator op :: more)
      (hone : op.takesOne) :
      Turns c (.ended (.ofResult (unaryResult c.state.env op c.stack) :: c.stack.drop 1)) more
        c.state.env
  | binary {op : Operator} {more : Program} (hprogram : c.program = .operator op :: more)
      (htwo : op.takesTwo) :
      Turns c (.ended (.ofResult (binaryResult c.state.env op c.stack) :: c.stack.drop 2)) more
        c.state.env
  | assign {more : Program} {env : Environment}
      (hprogram : c.program = .operator .assign :: more)
      (hassigns : Assigns c.state.env c.stack env) :
      Turns c (.ended (.ofResult (assignResult c.state.env c.stack) :: c.stack.drop 2)) more env
  | question {more body second first : Program} {below : Stack}
      (hprogram : c.program = .operator .question :: more)
      (hbranches : c.stack.drop 1 = .block second :: .block first :: below)
      (hbody : body = second ∨ body = first) :
      Turns c (.pending (.branch body) below) more c.state.env
  | call {name : String} {target : Option FunctionId} {more : Program} {slots : List Slot}
      {below : Stack} (hprogram : c.program = .call name target :: more)
      (hsplit : splitCall [] c.stack = some (slots, below)) :
      Turns c (.ofGiven below (callResult c.state.env name target slots)) more c.state.env

variable {s : State} {c : Config}

/-- An assignment writes nothing but the newest entry. -/
theorem assigns_of_assign {stack after : Stack} {s' : State} (h : IsReported stack s.failure)
    (hassign : assign stack s = .done after s') : Assigns s.env stack s'.env := by
  rcases assign_cases h with ⟨e, journal, -, hdone⟩ | ⟨_, _, _, _, journal, hlook, -, hset, hdone⟩
  · cases hdone.symm.trans hassign
    exact .nothing
  · cases hdone.symm.trans hassign
    exact .write hlook hset

/-- These are all the cases. -/
theorem turns_of_next? {half : Turn} {rest : Program} (hsound : c.IsSound)
    (hnext : c.next? = some (.done (half, rest) s)) : c.Turns half rest s.env := by
  obtain ⟨program, stack, state⟩ := c
  cases program with
  | nil => cases hnext
  | cons instruction more =>
    have hturn := Option.some.inj hnext
    cases instruction with
    | name | value | openCall =>
      cases hturn
      exact .push rfl rfl
    | startBlock =>
      rw [turn] at hturn
      cases hsplit : splitBlock 0 more with
      | none =>
        rw [hsplit] at hturn
        cases hturn
      | some parts =>
        rw [hsplit] at hturn
        cases hturn
        exact .block rfl hsplit
    | endBlock => cases hturn
    | call name target =>
      rw [turn] at hturn
      cases hsplit : splitCall [] stack with
      | none =>
        rw [callTurn, hsplit] at hturn
        cases hturn
      | some parts =>
        obtain ⟨slots, below⟩ := parts
        obtain ⟨journal, hcall⟩ := reads_callTurn name target hsplit hsound
        rw [bind_eq, hcall] at hturn
        cases hturn
        exact .call rfl hsplit
    | operator op =>
      by_cases hone : op.takesOne
      · obtain ⟨journal, hunary⟩ := reads_unary op hsound
        rw [turn, operatorTurn_of_takesOne hone, bind_assoc, bind_eq, hunary] at hturn
        cases hturn
        exact .unary rfl hone
      · by_cases htwo : op.takesTwo
        · obtain ⟨journal, hbinary⟩ := reads_binary op hsound
          rw [turn, operatorTurn_of_takesTwo htwo, bind_assoc, bind_eq, hbinary] at hturn
          cases hturn
          exact .binary rfl htwo
        · cases op with
          | comma =>
            cases hturn
            exact .comma rfl
          | assign =>
            obtain ⟨env, journal, -, hassign⟩ := assign_eq hsound
            have hassigns := assigns_of_assign hsound hassign
            change ((assign stack >>= fun after => pure (Turn.ended after)) >>= _) _ = _ at hturn
            rw [bind_assoc, bind_eq, hassign] at hturn
            cases hturn
            exact .assign rfl hassigns
          | question =>
            obtain ⟨journal, hpop⟩ := reads_popValue hsound
            change (conditionalTurn stack >>= _) _ = _ at hturn
            rw [conditionalTurn, bind_assoc, bind_eq, hpop] at hturn
            dsimp only at hturn
            split at hturn
            · next second first below hbranches =>
              cases hturn
              refine .question rfl hbranches ?_
              split
              · exact .inr rfl
              · exact .inl rfl
            · cases hturn
          | _ => first | exact absurd rfl hone | exact absurd rfl htwo | cases hturn

inductive Gives (env : Environment) (target : Option FunctionId) (slots : List Slot) : Given → Prop
    where
  | value {f : Function} {args : List Value} {v : Value}
      (hfind : target.bind env.registry.find? = some f) (hnative : f.isFormula = false)
      (hargs : lookArguments env f 0 slots = .ok args) (hvalid : f.validate args = .ok ())
      (hresult : f.invoke env.view args = .ok v) : Gives env target slots (.value v)
  | formula {f : Function} {parameters : List String} {text : String} {args : List Value}
      (hfind : target.bind env.registry.find? = some f) (hbody : f.body = .formula parameters text)
      (hargs : lookArguments env f 0 slots = .ok args) (hvalid : f.validate args = .ok ()) :
      Gives env target slots (.formula f parameters text args)

theorem gives_of_callResult {env : Environment} {name : String} {target : Option FunctionId}
    {slots : List Slot} {given : Given} (h : callResult env name target slots = .ok given) :
    Gives env target slots given := by
  unfold callResult at h
  cases hfind : target.bind env.registry.find? with
  | none =>
    rw [hfind] at h
    cases h
  | some f =>
    rw [hfind] at h
    obtain ⟨args, hargs, h⟩ := Program.bind_eq_ok.1 h
    obtain ⟨_, hvalid, h⟩ := Program.bind_eq_ok.1 h
    cases hbody : f.body with
    | formula parameters text =>
      rw [hbody] at h
      cases h
      exact .formula hfind hbody hargs hvalid
    | native | object =>
      have hnative : f.isFormula = false := by rw [Function.isFormula, hbody]
      rw [hbody] at h
      obtain ⟨v, hresult, h⟩ := Program.bind_eq_ok.1 h
      cases h
      exact .value hfind hnative hargs hvalid hresult

/-- A formula is run for a call of it, with its arguments converted and checked. -/
theorem call_of_pending {f : Function} {parameters : List String} {text : String}
    {args : List Value} {below : Stack} {rest : Program} (hsound : c.IsSound)
    (hnext : c.next? = some (.done (.pending (.formula f parameters text args) below, rest) s)) :
    ∃ name target slots, c.program = .call name target :: rest ∧
      splitCall [] c.stack = some (slots, below) ∧
      target.bind c.state.env.registry.find? = some f ∧ f.body = .formula parameters text ∧
      lookArguments c.state.env f 0 slots = .ok args ∧ f.validate args = .ok () := by
  have hturns := turns_of_next? hsound hnext
  generalize hhalf : Turn.pending (.formula f parameters text args) below = half,
    s.env = env at hturns
  cases hturns with
  | question => cases hhalf
  | @call name target more slots below' hprogram hsplit =>
    cases hgiven : callResult c.state.env name target slots with
    | error e =>
      rw [hgiven] at hhalf
      cases hhalf
    | ok given =>
      have hgives := gives_of_callResult hgiven
      rw [hgiven] at hhalf
      cases hgives with
      | value => cases hhalf
      | formula hfind hbody hargs hvalid =>
        cases hhalf
        exact ⟨name, target, slots, hprogram, hsplit, hfind, hbody, hargs, hvalid⟩
  | _ => cases hhalf

end Reckoner.Machine
