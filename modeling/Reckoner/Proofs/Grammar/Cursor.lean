import Reckoner.Proofs.Grammar.Unambiguous

/-!
Reading with a cursor. A reader takes one token after the other from a fixed list and keeps the
first error it meets, and nothing puts its cursor back when it gives no tree. The productions are
performed by such readers, each deciding by the operator at the cursor. They come to what the
productions make of the tokens at the cursor: a reader stops behind the tokens of its tree and has
met no error, or it has met one, or it has taken nothing.
-/

namespace Reckoner.Grammar

open Reckoner.Tree (Level levels among? unaryOperators suffixOperators Fault Outcome Shows)

structure Cursor where
  position : Nat
  error : FirstError

structure Reader (α : Type) where
  run : Cursor → Option α × Cursor

namespace Reader

variable {α β : Type}

def onward (f : α → Reader β) : Option α × Cursor → Option β × Cursor
  | (some a, c) => (f a).run c
  | (none, c) => (none, c)

instance : Monad Reader where
  pure a := ⟨fun c => (some a, c)⟩
  bind m f := ⟨fun c => onward f (m.run c)⟩

def nothing : Reader α := ⟨fun c => (none, c)⟩

def fail (fault : Fault) : Reader α :=
  ⟨fun c => (none, { c with error := c.error.set fault.toError })⟩

def orFail (m : Reader α) (fault : Fault) : Reader α := ⟨fun c =>
  match m.run c with
  | (some a, after) => (some a, after)
  | (none, after) => (fail fault).run after⟩

def orFailBack (m : Reader α) (position : Nat) (fault : Fault) : Reader α := ⟨fun c =>
  match m.run c with
  | (some a, after) => (some a, after)
  | (none, after) =>
    if after.error.isSet then (none, after) else (fail fault).run { after with position }⟩

def position : Reader Nat := ⟨fun c => (some c.position, c)⟩

variable (tokens : List Token)

def peek : Reader (Option Token) := ⟨fun c => (some tokens[c.position]?, c)⟩

def peekOperatorAt (offset : Nat) : Reader (Option Operator) :=
  ⟨fun c => (some (tokens[c.position + offset]?.bind Token.operator?), c)⟩

def peekOperator : Reader (Option Operator) := peekOperatorAt tokens 0

def take : Reader Token := ⟨fun c =>
  match tokens[c.position]? with
  | some token => (some token, { c with position := c.position + 1 })
  | none => (none, c)⟩

theorem run_bind (m : Reader α) (f : α → Reader β) (c : Cursor) :
    (m >>= f).run c = onward f (m.run c) := rfl

theorem run_orFail (m : Reader α) (fault : Fault) (c : Cursor) :
    (m.orFail fault).run c =
      match m.run c with
      | (some a, after) => (some a, after)
      | (none, after) => (none, { after with error := after.error.set fault.toError }) := rfl

theorem run_orFailBack (m : Reader α) (position : Nat) (fault : Fault) (c : Cursor) :
    (m.orFailBack position fault).run c =
      match m.run c with
      | (some a, after) => (some a, after)
      | (none, after) =>
        if after.error.isSet then (none, after)
        else (none, ⟨position, after.error.set fault.toError⟩) := rfl

section Bind

variable {k : Nat} {error : FirstError}

theorem run_position_bind (f : Nat → Reader β) :
    (position >>= f).run ⟨k, error⟩ = (f k).run ⟨k, error⟩ := rfl

theorem run_peek_bind (f : Option Token → Reader β) :
    (peek tokens >>= f).run ⟨k, error⟩ = (f tokens[k]?).run ⟨k, error⟩ := rfl

theorem run_peekOperatorAt_bind (offset : Nat) (f : Option Operator → Reader β) :
    (peekOperatorAt tokens offset >>= f).run ⟨k, error⟩ =
      (f (tokens[k + offset]?.bind Token.operator?)).run ⟨k, error⟩ := rfl

theorem run_peekOperator_bind (f : Option Operator → Reader β) :
    (peekOperator tokens >>= f).run ⟨k, error⟩ =
      (f (tokens[k]?.bind Token.operator?)).run ⟨k, error⟩ := rfl

theorem run_take_bind {token : Token} (h : tokens[k]? = some token) (f : Token → Reader β) :
    (take tokens >>= f).run ⟨k, error⟩ = (f token).run ⟨k + 1, error⟩ := by
  rw [run_bind, take]
  simp only [h, onward]

end Bind

def close (build : Token → Tree) : Reader Tree := do
  if (← peekOperator tokens) = some .closeBracket then return build (← take tokens)
  else fail .missingClose

end Reader

open Reader

inductive Production where
  | list
  | assignment
  | conditional
  | binary (level : Nat)
  | unary
  | power
  | suffix
  | arguments
  | primary

def Production.symbol : Production → Symbol
  | list => .list
  | assignment => .assignment
  | conditional => .conditional
  | binary level => .binary (levels.drop level)
  | unary => .unary
  | power => .power
  | suffix => .suffix
  | arguments => .arguments
  | primary => .primary

/-- A production, or one of the loops behind the first part of a production. -/
inductive Stage where
  | start (production : Production)
  | list (left : Tree)
  | binary (level : Level) (tighter : Nat) (left : Tree)
  | suffix (operand : Tree)
  | arguments (read : List Tree)

namespace Stage

variable (tokens : List Token) (self : Stage → Reader Tree)

def call : Reader Tree := do
  let name ← take tokens
  let bracket ← take tokens
  if (← peekOperator tokens) = some .closeBracket then
    return .node .suffix [.leaf name, .leaf bracket, .leaf (← take tokens)]
  else
    let args ← (self (.start .arguments)).orFail .missingClose
    close tokens fun last => .node .suffix [.leaf name, .leaf bracket, args, .leaf last]

def group : Reader Tree := do
  let start ← position
  let bracket ← take tokens
  let inside ← peek tokens
  if inside.isNone ∨ inside.bind Token.operator? = some .closeBracket then
    fail .missingExpression
  else
    let inner ← (self (.start .list)).orFailBack start .missingExpression
    close tokens fun last => .node .group [.leaf bracket, inner, .leaf last]

def operand : Reader Tree := do
  let name := (← peek tokens).bind Token.name?
  if name.isSome ∧ (← peekOperatorAt tokens 1) = some .openBracket then call tokens self
  else self (.start .primary)

def step : Stage → Reader Tree
  | start .list => do
    let first ← self (.start .assignment)
    self (.list first)
  | list left => do
    if (← peekOperator tokens) = some .comma then
      let comma ← take tokens
      let right ← (self (.start .assignment)).orFail .missingAssignment
      self (.list (.node .list [left, .leaf comma, right]))
    else return left
  | start .assignment => do
    let target ← self (.start .conditional)
    match ← peekOperator tokens with
    | none => return target
    | some op =>
      if op.isAssignment ∧ target.isUnaryLevel then
        let token ← take tokens
        let value ← (self (.start .assignment)).orFail (.missingOperand op)
        return .node .assignment [target, .leaf token, value]
      else return target
  | start .conditional => do
    let condition ← self (.start (.binary 0))
    if (← peekOperator tokens) = some .question then
      let mark ← take tokens
      let first ← (self (.start .list)).orFail (.missingOperand .question)
      if (← peekOperator tokens) = some .colon then
        let sep ← take tokens
        let second ← (self (.start .conditional)).orFail (.missingOperand .colon)
        return .node .conditional [condition, .leaf mark, first, .leaf sep, second]
      else fail .missingColon
    else return condition
  | start (.binary n) =>
    match levels[n]? with
    | none => self (.start .unary)
    | some level => do
      let left ← self (.start (.binary (n + 1)))
      self (.binary level (n + 1) left)
  | binary level tighter left => do
    match (← peekOperator tokens).filter (· ∈ level.operators) with
    | none => return left
    | some op =>
      let token ← take tokens
      let right ← (self (.start (.binary tighter))).orFail (.missingOperand op)
      self (.binary level tighter (.node level.rule [left, .leaf token, right]))
  | start .unary => do
    match (← peekOperator tokens).filter (· ∈ unaryOperators) with
    | none => self (.start .power)
    | some op =>
      let token ← take tokens
      let operand ← (self (.start .unary)).orFail (.missingOperand op)
      return .node .unary [.leaf token, operand]
  | start .power => do
    let base ← self (.start .suffix)
    if (← peekOperator tokens) = some .power then
      let token ← take tokens
      let exponent ← (self (.start .unary)).orFail (.missingOperand .power)
      return .node .power [base, .leaf token, exponent]
    else return base
  | start .suffix => do
    let operand ← operand tokens self
    self (.suffix operand)
  | suffix operand => do
    match (← peekOperator tokens).filter (· ∈ suffixOperators) with
    | none => return operand
    | some _ =>
      let token ← take tokens
      self (.suffix (.node .suffix [operand, .leaf token]))
  | start .arguments => do
    let first ← self (.start .assignment)
    self (.arguments [first])
  | arguments read => do
    if (← peekOperator tokens) = some .comma then
      let _ ← take tokens
      let next ← (self (.start .assignment)).orFail .missingAssignment
      self (.arguments (read ++ [next]))
    else return .node .arguments read
  | start .primary => do
    match ← peek tokens with
    | none => nothing
    | some token =>
      match token.operator? with
      | none => return .leaf (← take tokens)
      | some .openBracket => group tokens self
      | some _ => nothing

def perform : (fuel : Nat) → Stage → Reader Tree
  | 0 => fun _ => nothing
  | fuel + 1 => step tokens (perform fuel)

def bound (tokens : List Token) : Stage → Nat
  | start _ => tokens.length
  | _ => tokens.length + 1

def outcome (tokens : List Token) : (stage : Stage) → Outcome (stage.bound tokens)
  | start production => production.symbol.read tokens
  | list left => Tree.listTail left tokens
  | binary level tighter left => Tree.binaryTail level (levels.drop tighter) left tokens
  | suffix operand => Tree.steps operand tokens
  | arguments read => Tree.argumentsTail read tokens

def rank : Stage → Nat
  | start .list | start .arguments => 18
  | start .assignment => 17
  | start .conditional => 16
  | start (.binary level) => 5 + (levels.length - level)
  | start .unary => 4
  | start .power => 3
  | start .suffix => 2
  | start .primary => 1
  | list _ | binary .. | suffix _ | arguments _ => 1

def weight (position : Nat) (stage : Stage) : Nat :=
  20 * (tokens.length - position) + stage.rank

end Stage

section Ends

variable (tokens : List Token)

/-- A reader has stopped where a production stops, which has found its tree or has failed. -/
inductive Ends {bound : Nat} : Outcome bound → Option Tree × Cursor → Prop
  | parsed {tree : Tree} {rest : List Token} {shorter : rest.length < bound} {position : Nat}
      (hrest : tokens.drop position = rest) (hle : position ≤ tokens.length) :
      Ends (.parsed tree rest shorter) (some tree, ⟨position, .none⟩)
  | failed {fault : Fault} {rest : List Token} {position : Nat}
      (hrest : tokens.drop position = rest) (hle : position ≤ tokens.length) :
      Ends (.failed fault rest) (none, ⟨position, FirstError.none.set fault.toError⟩)

/-- The same, or the production is absent and the reader has not moved. -/
def Agrees {bound : Nat} (position : Nat) (outcome : Outcome bound)
    (result : Option Tree × Cursor) : Prop :=
  Ends tokens outcome result ∨ outcome = .absent ∧ result = (none, ⟨position, .none⟩)

variable {tokens} {a b k : Nat} {outcome : Outcome a} {m : Reader Tree} {c : Cursor}
  {rest : List Token}

theorem Ends.widen {result : Option Tree × Cursor} (h : Ends tokens outcome result) (hab : a ≤ b) :
    Ends tokens (outcome.widen hab) result := by
  cases h with
  | parsed hrest hle => exact .parsed hrest hle
  | failed hrest hle => exact .failed hrest hle

theorem Ends.andThen {f : Tree → Reader Tree}
    {next : (tree : Tree) → (rest : List Token) → rest.length < a → Outcome b}
    (h : Ends tokens outcome (m.run c))
    (hnext : ∀ tree position (shorter : (tokens.drop position).length < a),
      position ≤ tokens.length →
        Ends tokens (next tree (tokens.drop position) shorter) ((f tree).run ⟨position, .none⟩)) :
    Ends tokens (outcome.andThen next) ((m >>= f).run c) := by
  rw [run_bind]
  generalize m.run c = result at h
  cases h with
  | @parsed tree rest shorter position hrest hle =>
    subst hrest
    exact hnext tree position shorter hle
  | failed hrest hle => exact .failed hrest hle

theorem Agrees.andThen {f : Tree → Reader Tree}
    {next : (tree : Tree) → (rest : List Token) → rest.length < a → Outcome b}
    (h : Agrees tokens k outcome (m.run c))
    (hnext : ∀ tree position (shorter : (tokens.drop position).length < a),
      position ≤ tokens.length →
        Ends tokens (next tree (tokens.drop position) shorter) ((f tree).run ⟨position, .none⟩)) :
    Agrees tokens k (outcome.andThen next) ((m >>= f).run c) := by
  obtain h | ⟨rfl, hresult⟩ := h
  · exact .inl (h.andThen hnext)
  · rw [run_bind, hresult]
    exact .inr ⟨rfl, rfl⟩

/-- A reader whose tree is required stops with it, or with a fault. -/
theorem Agrees.required {fault : Fault} (h : Agrees tokens k outcome (m.run c))
    (hrest : tokens.drop k = rest) (hle : k ≤ tokens.length) :
    Ends tokens (outcome.required fault rest) ((m.orFail fault).run c) := by
  rw [run_orFail]
  generalize m.run c = result at h
  obtain h | ⟨rfl, rfl⟩ := h
  · cases h with
    | parsed hrest' hle => exact .parsed hrest' hle
    | failed hrest' hle' =>
      simp only [FirstError.set_set]
      exact .failed hrest' hle'
  · exact .failed hrest hle

/-- The same for a reader that is put back before it reports a fault of its own. -/
theorem Agrees.requiredBack {j : Nat} {fault : Fault} (h : Agrees tokens k outcome (m.run c))
    (hrest : tokens.drop j = rest) (hle : j ≤ tokens.length) :
    Ends tokens (outcome.required fault rest) ((m.orFailBack j fault).run c) := by
  rw [run_orFailBack]
  generalize m.run c = result at h
  obtain h | ⟨rfl, rfl⟩ := h
  · cases h with
    | parsed hrest' hle => exact .parsed hrest' hle
    | failed hrest' hle' =>
      simp only [FirstError.isSet_set, if_true]
      exact .failed hrest' hle'
  · exact .failed hrest hle

theorem eq_of_drop_eq {i j : Nat} (h : tokens.drop i = tokens.drop j) (hi : i ≤ tokens.length)
    (hj : j ≤ tokens.length) : i = j := by
  have hlength := congrArg List.length h
  rw [List.length_drop, List.length_drop] at hlength
  omega

theorem Ends.unique {result result' : Option Tree × Cursor} (h : Ends tokens outcome result)
    (h' : Ends tokens outcome result') : result = result' := by
  cases h with
  | parsed hrest hle =>
    cases h' with
    | parsed hrest' hle' => rw [eq_of_drop_eq (hrest.trans hrest'.symm) hle hle']
  | failed hrest hle =>
    cases h' with
    | failed hrest' hle' => rw [eq_of_drop_eq (hrest.trans hrest'.symm) hle hle']

theorem Agrees.unique {result result' : Option Tree × Cursor} (h : Agrees tokens k outcome result)
    (h' : Agrees tokens k outcome result') : result = result' := by
  obtain h | ⟨rfl, rfl⟩ := h
  · obtain h' | ⟨rfl, rfl⟩ := h'
    · exact h.unique h'
    · cases h
  · obtain h' | ⟨-, rfl⟩ := h'
    · cases h'
    · rfl

theorem Ends.tree?_eq {result : Option Tree × Cursor} (h : Ends tokens outcome result) :
    outcome.tree? = result.1 := by
  cases h <;> rfl

theorem Ends.rest_eq {result : Option Tree × Cursor} (h : Ends tokens outcome result)
    (start : List Token) : outcome.rest start = tokens.drop result.2.position := by
  cases h with
  | parsed hrest => exact hrest.symm
  | failed hrest => exact hrest.symm

theorem Agrees.tree?_eq {result : Option Tree × Cursor} (h : Agrees tokens k outcome result) :
    outcome.tree? = result.1 := by
  obtain h | ⟨rfl, rfl⟩ := h
  · exact h.tree?_eq
  · rfl

theorem Agrees.rest_eq {result : Option Tree × Cursor} (h : Agrees tokens k outcome result) :
    outcome.rest (tokens.drop k) = tokens.drop result.2.position := by
  obtain h | ⟨rfl, rfl⟩ := h
  · exact h.rest_eq _
  · rfl

end Ends

namespace Stage

variable (tokens : List Token) (self : Stage → Reader Tree)

def IsPerformed (stage : Stage) (k : Nat) : Prop :=
  match stage with
  | start production =>
    Agrees tokens k (production.symbol.read (tokens.drop k))
      ((self (.start production)).run ⟨k, .none⟩)
  | stage =>
    k ≤ tokens.length →
      Ends tokens (stage.outcome (tokens.drop k)) ((self stage).run ⟨k, .none⟩)

def Below (limit : Nat) : Prop :=
  ∀ stage k, weight tokens k stage < limit → stage.IsPerformed tokens self k

variable {tokens self} {j k : Nat} {stage : Stage}

theorem rank_lt (stage : Stage) : stage.rank < 20 := by
  have hlevels : levels.length = 10 := rfl
  unfold rank
  split <;> omega

theorem Below.lower (h : Below tokens self (weight tokens k stage)) (other : Stage)
    (hrank : other.rank < stage.rank) : other.IsPerformed tokens self k :=
  h other k (Nat.add_lt_add_left hrank _)

theorem Below.later (h : Below tokens self (weight tokens k stage)) (other : Stage)
    (hlt : (tokens.drop j).length < (tokens.drop k).length) : other.IsPerformed tokens self j := by
  apply h
  have hrank := other.rank_lt
  rw [List.length_drop, List.length_drop] at hlt
  unfold weight
  omega

theorem drop_cases (tokens : List Token) (k : Nat) :
    (tokens.drop k = [] ∧ tokens[k]? = none) ∨
      ∃ token, tokens.drop k = token :: tokens.drop (k + 1) ∧ tokens[k]? = some token ∧
        k < tokens.length := by
  obtain hle | hlt := le_or_gt tokens.length k
  · exact .inl ⟨List.drop_eq_nil_of_le hle, List.getElem?_eq_none hle⟩
  · exact .inr ⟨tokens[k], List.drop_eq_getElem_cons hlt, List.getElem?_eq_getElem hlt, hlt⟩

/-- There is no operator where there is no token. -/
theorem none_bind_ne (op : Operator) : (none : Option Token).bind Token.operator? ≠ some op := by
  rintro ⟨⟩

theorem length_drop_succ_lt (h : k < tokens.length) :
    (tokens.drop (k + 1)).length < (tokens.drop k).length := by
  rw [List.length_drop, List.length_drop]
  omega

/-! One statement for each production and each loop. -/

theorem isPerformed_listTail {left : Tree}
    (hself : Below tokens self (weight tokens k (.list left))) :
    IsPerformed tokens (step tokens self) (.list left) k := by
  intro hle
  rw [step, run_peekOperator_bind, outcome]
  obtain ⟨hnil, hnone⟩ | ⟨comma, hcons, hsome, hlt⟩ := drop_cases tokens k
  · rw [hnil, hnone, Tree.listTail, if_neg (none_bind_ne _)]
    exact .parsed hnil hle
  · rw [hcons, hsome, Tree.listTail, Option.bind_some]
    split
    · rw [run_take_bind _ hsome]
      have hshorter := length_drop_succ_lt hlt
      refine ((hself.later (.start .assignment) hshorter).required rfl hlt).andThen ?_
      intro right j shorter hj
      exact (hself.later (.list _) (shorter.trans hshorter) hj).widen _
    · exact .parsed hcons hle

theorem isPerformed_list (hself : Below tokens self (weight tokens k (.start .list))) :
    IsPerformed tokens (step tokens self) (.start .list) k := by
  change Agrees tokens k (Tree.list _) _
  rw [step, Tree.list]
  refine Agrees.andThen (hself.lower (.start .assignment) (by decide)) ?_
  intro first j shorter hj
  exact (hself.later (.list first) shorter hj).widen _

theorem isPerformed_assignment (hself : Below tokens self (weight tokens k (.start .assignment))) :
    IsPerformed tokens (step tokens self) (.start .assignment) k := by
  change Agrees tokens k (Tree.assignment _) _
  rw [step, Tree.assignment]
  refine Agrees.andThen (hself.lower (.start .conditional) (by decide)) ?_
  intro target j shorter hj
  rw [run_peekOperator_bind]
  obtain ⟨hnil, hnone⟩ | ⟨token, hcons, hsome, hlt⟩ := drop_cases tokens j
  · -- The match carries the bound along, so both are rewritten together.
    revert shorter
    rw [hnil, hnone]
    intro shorter
    exact .parsed hnil hj
  · have hlater := (length_drop_succ_lt hlt).trans shorter
    revert shorter
    rw [hcons, hsome, Option.bind_some]
    intro shorter
    dsimp only
    cases token.operator? with
    | none => exact .parsed hcons hj
    | some op =>
      dsimp only
      split
      · rw [run_take_bind _ hsome]
        refine ((hself.later (.start .assignment) hlater).required rfl hlt).andThen ?_
        intro value i _ hi
        exact .parsed rfl hi
      · exact .parsed hcons hj

theorem isPerformed_conditional
    (hself : Below tokens self (weight tokens k (.start .conditional))) :
    IsPerformed tokens (step tokens self) (.start .conditional) k := by
  change Agrees tokens k (Tree.conditional _) _
  rw [step, Tree.conditional]
  refine Agrees.andThen (hself.lower (.start (.binary 0)) (by decide)) ?_
  intro condition j shorter hj
  rw [run_peekOperator_bind]
  obtain ⟨hnil, hnone⟩ | ⟨mark, hcons, hsome, hlt⟩ := drop_cases tokens j
  · revert shorter
    rw [hnil, hnone, if_neg (none_bind_ne _)]
    intro shorter
    exact .parsed hnil hj
  · have hlater := (length_drop_succ_lt hlt).trans shorter
    revert shorter
    rw [hcons, hsome, Option.bind_some]
    intro shorter
    dsimp only
    split
    · rw [run_take_bind _ hsome]
      refine ((hself.later (.start .list) hlater).required rfl hlt).andThen ?_
      intro first i shorter' hi
      rw [run_peekOperator_bind]
      obtain ⟨hnil, hnone⟩ | ⟨sep, hcons, hsome, hlt⟩ := drop_cases tokens i
      · revert shorter'
        rw [hnil, hnone, if_neg (none_bind_ne _)]
        intro shorter'
        exact .failed hnil hi
      · have hlater := ((length_drop_succ_lt hlt).trans shorter').trans hlater
        revert shorter'
        rw [hcons, hsome, Option.bind_some]
        intro shorter'
        dsimp only
        split
        · rw [run_take_bind _ hsome]
          refine ((hself.later (.start .conditional) hlater).required rfl hlt).andThen ?_
          intro second i _ hi
          exact .parsed rfl hi
        · exact .failed hcons hi
    · exact .parsed hcons hj

theorem isPerformed_binary {n : Nat}
    (hself : Below tokens self (weight tokens k (.start (.binary n)))) :
    IsPerformed tokens (step tokens self) (.start (.binary n)) k := by
  change Agrees tokens k (Tree.binary (levels.drop n) _) _
  rw [step]
  cases hlevel : levels[n]? with
  | none =>
    rw [List.drop_eq_nil_of_le (List.getElem?_eq_none_iff.1 hlevel), Tree.binary]
    exact hself.lower (.start .unary) (by rw [rank, rank]; omega)
  | some level =>
    obtain ⟨hn, rfl⟩ := List.getElem?_eq_some_iff.1 hlevel
    rw [List.drop_eq_getElem_cons hn, Tree.binary]
    refine Agrees.andThen (hself.lower (.start (.binary (n + 1))) (by rw [rank, rank]; omega)) ?_
    intro left j shorter hj
    exact (hself.later (.binary _ (n + 1) left) shorter hj).widen _

theorem isPerformed_binaryTail {level : Level} {tighter : Nat} {left : Tree}
    (hself : Below tokens self (weight tokens k (.binary level tighter left))) :
    IsPerformed tokens (step tokens self) (.binary level tighter left) k := by
  intro hle
  rw [step, run_peekOperator_bind, outcome]
  obtain ⟨hnil, hnone⟩ | ⟨token, hcons, hsome, hlt⟩ := drop_cases tokens k
  · rw [hnil, hnone, Tree.binaryTail]
    exact .parsed hnil hle
  · rw [hcons, hsome, Tree.binaryTail, Option.bind_some, ← Tree.among?]
    cases Tree.among? level.operators token with
    | none => exact .parsed hcons hle
    | some op =>
      dsimp only
      rw [run_take_bind _ hsome]
      have hshorter := length_drop_succ_lt hlt
      refine ((hself.later (.start (.binary tighter)) hshorter).required rfl hlt).andThen ?_
      intro right j shorter hj
      exact (hself.later (.binary level tighter _) (shorter.trans hshorter) hj).widen _

/-! Without tokens, a production is absent. -/

theorem power_nil : Tree.power [] = .absent := by
  simp [Tree.power, Tree.suffix.eq_def, Tree.primary, Outcome.andThen]

theorem binary_nil (remaining : List Level) : Tree.binary remaining [] = .absent := by
  induction remaining with
  | nil => rw [Tree.binary, Tree.unary]
  | cons level tighter ih =>
    rw [Tree.binary, ih]
    rfl

theorem arguments_nil : Tree.arguments [] = .absent := by
  rw [Tree.arguments, Tree.assignment, Tree.conditional, binary_nil]
  rfl

theorem isPerformed_unary (hself : Below tokens self (weight tokens k (.start .unary))) :
    IsPerformed tokens (step tokens self) (.start .unary) k := by
  have hpower := hself.lower (.start .power) (by decide)
  change Agrees tokens k (Tree.power _) _ at hpower
  change Agrees tokens k (Tree.unary _) _
  rw [step, run_peekOperator_bind]
  obtain ⟨hnil, hnone⟩ | ⟨token, hcons, hsome, hlt⟩ := drop_cases tokens k
  · rw [hnil, hnone, Tree.unary]
    rw [hnil, power_nil] at hpower
    exact hpower
  · rw [hcons, hsome, Tree.unary, Option.bind_some, ← Tree.among?]
    rw [hcons] at hpower
    cases Tree.among? unaryOperators token with
    | none => exact hpower
    | some op =>
      dsimp only
      rw [run_take_bind _ hsome]
      have hshorter := length_drop_succ_lt hlt
      refine .inl (((hself.later (.start .unary) hshorter).required rfl hlt).andThen ?_)
      intro operand j _ hj
      exact .parsed rfl hj

theorem isPerformed_power (hself : Below tokens self (weight tokens k (.start .power))) :
    IsPerformed tokens (step tokens self) (.start .power) k := by
  change Agrees tokens k (Tree.power _) _
  rw [step, Tree.power]
  refine Agrees.andThen (hself.lower (.start .suffix) (by decide)) ?_
  intro base j shorter hj
  rw [run_peekOperator_bind]
  obtain ⟨hnil, hnone⟩ | ⟨token, hcons, hsome, hlt⟩ := drop_cases tokens j
  · revert shorter
    rw [hnil, hnone, if_neg (none_bind_ne _)]
    intro shorter
    exact .parsed hnil hj
  · have hlater := (length_drop_succ_lt hlt).trans shorter
    revert shorter
    rw [hcons, hsome, Option.bind_some]
    intro shorter
    dsimp only
    split
    · rw [run_take_bind _ hsome]
      refine ((hself.later (.start .unary) hlater).required rfl hlt).andThen ?_
      intro exponent i _ hi
      exact .parsed rfl hi
    · exact .parsed hcons hj

theorem isPerformed_steps {operand : Tree}
    (hself : Below tokens self (weight tokens k (.suffix operand))) :
    IsPerformed tokens (step tokens self) (.suffix operand) k := by
  intro hle
  rw [step, run_peekOperator_bind, outcome]
  obtain ⟨hnil, hnone⟩ | ⟨token, hcons, hsome, hlt⟩ := drop_cases tokens k
  · rw [hnil, hnone, Tree.steps]
    exact .parsed hnil hle
  · rw [hcons, hsome, Tree.steps, Option.bind_some, ← Tree.among?]
    cases Tree.among? suffixOperators token with
    | none => exact .parsed hcons hle
    | some op =>
      dsimp only
      rw [run_take_bind _ hsome]
      exact (hself.later (.suffix _) (length_drop_succ_lt hlt) hlt).widen _

theorem isPerformed_arguments (hself : Below tokens self (weight tokens k (.start .arguments))) :
    IsPerformed tokens (step tokens self) (.start .arguments) k := by
  change Agrees tokens k (Tree.arguments _) _
  rw [step, Tree.arguments]
  refine Agrees.andThen (hself.lower (.start .assignment) (by decide)) ?_
  intro first j shorter hj
  exact (hself.later (.arguments [first]) shorter hj).widen _

theorem isPerformed_argumentsTail {read : List Tree}
    (hself : Below tokens self (weight tokens k (.arguments read))) :
    IsPerformed tokens (step tokens self) (.arguments read) k := by
  intro hle
  rw [step, run_peekOperator_bind, outcome]
  obtain ⟨hnil, hnone⟩ | ⟨comma, hcons, hsome, hlt⟩ := drop_cases tokens k
  · rw [hnil, hnone, Tree.argumentsTail, if_neg (none_bind_ne _)]
    exact .parsed hnil hle
  · rw [hcons, hsome, Tree.argumentsTail, Option.bind_some]
    split
    · rw [run_take_bind _ hsome]
      have hshorter := length_drop_succ_lt hlt
      refine ((hself.later (.start .assignment) hshorter).required rfl hlt).andThen ?_
      intro next j shorter hj
      exact (hself.later (.arguments _) (shorter.trans hshorter) hj).widen _
    · exact .parsed hcons hle

theorem ends_close {build : Token → Tree} (hle : k ≤ tokens.length) :
    Ends tokens (Tree.close build (tokens.drop k)) ((close tokens build).run ⟨k, .none⟩) := by
  rw [Reader.close, run_peekOperator_bind]
  obtain ⟨hnil, hnone⟩ | ⟨token, hcons, hsome, hlt⟩ := drop_cases tokens k
  · rw [hnil, hnone, if_neg (none_bind_ne _)]
    exact .failed hnil hle
  · rw [hcons, hsome, Option.bind_some, Tree.close]
    split
    · rw [run_take_bind _ hsome]
      exact .parsed rfl hlt
    · exact .failed hcons hle

theorem ends_call {name bracket : Token} (hname : tokens[k]? = some name)
    (hbracket : tokens[k + 1]? = some bracket)
    (hself : Below tokens self (weight tokens k (.start .suffix))) :
    Ends tokens (Tree.call name bracket (tokens.drop (k + 2)))
      ((call tokens self).run ⟨k, .none⟩) := by
  obtain ⟨hle, -⟩ := List.getElem?_eq_some_iff.1 hbracket
  have hshorter : (tokens.drop (k + 2)).length < (tokens.drop k).length :=
    (length_drop_succ_lt hle).trans (length_drop_succ_lt (Nat.lt_of_succ_lt hle))
  have hargs := hself.later (.start .arguments) hshorter
  change Agrees tokens _ (Tree.arguments _) _ at hargs
  rw [call, run_take_bind _ hname, run_take_bind _ hbracket, run_peekOperator_bind]
  obtain ⟨hnil, hnone⟩ | ⟨token, hcons, hsome, hlt⟩ := drop_cases tokens (k + 2)
  · -- Nothing is left to read as an argument, which is the same fault as no closing bracket.
    rw [hnil, arguments_nil] at hargs
    obtain habsent | ⟨-, hrun⟩ := hargs
    · cases habsent
    · rw [hnone, if_neg nofun, run_bind, run_orFail, hrun, hnil, Tree.call]
      exact .failed hnil hle
  · rw [hcons] at hargs
    rw [hcons, hsome, Tree.call, Option.bind_some]
    split
    · rw [run_take_bind _ hsome]
      exact .parsed rfl hlt
    · refine (hargs.required hcons hle).andThen ?_
      intro args j _ hj
      exact (ends_close hj).widen _

theorem ends_group {bracket : Token} (hbracket : bracket.operator? = some .openBracket)
    (hcons : tokens.drop k = bracket :: tokens.drop (k + 1)) (hsome : tokens[k]? = some bracket)
    (hlt : k < tokens.length) (hself : Below tokens self (weight tokens k (.start .primary))) :
    Ends tokens (Tree.primary (bracket :: tokens.drop (k + 1)))
      ((group tokens self).run ⟨k, .none⟩) := by
  rw [group, run_position_bind, run_take_bind _ hsome, run_peek_bind]
  have hinner := hself.later (.start .list) (length_drop_succ_lt hlt)
  change Agrees tokens _ (Tree.list _) _ at hinner
  obtain ⟨hnil, hnone⟩ | ⟨first, hcons', hsome', -⟩ := drop_cases tokens (k + 1)
  · rw [hnil, hnone, Tree.primary.eq_def]
    simp only [hbracket]
    rw [if_pos (.inl rfl)]
    exact .failed hnil hlt
  · rw [hcons'] at hinner hcons
    rw [hcons', hsome', Tree.primary.eq_def]
    simp only [hbracket, Option.isNone_some, Bool.false_eq_true, false_or, Option.bind_some]
    split
    · exact .failed hcons' hlt
    · refine (hinner.requiredBack hcons hlt.le).andThen ?_
      intro inner j _ hj
      exact (ends_close hj).widen _

theorem isPerformed_primary (hself : Below tokens self (weight tokens k (.start .primary))) :
    IsPerformed tokens (step tokens self) (.start .primary) k := by
  change Agrees tokens k (Tree.primary _) _
  rw [step, run_peek_bind]
  obtain ⟨hnil, hnone⟩ | ⟨token, hcons, hsome, hlt⟩ := drop_cases tokens k
  · rw [hnil, hnone, Tree.primary]
    exact .inr ⟨rfl, rfl⟩
  · rw [hcons, hsome]
    dsimp only
    cases htoken : token.operator? with
    | none =>
      rw [Tree.primary.eq_def, run_take_bind _ hsome]
      simp only [htoken]
      exact .inl (.parsed rfl hlt)
    | some op =>
      by_cases hop : op = .openBracket
      · subst hop
        exact .inl (ends_group htoken hcons hsome hlt hself)
      · rw [Tree.primary.eq_def]
        simp only [htoken]
        cases op <;> first | exact absurd rfl hop | exact .inr ⟨rfl, rfl⟩

theorem isPerformed_suffix (hself : Below tokens self (weight tokens k (.start .suffix))) :
    IsPerformed tokens (step tokens self) (.start .suffix) k := by
  change Agrees tokens k (Tree.suffix _) _
  rw [step, Tree.suffix.eq_def]
  refine Agrees.andThen ?_ fun operand j shorter hj =>
    (hself.later (.suffix operand) shorter hj).widen _
  have hprimary := hself.lower (.start .primary) (by decide)
  change Agrees tokens k (Tree.primary _) _ at hprimary
  rw [operand, run_peek_bind, run_peekOperatorAt_bind]
  obtain ⟨hnil, hnone⟩ | ⟨name, hcons, hsome, hlt⟩ := drop_cases tokens k
  · rw [hnil] at hprimary ⊢
    rw [hnone, if_neg (by rintro ⟨⟨⟩, -⟩)]
    exact hprimary
  · obtain ⟨hnil, hnone⟩ | ⟨bracket, hcons', hsome', -⟩ := drop_cases tokens (k + 1)
    · rw [hcons, hnil] at hprimary ⊢
      rw [hnone, if_neg (by rintro ⟨-, ⟨⟩⟩)]
      exact hprimary
    · rw [hcons, hcons'] at hprimary ⊢
      rw [hsome, hsome', Option.bind_some, Option.bind_some]
      dsimp only
      split
      · exact .inl ((ends_call hsome hsome' hself).widen _)
      · exact hprimary

/-- Each stage is performed, if all stages of lower weight are. -/
theorem isPerformed_step (hself : Below tokens self (weight tokens k stage)) :
    IsPerformed tokens (step tokens self) stage k := by
  match stage with
  | .start .list => exact isPerformed_list hself
  | .start .assignment => exact isPerformed_assignment hself
  | .start .conditional => exact isPerformed_conditional hself
  | .start (.binary _) => exact isPerformed_binary hself
  | .start .unary => exact isPerformed_unary hself
  | .start .power => exact isPerformed_power hself
  | .start .suffix => exact isPerformed_suffix hself
  | .start .arguments => exact isPerformed_arguments hself
  | .start .primary => exact isPerformed_primary hself
  | .list _ => exact isPerformed_listTail hself
  | .binary .. => exact isPerformed_binaryTail hself
  | .suffix _ => exact isPerformed_steps hself
  | .arguments _ => exact isPerformed_argumentsTail hself

theorem below_perform (tokens : List Token) (fuel : Nat) :
    Below tokens (perform tokens fuel) fuel := by
  induction fuel with
  | zero =>
    intro stage k h
    cases h
  | succ fuel ih =>
    intro stage k h
    exact isPerformed_step fun other j hother => ih other j (by omega)

end Stage

/-- What a production gives shows the tokens that it took. -/
theorem shows_of_gives {tokens : List Token} {p : Production} {j k : Nat} {tree : Tree}
    (h : (p.symbol.read (tokens.drop k)).Gives tree (tokens.drop j)) (hj : j ≤ tokens.length) :
    k < j ∧ List.Forall₂ Shows tree.leaves (tokens.extract k j) := by
  have hlt := h.length_lt
  obtain ⟨d, rfl, htokens⟩ := sound p.symbol (tokens.drop k) h
  have hproper : p.symbol.IsProper := by
    cases p with
    | binary level => exact List.drop_suffix level levels
    | _ => trivial
  have hlength := congrArg List.length htokens
  rw [List.length_append, List.length_drop, List.length_drop] at hlength
  rw [List.length_drop, List.length_drop] at hlt
  have htaken : tokens.extract k j = d.tokens := by
    rw [List.extract_eq_take_drop, htokens]
    exact List.take_left' (by omega)
  rw [htaken]
  exact ⟨by omega, d.forall₂_shows hproper⟩

theorem agrees_perform (tokens : List Token) (production : Production) (k : Nat) {fuel : Nat}
    (hfuel : 20 * (tokens.length - k + 1) ≤ fuel) :
    Agrees tokens k (production.symbol.read (tokens.drop k))
      ((Stage.perform tokens fuel (.start production)).run ⟨k, .none⟩) := by
  apply Stage.below_perform tokens fuel (.start production) k
  have hrank := (Stage.start production).rank_lt
  unfold Stage.weight
  omega

/-- A production that is performed alone, with enough fuel, gives the tree that is read from the
tokens at the cursor, if there is one, and leaves the tokens that are left there. -/
theorem perform_eq_read (tokens : List Token) (production : Production) (k : Nat) {fuel : Nat}
    (hfuel : 20 * (tokens.length - k + 1) ≤ fuel) :
    let outcome := production.symbol.read (tokens.drop k)
    let result := (Stage.perform tokens fuel (.start production)).run ⟨k, .none⟩
    outcome.tree? = result.1 ∧ outcome.rest (tokens.drop k) = tokens.drop result.2.position :=
  have h := agrees_perform tokens production k hfuel
  ⟨h.tree?_eq, h.rest_eq⟩

/-- A production that is performed with enough fuel does what is to be made of the tokens at the
cursor. Where it gives a tree it has taken tokens, no error is recorded, and the leaves of the tree
are the tokens taken, with commas for those between arguments. Where it gives none, an error is
recorded or the cursor has not moved. -/
theorem cursor_of_perform (tokens : List Token) (production : Production) (k : Nat) :
    ∃ node after,
      (∀ fuel, 20 * (tokens.length - k + 1) ≤ fuel →
        (Stage.perform tokens fuel (.start production)).run ⟨k, .none⟩ = (node, after)) ∧
      Agrees tokens k (production.symbol.read (tokens.drop k)) (node, after) ∧
      (∀ tree, node = some tree →
        k < after.position ∧ after.position ≤ tokens.length ∧ after.error.isSet = false ∧
          List.Forall₂ Shows tree.leaves (tokens.extract k after.position)) ∧
      (node = none → after.error.isSet = true ∨ after.position = k) := by
  have hagrees (fuel : Nat) (hfuel : 20 * (tokens.length - k + 1) ≤ fuel) :=
    agrees_perform tokens production k hfuel
  generalize hresult : (Stage.perform tokens (20 * (tokens.length - k + 1))
    (.start production)).run ⟨k, .none⟩ = result
  have hresult' := hresult ▸ hagrees _ le_rfl
  refine ⟨result.1, result.2, fun fuel hfuel => (hagrees fuel hfuel).unique hresult', hresult', ?_⟩
  obtain hends | ⟨-, rfl⟩ := hresult'
  · generalize hread : production.symbol.read (tokens.drop k) = outcome at hends
    cases hends with
    | @parsed tree rest shorter position hrest hle =>
      subst hrest
      obtain ⟨hlt, hshows⟩ := shows_of_gives ⟨shorter, hread⟩ hle
      refine ⟨?_, nofun⟩
      rintro _ ⟨⟩
      exact ⟨hlt, hle, rfl, hshows⟩
    | failed => exact ⟨nofun, fun _ => .inl (FirstError.isSet_set _ _)⟩
  · exact ⟨nofun, fun _ => .inr rfl⟩

/-- The cursor of a failure is not put back. -/
example :
    let tokens : List Token := [⟨.operator .openBracket, 0⟩, ⟨.integer 1, 1⟩]
    (Stage.perform tokens 60 (.start .list)).run ⟨0, .none⟩ =
      (none, ⟨2, ⟨some (.grammar "Missing close round bracket")⟩⟩) := rfl

end Reckoner.Grammar
