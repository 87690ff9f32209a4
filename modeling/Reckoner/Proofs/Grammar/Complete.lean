import Mathlib.Data.List.Infix
import Reckoner.Proofs.Grammar.Sound

/-!
Whatever the grammar derives is read, whole and as the tree of its derivation. A production
decides by the next token whether it goes on, so each statement is about derived tokens that are
followed by none of the operators on which the production would go on.
-/

namespace Reckoner.Grammar

open Reckoner.Tree Tree.Outcome

/-! The operators on which a production goes on. An opening bracket is among them, since it turns
the name before it into a call. -/

def afterPower (op : Operator) : Bool := op ∈ [.openBracket, .increment, .decrement, .power]

def afterBinary (remaining : List Level) (op : Operator) : Bool :=
  remaining.any (fun level => op ∈ level.operators) || afterPower op

def afterConditional (op : Operator) : Bool := op == .question || afterBinary levels op

def afterAssignment (op : Operator) : Bool := op.isAssignment || afterConditional op

namespace Symbol

def goesOn : Symbol → Operator → Bool
  | .list, op | .arguments, op => op == .comma || afterAssignment op
  | .assignment, op => afterAssignment op
  | .target, op | .conditional, op => afterConditional op
  | .binary remaining, op => afterBinary remaining op
  | .unary, op | .power, op => afterPower op
  | .suffix, op => op == .openBracket || op ∈ suffixOperators
  | .primary, op => op == .openBracket

def readAs : Symbol → Symbol
  | .target => .conditional
  | s => s

def operand : Symbol → Symbol
  | .list | .arguments => .assignment
  | .binary (_ :: tighter) => .binary tighter
  | .suffix => .primary
  | s => s

end Symbol

def Blocked (s : Symbol) (rest : List Token) : Prop :=
  ∀ c ∈ rest.head?, ∀ op, c.operator? = some op → s.goesOn op = false

def Reads (s : Symbol) (ts : List Token) (t : Tree) (r : List Token) : Prop :=
  (s.readAs.read ts).Gives t r

def Resumes (s : Symbol) (left : Tree) (rest : List Token) (t : Tree) (r : List Token) : Prop :=
  match s with
  | .list => (listTail left rest).Gives t r
  | .binary (level :: tighter) => (binaryTail level tighter left rest).Gives t r
  | .suffix => (steps left rest).Gives t r
  | .arguments => (argumentsTail left.children rest).Gives t r
  | _ => t = left ∧ r = rest

/-- Before tokens that stop an operand, the production reads the derived tokens and resumes
behind them. -/
def Complete {s : Symbol} (d : Derivation s) : Prop :=
  ∀ ⦃rest t r⦄, Blocked s.operand rest → Resumes s d.tree rest t r →
    Reads s (d.tokens ++ rest) t r

variable {s : Symbol} {rest : List Token} {c : Token} {op : Operator}

theorem blocked_nil : Blocked s [] := by
  intro c hc
  cases hc

theorem blocked_cons (hop : c.operator? = some op) (h : s.goesOn op = false) :
    Blocked s (c :: rest) := by
  intro c' hc' op' hop'
  cases hc'
  rw [hop] at hop'
  cases hop'
  exact h

theorem Blocked.mono {s' : Symbol} (h : Blocked s rest)
    (hsub : ∀ op, s'.goesOn op → s.goesOn op) : Blocked s' rest := by
  intro c hc op hop
  have hs := h c hc op hop
  cases hs' : s'.goesOn op with
  | false => rfl
  | true => simp [hsub op hs'] at hs

theorem operator?_of_among? {operators : List Operator} (h : (among? operators c).isSome) :
    ∃ op ∈ operators, c.operator? = some op := by
  obtain ⟨op, hop⟩ := Option.isSome_iff_exists.mp h
  obtain ⟨hc, hmem⟩ := Option.filter_eq_some_iff.mp hop
  exact ⟨op, by simpa using hmem, hc⟩

theorem operator?_of_any {operators : Operator → Bool} (h : c.operator?.any operators) :
    ∃ op, operators op ∧ c.operator? = some op := by
  cases hc : c.operator? with
  | none => simp [hc] at h
  | some op => exact ⟨op, by simpa [hc] using h, rfl⟩

theorem Blocked.operator?_ne (h : Blocked s (c :: rest)) (hop : s.goesOn op) :
    c.operator? ≠ some op := by
  intro hc
  simp [h c rfl op hc] at hop

theorem Blocked.not_among? {operators : List Operator} (h : Blocked s (c :: rest))
    (hops : ∀ op ∈ operators, s.goesOn op) : ¬ (among? operators c).isSome := by
  intro hsome
  obtain ⟨op, hop, hc⟩ := operator?_of_among? hsome
  exact h.operator?_ne (hops op hop) hc

/-- A loop ends at tokens that stop it. -/
theorem resumes_self (d : Derivation s) (h : Blocked s rest) :
    Resumes s d.tree rest d.tree rest := by
  cases rest with
  | nil =>
    match s, d with
    | .list, d => exact gives_listTail_nil.mpr ⟨rfl, rfl⟩
    | .binary (_ :: _), d => exact gives_binaryTail_nil.mpr ⟨rfl, rfl⟩
    | .suffix, d => exact gives_steps_nil.mpr ⟨rfl, rfl⟩
    | .arguments, d => exact gives_argumentsTail_nil.mpr ⟨d.tree_arguments, rfl⟩
    | .assignment, d | .target, d | .conditional, d | .binary [], d | .unary, d | .power, d
    | .primary, d => exact ⟨rfl, rfl⟩
  | cons c rest =>
    match s, d with
    | .list, d =>
      rw [Resumes, gives_listTail_cons, if_neg (h.operator?_ne rfl)]
      exact ⟨rfl, rfl⟩
    | .binary (level :: tighter), d =>
      have hlevel : ∀ op ∈ level.operators, afterBinary (level :: tighter) op := by
        intro op hop
        simp [afterBinary, hop]
      rw [Resumes, gives_binaryTail_cons, if_neg (h.not_among? hlevel)]
      exact ⟨rfl, rfl⟩
    | .suffix, d =>
      rw [Resumes, gives_steps_cons, if_neg (h.not_among? (by decide))]
      exact ⟨rfl, rfl⟩
    | .arguments, d =>
      rw [Resumes, gives_argumentsTail_cons, if_neg (h.operator?_ne rfl)]
      exact ⟨d.tree_arguments, rfl⟩
    | .assignment, d | .target, d | .conditional, d | .binary [], d | .unary, d | .power, d
    | .primary, d => exact ⟨rfl, rfl⟩

/-- Tokens that stop a production stop the operands of its loop. -/
theorem Blocked.operand (h : Blocked s rest) : Blocked s.operand rest := by
  refine h.mono fun op hop => ?_
  match s with
  | .list | .arguments | .suffix => simp_all [Symbol.goesOn, Symbol.operand]
  | .binary (_ :: _) =>
    simp only [Symbol.goesOn, Symbol.operand, afterBinary, Bool.or_eq_true] at hop ⊢
    simp only [List.any_cons, Bool.or_eq_true]
    exact hop.imp_left Or.inr
  | .assignment | .target | .conditional | .binary [] | .unary | .power | .primary => exact hop

/-- Derived tokens that are followed by ones that stop the production are read whole. -/
theorem Complete.gives {d : Derivation s} (hd : Complete d) (h : Blocked s rest) :
    Reads s (d.tokens ++ rest) d.tree rest :=
  hd h.operand (resumes_self d h)

/-! One statement for each production that has more than one child. -/

open Grammar.Derivation hiding tokens tree

theorem complete_comma {left : Derivation .list} {sep : Token} {hsep : sep.operator? = some .comma}
    {right : Derivation .assignment} (hleft : Complete left) (hright : Complete right) :
    Complete (comma left sep hsep right) := by
  intro rest t r hblocked hresume
  have hread : Reads .list (left.tokens ++ sep :: (right.tokens ++ rest)) t r := by
    apply hleft
    · exact blocked_cons hsep rfl
    · rw [Resumes, gives_listTail_cons, if_pos hsep]
      exact ⟨right.tree, rest, hright.gives hblocked, hresume⟩
  simpa [Derivation.tokens] using hread

theorem complete_assign {left : Derivation .target} {op : Token}
    {hop : op.operator?.any Operator.isAssignment} {value : Derivation .assignment}
    (hleft : Complete left) (hvalue : Complete value) : Complete (assign left op hop value) := by
  rintro rest t r hblocked ⟨rfl, rfl⟩
  obtain ⟨o, ho, hopo⟩ := operator?_of_any hop
  have hread : Reads .assignment (left.tokens ++ op :: (value.tokens ++ r))
      (assign left op hop value).tree r := by
    refine gives_assignment.mpr ⟨left.tree, op :: (value.tokens ++ r), ?_, ?_⟩
    · exact hleft.gives (blocked_cons hopo (by cases o <;> revert ho <;> decide))
    · simp only [hop, left.isUnaryLevel, and_self, if_true]
      exact ⟨value.tree, hvalue.gives hblocked, rfl⟩
  simpa [Derivation.tokens] using hread

theorem complete_choice {condition : Derivation (.binary levels)} {mark : Token}
    {hmark : mark.operator? = some .question} {first : Derivation .list} {sep : Token}
    {hsep : sep.operator? = some .colon} {second : Derivation .conditional}
    (hcondition : Complete condition) (hfirst : Complete first) (hsecond : Complete second) :
    Complete (choice condition mark hmark first sep hsep second) := by
  rintro rest t r hblocked ⟨rfl, rfl⟩
  have hread : Reads .conditional
      (condition.tokens ++ mark :: (first.tokens ++ sep :: (second.tokens ++ r)))
      (choice condition mark hmark first sep hsep second).tree r := by
    refine gives_conditional.mpr ⟨condition.tree, _, hcondition.gives (blocked_cons hmark rfl), ?_⟩
    simp only [hmark, if_true]
    exact ⟨first.tree, _, hfirst.gives (blocked_cons hsep rfl), sep, _, rfl, hsep, second.tree,
      hsecond.gives hblocked, rfl⟩
  simpa [Derivation.tokens] using hread

/-- The operators of a level stop all tighter levels. -/
theorem afterBinary_of_suffix {level : Level} {tighter : List Level}
    (hsuffix : level :: tighter <:+ levels) (hop : op ∈ level.operators) :
    afterBinary tighter op = false := by
  have hall : ∀ remaining ∈ levels.tails, ∀ level ∈ remaining.head?, ∀ op ∈ level.operators,
      afterBinary remaining.tail op = false := by decide
  exact hall _ ((List.mem_tails _ _).mpr hsuffix) level rfl op hop

theorem complete_operation {level : Level} {tighter : List Level}
    (hsuffix : level :: tighter <:+ levels) {left : Derivation (.binary (level :: tighter))}
    {op : Token} {hop : (among? level.operators op).isSome} {right : Derivation (.binary tighter)}
    (hleft : Complete left) (hright : Complete right) :
    Complete (operation left op hop right) := by
  intro rest t r hblocked hresume
  obtain ⟨o, ho, hopo⟩ := operator?_of_among? hop
  have hread : Reads (.binary (level :: tighter)) (left.tokens ++ op :: (right.tokens ++ rest))
      t r := by
    apply hleft
    · exact blocked_cons hopo (afterBinary_of_suffix hsuffix ho)
    · rw [Resumes, gives_binaryTail_cons, if_pos hop]
      exact ⟨right.tree, rest, hright.gives hblocked, hresume⟩
  simpa [Derivation.tokens] using hread

theorem complete_prefixed {op : Token} (hop : (among? unaryOperators op).isSome)
    {operand : Derivation .unary} (hoperand : Complete operand) :
    Complete (prefixed op hop operand) := by
  rintro rest t r hblocked ⟨rfl, rfl⟩
  refine gives_unary_cons.mpr ?_
  rw [if_pos hop]
  exact ⟨operand.tree, hoperand.gives hblocked, rfl⟩

theorem complete_raised {base : Derivation .suffix} {op : Token}
    {hop : op.operator? = some .power} {exponent : Derivation .unary} (hbase : Complete base)
    (hexponent : Complete exponent) : Complete (raised base op hop exponent) := by
  rintro rest t r hblocked ⟨rfl, rfl⟩
  have hread : Reads .power (base.tokens ++ op :: (exponent.tokens ++ r))
      (raised base op hop exponent).tree r := by
    refine gives_power.mpr ⟨base.tree, _, hbase.gives (blocked_cons hop rfl), ?_⟩
    simp only [hop, if_true]
    exact ⟨exponent.tree, hexponent.gives hblocked, rfl⟩
  simpa [Derivation.tokens] using hread

/-- A bracket behind the name makes the head of a suffix expression a call. -/
theorem head_call {name left : Token} {ts : List Token} {t : Tree} {r : List Token}
    (hname : name.name?.isSome) (hleft : left.operator? = some .openBracket)
    (h : (Tree.call name left ts).Gives t r) : Head (name :: left :: ts) t r := by
  rw [Head, if_pos ⟨hname, hleft⟩]
  exact h

theorem complete_emptyCall {name left right : Token} {hname : name.name?.isSome}
    {hleft : left.operator? = some .openBracket} {hright : right.operator? = some .closeBracket} :
    Complete (emptyCall name hname left hleft right hright) := by
  intro rest t r _ hresume
  refine gives_suffix.mpr ⟨_, rest, head_call hname hleft (gives_call_cons.mpr ?_), hresume⟩
  rw [if_pos hright]
  exact ⟨rfl, rfl⟩

theorem complete_call {name left right : Token} {hname : name.name?.isSome}
    {hleft : left.operator? = some .openBracket} {args : Derivation .arguments}
    {hright : right.operator? = some .closeBracket} (hargs : Complete args) :
    Complete (call name hname left hleft args right hright) := by
  intro rest t r _ hresume
  obtain ⟨first, more, hfirst, hne, -⟩ := args.tokens_eq_cons
  have hread : Reads .suffix (name :: left :: (args.tokens ++ right :: rest)) t r := by
    refine gives_suffix.mpr ⟨_, rest, head_call hname hleft ?_, hresume⟩
    have hgives : Reads .arguments (args.tokens ++ right :: rest) args.tree (right :: rest) :=
      hargs.gives (blocked_cons hright rfl)
    rw [hfirst] at hgives ⊢
    refine gives_call_cons.mpr ?_
    rw [if_neg hne]
    exact ⟨args.tree, right, hgives, hright, rfl⟩
  simpa [Derivation.tokens] using hread

theorem complete_step {operand : Derivation .suffix} {op : Token}
    {hop : (among? suffixOperators op).isSome} (hoperand : Complete operand) :
    Complete (step operand op hop) := by
  intro rest t r _ hresume
  obtain ⟨o, ho, hopo⟩ := operator?_of_among? hop
  have hread : Reads .suffix (operand.tokens ++ op :: rest) t r := by
    apply hoperand
    · have hsuffix : ∀ o ∈ suffixOperators, Symbol.primary.goesOn o = false := by decide
      exact blocked_cons hopo (hsuffix o ho)
    · rw [Resumes, gives_steps_cons, if_pos hop]
      exact hresume
  simpa [Derivation.tokens] using hread

theorem complete_more {before : Derivation .arguments} {sep : Token}
    {hsep : sep.operator? = some .comma} {next : Derivation .assignment}
    (hbefore : Complete before) (hnext : Complete next) : Complete (more before sep hsep next) := by
  intro rest t r hblocked hresume
  have hread : Reads .arguments (before.tokens ++ sep :: (next.tokens ++ rest)) t r := by
    apply hbefore
    · exact blocked_cons hsep rfl
    · rw [Resumes, gives_argumentsTail_cons, if_pos hsep]
      exact ⟨next.tree, rest, hnext.gives hblocked, hresume⟩
  simpa [Derivation.tokens] using hread

theorem complete_leaf {token : Token} {htoken : token.operator? = none} :
    Complete (leaf token htoken) := by
  rintro rest t r - ⟨rfl, rfl⟩
  refine gives_primary_cons.mpr ?_
  rw [htoken]
  exact ⟨rfl, rfl⟩

theorem complete_group {left right : Token} {hleft : left.operator? = some .openBracket}
    {inner : Derivation .list} {hright : right.operator? = some .closeBracket}
    (hinner : Complete inner) : Complete (group left hleft inner right hright) := by
  rintro rest t r - ⟨rfl, rfl⟩
  obtain ⟨first, more, hfirst, hne, -⟩ := inner.tokens_eq_cons
  have hread : Reads .primary (left :: (inner.tokens ++ right :: r))
      (group left hleft inner right hright).tree r := by
    have hgives : Reads .list (inner.tokens ++ right :: r) inner.tree (right :: r) :=
      hinner.gives (blocked_cons hright rfl)
    rw [hfirst] at hgives ⊢
    refine gives_primary_cons.mpr ?_
    simp only [hleft]
    exact ⟨hne, inner.tree, right, hgives, hright, rfl⟩
  simpa [Derivation.tokens] using hread

/-! The productions with a single child. Their operators stop the child as well. -/

theorem complete_ofAssignment {d : Derivation .assignment} (hd : Complete d) :
    Complete (ofAssignment d) := by
  intro rest t r hblocked hresume
  exact gives_list.mpr ⟨d.tree, rest, hd.gives hblocked, hresume⟩

theorem complete_argument {d : Derivation .assignment} (hd : Complete d) :
    Complete (argument d) := by
  intro rest t r hblocked hresume
  exact gives_arguments.mpr ⟨d.tree, rest, hd.gives hblocked, hresume⟩

theorem complete_ofConditional {d : Derivation .conditional} (hd : Complete d) :
    Complete (ofConditional d) := by
  rintro rest t r hblocked ⟨rfl, rfl⟩
  have hinner : Blocked .conditional r := hblocked.mono fun op hop => by
    simp only [Symbol.goesOn] at hop
    simp [Symbol.goesOn, Symbol.operand, afterAssignment, hop]
  refine gives_assignment.mpr ⟨d.tree, r, hd.gives hinner, ?_⟩
  cases r with
  | nil => exact ⟨rfl, rfl⟩
  | cons c rest =>
    have hop : ¬ c.operator?.any Operator.isAssignment := by
      intro hany
      obtain ⟨op, hop, hc⟩ := operator?_of_any hany
      exact hblocked.operator?_ne (by simp [Symbol.goesOn, Symbol.operand, afterAssignment, hop]) hc
    simp [hop, Derivation.tree]

theorem complete_ofBinary {d : Derivation (.binary levels)} (hd : Complete d) :
    Complete (ofBinary d) := by
  rintro rest t r hblocked ⟨rfl, rfl⟩
  have hinner : Blocked (.binary levels) r := hblocked.mono fun op hop => by
    simp only [Symbol.goesOn] at hop
    simp [Symbol.goesOn, Symbol.operand, afterConditional, hop]
  refine gives_conditional.mpr ⟨d.tree, r, hd.gives hinner, ?_⟩
  cases r with
  | nil => exact ⟨rfl, rfl⟩
  | cons c rest =>
    have hc : c.operator? ≠ some .question := hblocked.operator?_ne rfl
    simp [hc, Derivation.tree]

theorem complete_ofTighter {level : Level} {tighter : List Level}
    {d : Derivation (.binary tighter)} (hd : Complete d) :
    Complete (ofTighter d : Derivation (.binary (level :: tighter))) := by
  intro rest t r hblocked hresume
  exact gives_binary_cons.mpr ⟨d.tree, rest, hd.gives hblocked, hresume⟩

theorem complete_ofUnary {d : Derivation .unary} (hd : Complete d) : Complete (ofUnary d) := by
  rintro rest t r hblocked ⟨rfl, rfl⟩
  exact gives_binary_nil.mpr (hd.gives hblocked)

theorem complete_ofPower {d : Derivation .power} (hd : Complete d) : Complete (ofPower d) := by
  rintro rest t r hblocked ⟨rfl, rfl⟩
  obtain ⟨first, more, hfirst, -, htight⟩ := d.tokens_eq_cons
  have hgives : Reads .power (d.tokens ++ r) d.tree r := hd.gives hblocked
  have htokens : (ofPower d).tokens ++ r = first :: (more ++ r) := by
    rw [Derivation.tokens, hfirst, List.cons_append]
  rw [hfirst] at hgives
  rw [htokens]
  refine gives_unary_cons.mpr ?_
  rw [if_neg (htight rfl)]
  exact hgives

theorem complete_ofSuffix {d : Derivation .suffix} (hd : Complete d) : Complete (ofSuffix d) := by
  rintro rest t r hblocked ⟨rfl, rfl⟩
  have hinner : Blocked .suffix r := hblocked.mono fun op => by cases op <;> decide
  refine gives_power.mpr ⟨d.tree, r, hd.gives hinner, ?_⟩
  cases r with
  | nil => exact ⟨rfl, rfl⟩
  | cons c rest =>
    have hc : c.operator? ≠ some .power := hblocked.operator?_ne rfl
    simp [hc, Derivation.tree]

/-- What is no call is a primary expression. -/
theorem head_primary {ts : List Token} {t : Tree} {r : List Token}
    (hcall : ∀ name bracket after, ts = name :: bracket :: after → name.name?.isSome →
      bracket.operator? ≠ some .openBracket)
    (h : (Tree.primary ts).Gives t r) : Head ts t r := by
  match ts with
  | [] | [_] => exact h
  | name :: bracket :: after =>
    rw [Head, if_neg fun hboth => hcall name bracket after rfl hboth.1 hboth.2]
    exact h

theorem complete_ofPrimary {d : Derivation .primary} (hd : Complete d) :
    Complete (ofPrimary d) := by
  intro rest t r hblocked hresume
  refine gives_suffix.mpr ⟨d.tree, rest, head_primary ?_ (hd.gives hblocked), hresume⟩
  intro name bracket after htokens hname
  cases d with
  | leaf token htoken =>
    obtain ⟨rfl, rfl⟩ := List.cons.inj htokens
    exact hblocked.operator?_ne rfl
  | group left hleft =>
    obtain ⟨rfl, -⟩ := List.cons.inj htokens
    simp [operator?_eq_none_of_name? hname] at hleft

/-- A target is derived as a conditional as well. -/
theorem complete_target {d : Derivation .unary} {e : Derivation .target} (hd : Complete d)
    (htree : e.tree = d.tree) (htokens : e.tokens = d.tokens) : Complete e := by
  have hbinary (remaining : List Level) : ∃ f : Derivation (.binary remaining),
      Complete f ∧ f.tree = d.tree ∧ f.tokens = d.tokens := by
    induction remaining with
    | nil => exact ⟨ofUnary d, complete_ofUnary hd, rfl, rfl⟩
    | cons level tighter ih =>
      obtain ⟨f, hf, hftree, hftokens⟩ := ih
      exact ⟨ofTighter f, complete_ofTighter hf, hftree, hftokens⟩
  obtain ⟨f, hf, hftree, hftokens⟩ := hbinary levels
  rintro rest t r hblocked ⟨rfl, rfl⟩
  have hgives : Reads .conditional (f.tokens ++ r) f.tree r :=
    (complete_ofBinary hf).gives hblocked
  rw [htokens, htree, ← hftokens, ← hftree]
  exact hgives

def Symbol.IsProper : Symbol → Prop
  | .binary remaining => remaining <:+ levels
  | _ => True

theorem complete (d : Derivation s) (hs : s.IsProper) : Complete d := by
  induction d with
  | ofAssignment _ ih => exact complete_ofAssignment (ih trivial)
  | comma _ _ _ _ ihl ihr => exact complete_comma (ihl trivial) (ihr trivial)
  | ofConditional _ ih => exact complete_ofConditional (ih trivial)
  | assign _ _ _ _ ihl ihv => exact complete_assign (ihl trivial) (ihv trivial)
  | prefixTarget _ hop _ ih => exact complete_target (complete_prefixed hop (ih trivial)) rfl rfl
  | suffixTarget _ ih =>
    exact complete_target (complete_ofPower (complete_ofSuffix (ih trivial))) rfl rfl
  | ofBinary _ ih => exact complete_ofBinary (ih (List.suffix_refl _))
  | choice _ _ _ _ _ _ _ ihc ihf ihs =>
    exact complete_choice (ihc (List.suffix_refl _)) (ihf trivial) (ihs trivial)
  | ofTighter _ ih => exact complete_ofTighter (ih ((List.suffix_cons _ _).trans hs))
  | operation _ _ _ _ ihl ihr =>
    exact complete_operation hs (ihl hs) (ihr ((List.suffix_cons _ _).trans hs))
  | ofUnary _ ih => exact complete_ofUnary (ih trivial)
  | prefixed _ hop _ ih => exact complete_prefixed hop (ih trivial)
  | ofPower _ ih => exact complete_ofPower (ih trivial)
  | ofSuffix _ ih => exact complete_ofSuffix (ih trivial)
  | raised _ _ _ _ ihb ihe => exact complete_raised (ihb trivial) (ihe trivial)
  | ofPrimary _ ih => exact complete_ofPrimary (ih trivial)
  | emptyCall => exact complete_emptyCall
  | call _ _ _ _ _ _ _ ih => exact complete_call (ih trivial)
  | step _ _ _ ih => exact complete_step (ih trivial)
  | argument _ ih => exact complete_argument (ih trivial)
  | more _ _ _ _ ihb ihn => exact complete_more (ihb trivial) (ihn trivial)
  | leaf => exact complete_leaf
  | group _ _ _ _ _ ih => exact complete_group (ih trivial)

theorem parse_eq_ok_iff_gives {ts : List Token} {t : Tree} :
    Tree.parse ts = .ok t ↔ (Tree.list ts).Gives t [] := by
  cases ts with
  | nil =>
    constructor
    · intro h
      cases h
    · intro h
      exact absurd h.length_lt (Nat.lt_irrefl _)
  | cons c rest =>
    simp only [Tree.parse, List.isEmpty_cons, Bool.false_eq_true, if_false]
    cases Tree.list (c :: rest) with
    | parsed u r hr => cases r <;> simp [eq_comm]
    | absent => simp
    | failed fault r => simp

/-- Reading succeeds on the tokens of a derivation, with its tree, and on no others. -/
theorem parse_eq_ok {ts : List Token} {t : Tree} :
    Tree.parse ts = .ok t ↔ ∃ d : Derivation .list, d.tree = t ∧ d.tokens = ts := by
  rw [parse_eq_ok_iff_gives]
  constructor
  · intro h
    obtain ⟨d, hd, htokens⟩ := sound .list ts h
    exact ⟨d, hd, by simp [htokens]⟩
  · rintro ⟨d, rfl, rfl⟩
    have hgives : Reads .list (d.tokens ++ []) d.tree [] := (complete d trivial).gives blocked_nil
    rwa [List.append_nil] at hgives

end Reckoner.Grammar
