import Reckoner.Tree.Parse

/-!
What each production gives, as a relation between the tokens before it, its tree and the tokens
behind it. There is one statement for each production, and no later proof opens their
definitions.
-/

namespace Reckoner.Tree

namespace Outcome

def Gives {bound : Nat} (outcome : Outcome bound) (tree : Tree) (rest : List Token) : Prop :=
  ∃ shorter, outcome = .parsed tree rest shorter

variable {a b : Nat} {t u : Tree} {r s : List Token}

theorem Gives.length_lt {outcome : Outcome a} (h : outcome.Gives t r) : r.length < a := by
  obtain ⟨shorter, -⟩ := h
  exact shorter

theorem Gives.unique {outcome : Outcome a} (h : outcome.Gives t r) (h' : outcome.Gives u s) :
    t = u ∧ r = s := by
  obtain ⟨hr, rfl⟩ := h
  obtain ⟨hs, heq⟩ := h'
  cases heq
  exact ⟨rfl, rfl⟩

@[simp] theorem gives_parsed (h : r.length < a) :
    (parsed t r h : Outcome a).Gives u s ↔ u = t ∧ s = r := by
  constructor
  · rintro ⟨hs, heq⟩
    cases heq
    exact ⟨rfl, rfl⟩
  · rintro ⟨rfl, rfl⟩
    exact ⟨h, rfl⟩

@[simp] theorem not_gives_absent : ¬ (absent : Outcome a).Gives t r := by
  rintro ⟨_, heq⟩
  cases heq

@[simp] theorem not_gives_failed (fault : Fault) : ¬ (failed fault s : Outcome a).Gives t r := by
  rintro ⟨_, heq⟩
  cases heq

@[simp] theorem gives_widen (h : a ≤ b) (outcome : Outcome a) :
    (outcome.widen h).Gives t r ↔ outcome.Gives t r := by
  cases outcome <;> simp [widen]

@[simp] theorem gives_required (fault : Fault) (outcome : Outcome a) :
    (outcome.required fault s).Gives t r ↔ outcome.Gives t r := by
  cases outcome <;> simp [required]

/-- What a sequence gives, when its second part does not look at the bound it is handed. -/
theorem gives_andThen {outcome : Outcome a}
    {next : (tree : Tree) → (rest : List Token) → rest.length < a → Outcome b}
    {P : Tree → List Token → Prop} (hnext : ∀ u s h, (next u s h).Gives t r ↔ P u s) :
    (outcome.andThen next).Gives t r ↔ ∃ u s, outcome.Gives u s ∧ P u s := by
  cases outcome with
  | parsed u s h =>
    rw [andThen, hnext]
    constructor
    · intro hP
      exact ⟨u, s, ⟨h, rfl⟩, hP⟩
    · rintro ⟨u', s', hgives, hP⟩
      obtain ⟨rfl, rfl⟩ := (gives_parsed h).mp hgives
      exact hP
  | absent => simp [andThen]
  | failed fault rest => simp [andThen]

theorem gives_required_andThen {outcome : Outcome a} {fault : Fault}
    {next : (tree : Tree) → (rest : List Token) → rest.length < a → Outcome b}
    {P : Tree → List Token → Prop} (hnext : ∀ u s h, (next u s h).Gives t r ↔ P u s) :
    ((outcome.required fault s).andThen next).Gives t r ↔ ∃ u s, outcome.Gives u s ∧ P u s := by
  rw [gives_andThen hnext]
  simp only [gives_required]

/-- What a sequence gives, when its second part only builds a tree. -/
theorem gives_required_build {outcome : Outcome a} {fault : Fault} {build : Tree → Tree}
    (hab : ∀ s : List Token, s.length < a → s.length < b) :
    ((outcome.required fault s).andThen fun u s h => .parsed (build u) s (hab s h)).Gives t r ↔
      ∃ u, outcome.Gives u r ∧ t = build u := by
  rw [gives_required_andThen (P := fun u s => t = build u ∧ r = s) fun _ _ _ => gives_parsed _]
  constructor
  · rintro ⟨u, s, hgives, ht, rfl⟩
    exact ⟨u, hgives, ht⟩
  · rintro ⟨u, hgives, ht⟩
    exact ⟨u, r, hgives, ht, rfl⟩

end Outcome

open Outcome

variable {ts rest : List Token} {c name bracket : Token}
variable {t left : Tree} {r : List Token} {level : Level} {tighter : List Level}

theorem gives_close {build : Token → Tree} :
    (close build ts).Gives t r ↔
      ∃ c, ts = c :: r ∧ c.operator? = some .closeBracket ∧ t = build c := by
  cases ts with
  | nil => simp [close]
  | cons c rest =>
    by_cases h : c.operator? = some .closeBracket
    · simp only [close, h, if_true, gives_parsed, List.cons.injEq]
      constructor
      · rintro ⟨rfl, rfl⟩
        exact ⟨c, ⟨rfl, rfl⟩, h, rfl⟩
      · rintro ⟨_, ⟨rfl, rfl⟩, -, rfl⟩
        exact ⟨rfl, rfl⟩
    · simp only [close, h, if_false, not_gives_failed, List.cons.injEq, false_iff]
      rintro ⟨_, ⟨rfl, rfl⟩, hc, -⟩
      exact h hc

theorem gives_required_close {a b : Nat} {outcome : Outcome a} {fault : Fault}
    {build : Tree → Token → Tree} {s : List Token}
    (hab : ∀ s : List Token, s.length < a → s.length ≤ b) :
    ((outcome.required fault s).andThen fun u s h =>
        (close (build u) s).widen (hab s h)).Gives t r ↔
      ∃ u last, outcome.Gives u (last :: r) ∧ last.operator? = some .closeBracket ∧
        t = build u last := by
  rw [gives_required_andThen (P := fun u s => (close (build u) s).Gives t r)
    fun _ _ _ => gives_widen _ _]
  simp only [gives_close]
  constructor
  · rintro ⟨u, _, hu, last, rfl, hlast, ht⟩
    exact ⟨u, last, hu, hlast, ht⟩
  · rintro ⟨u, last, hu, hlast, ht⟩
    exact ⟨u, last :: r, hu, last, rfl, hlast, ht⟩

theorem gives_steps_nil {operand : Tree} :
    (steps operand []).Gives t r ↔ t = operand ∧ r = [] := by
  simp [steps]

theorem gives_steps_cons {operand : Tree} :
    (steps operand (c :: rest)).Gives t r ↔
      if (among? suffixOperators c).isSome then
        (steps (.node .suffix [operand, .leaf c]) rest).Gives t r
      else t = operand ∧ r = c :: rest := by
  rw [steps]
  cases h : among? suffixOperators c <;> simp

theorem gives_list :
    (list ts).Gives t r ↔
      ∃ first rest, (assignment ts).Gives first rest ∧ (listTail first rest).Gives t r := by
  rw [list]
  exact gives_andThen fun _ _ _ => gives_widen _ _

theorem gives_listTail_nil : (listTail left []).Gives t r ↔ t = left ∧ r = [] := by
  simp [listTail]

theorem gives_listTail_cons :
    (listTail left (c :: rest)).Gives t r ↔
      if c.operator? = some .comma then
        ∃ right rest', (assignment rest).Gives right rest' ∧
          (listTail (.node .list [left, .leaf c, right]) rest').Gives t r
      else t = left ∧ r = c :: rest := by
  rw [listTail]
  split
  · exact gives_required_andThen fun _ _ _ => gives_widen _ _
  · simp

theorem gives_assignment :
    (assignment ts).Gives t r ↔
      ∃ target rest, (conditional ts).Gives target rest ∧
        match rest with
        | [] => t = target ∧ r = []
        | op :: value =>
          if op.operator?.any Operator.isAssignment ∧ target.isUnaryLevel then
            ∃ right, (assignment value).Gives right r ∧
              t = .node .assignment [target, .leaf op, right]
          else t = target ∧ r = op :: value := by
  rw [assignment]
  apply gives_andThen
  intro target rest h
  cases rest with
  | nil => simp
  | cons op value =>
    cases ho : op.operator? with
    | none => simp [ho]
    | some o =>
      simp only [ho, Option.any_some]
      split
      · exact gives_required_build _
      · simp

theorem gives_conditional :
    (conditional ts).Gives t r ↔
      ∃ condition rest, (binary levels ts).Gives condition rest ∧
        match rest with
        | [] => t = condition ∧ r = []
        | mark :: branches =>
          if mark.operator? = some .question then
            ∃ first behind, (list branches).Gives first behind ∧
              ∃ sep second, behind = sep :: second ∧ sep.operator? = some .colon ∧
                ∃ other, (conditional second).Gives other r ∧
                  t = .node .conditional [condition, .leaf mark, first, .leaf sep, other]
          else t = condition ∧ r = mark :: branches := by
  rw [conditional]
  apply gives_andThen
  intro condition rest h
  cases rest with
  | nil => simp
  | cons mark branches =>
    simp only
    split
    · apply gives_required_andThen
      intro first behind h₁
      cases behind with
      | nil => simp
      | cons sep second =>
        simp only
        split
        · rename_i hsep
          rw [gives_required_build]
          constructor
          · rintro ⟨other, hother, ht⟩
            exact ⟨sep, second, rfl, hsep, other, hother, ht⟩
          · rintro ⟨_, _, heq, -, other, hother, ht⟩
            cases heq
            exact ⟨other, hother, ht⟩
        · rename_i hsep
          simp [hsep]
    · simp

theorem gives_binary_nil : (binary [] ts).Gives t r ↔ (unary ts).Gives t r := by
  rw [binary]

theorem gives_binary_cons :
    (binary (level :: tighter) ts).Gives t r ↔
      ∃ left rest, (binary tighter ts).Gives left rest ∧
        (binaryTail level tighter left rest).Gives t r := by
  rw [binary]
  exact gives_andThen fun _ _ _ => gives_widen _ _

theorem gives_binaryTail_nil :
    (binaryTail level tighter left []).Gives t r ↔ t = left ∧ r = [] := by
  simp [binaryTail]

theorem gives_binaryTail_cons :
    (binaryTail level tighter left (c :: rest)).Gives t r ↔
      if (among? level.operators c).isSome then
        ∃ right rest', (binary tighter rest).Gives right rest' ∧
          (binaryTail level tighter (.node level.rule [left, .leaf c, right]) rest').Gives t r
      else t = left ∧ r = c :: rest := by
  rw [binaryTail]
  cases hc : among? level.operators c with
  | none => simp
  | some op =>
    simp only [Option.isSome_some, if_true]
    exact gives_required_andThen fun _ _ _ => gives_widen _ _

theorem not_gives_unary_nil : ¬ (unary []).Gives t r := by
  simp [unary]

theorem gives_unary_cons :
    (unary (c :: rest)).Gives t r ↔
      if (among? unaryOperators c).isSome then
        ∃ operand, (unary rest).Gives operand r ∧ t = .node .unary [.leaf c, operand]
      else (power (c :: rest)).Gives t r := by
  rw [unary]
  cases hc : among? unaryOperators c with
  | none => simp
  | some op =>
    simp only [Option.isSome_some, if_true]
    exact gives_required_build _

theorem gives_power :
    (power ts).Gives t r ↔
      ∃ base rest, (suffix ts).Gives base rest ∧
        match rest with
        | [] => t = base ∧ r = []
        | op :: exponent =>
          if op.operator? = some .power then
            ∃ right, (unary exponent).Gives right r ∧ t = .node .power [base, .leaf op, right]
          else t = base ∧ r = op :: exponent := by
  rw [power]
  apply gives_andThen
  intro base rest h
  cases rest with
  | nil => simp
  | cons op exponent =>
    simp only
    split
    · exact gives_required_build _
    · simp

def Head (ts : List Token) (t : Tree) (r : List Token) : Prop :=
  match ts with
  | name :: bracket :: rest =>
    if name.name?.isSome ∧ bracket.operator? = some .openBracket then
      (call name bracket rest).Gives t r
    else (primary (name :: bracket :: rest)).Gives t r
  | ts => (primary ts).Gives t r

theorem gives_suffix :
    (suffix ts).Gives t r ↔
      ∃ operand rest, Head ts operand rest ∧ (steps operand rest).Gives t r := by
  rw [suffix.eq_def]
  refine (gives_andThen (P := fun operand rest => (steps operand rest).Gives t r)
    fun _ _ _ => gives_widen _ _).trans ?_
  refine exists_congr fun operand => exists_congr fun rest => and_congr_left' ?_
  match ts with
  | [] => simp [Head]
  | [c] => simp [Head]
  | name :: bracket :: rest =>
    simp only [Head]
    split <;> simp

theorem gives_call_cons :
    (call name bracket (c :: rest)).Gives t r ↔
      if c.operator? = some .closeBracket then
        t = .node .suffix [.leaf name, .leaf bracket, .leaf c] ∧ r = rest
      else
        ∃ args last, (arguments (c :: rest)).Gives args (last :: r) ∧
          last.operator? = some .closeBracket ∧
          t = .node .suffix [.leaf name, .leaf bracket, args, .leaf last] := by
  rw [call]
  split
  · simp
  · exact gives_required_close _

theorem not_gives_call_nil : ¬ (call name bracket []).Gives t r := by
  simp [call]

theorem gives_arguments :
    (arguments ts).Gives t r ↔
      ∃ first rest, (assignment ts).Gives first rest ∧ (argumentsTail [first] rest).Gives t r := by
  rw [arguments]
  exact gives_andThen fun _ _ _ => gives_widen _ _

theorem gives_argumentsTail_nil {read : List Tree} :
    (argumentsTail read []).Gives t r ↔ t = .node .arguments read ∧ r = [] := by
  simp [argumentsTail]

theorem gives_argumentsTail_cons {read : List Tree} :
    (argumentsTail read (c :: rest)).Gives t r ↔
      if c.operator? = some .comma then
        ∃ next rest', (assignment rest).Gives next rest' ∧
          (argumentsTail (read ++ [next]) rest').Gives t r
      else t = .node .arguments read ∧ r = c :: rest := by
  rw [argumentsTail]
  split
  · exact gives_required_andThen fun _ _ _ => gives_widen _ _
  · simp

theorem not_gives_primary_nil : ¬ (primary []).Gives t r := by
  simp [primary]

theorem gives_primary_cons :
    (primary (c :: rest)).Gives t r ↔
      match c.operator? with
      | none => t = .leaf c ∧ r = rest
      | some .openBracket =>
        match rest with
        | [] => False
        | first :: _ =>
          first.operator? ≠ some .closeBracket ∧
            ∃ inner last, (list rest).Gives inner (last :: r) ∧
              last.operator? = some .closeBracket ∧ t = .node .group [.leaf c, inner, .leaf last]
      | some _ => False := by
  rw [primary.eq_def]
  cases hc : c.operator? with
  | none => simp [hc]
  | some op =>
    cases rest with
    | nil => cases op <;> simp [hc]
    | cons first inside =>
      by_cases hop : op = .openBracket
      · subst hop
        simp only [hc]
        split
        · simp [*]
        · simp only [*, ne_eq, not_false_eq_true, true_and]
          exact gives_required_close _
      · cases op <;> simp_all

end Reckoner.Tree
