import Reckoner.Proofs.Machine.Along
import Reckoner.Proofs.Machine.Discipline
import Reckoner.Proofs.Machine.Stacked

/-!
Code that only reads. The code of a tree without assignments, steps and calls comes to an end and
leaves the environment as it is, and which variables are among the entries it leaves is told by the
tree. Whatever fails in it leaves a failed entry, but for a condition without a value, which chooses
like a false one.
-/

namespace Reckoner

namespace Tree

def acts : Tree → Bool
  | node .assignment _ | node .suffix _ => true
  | node .unary [leaf op, _] => op.operator? == some .increment || op.operator? == some .decrement
  | _ => false

def OnlyReads (tree : Tree) : Prop := ∀ part ∈ tree.parts, part.acts = false

instance (tree : Tree) : Decidable tree.OnlyReads :=
  inferInstanceAs (Decidable (∀ part ∈ tree.parts, part.acts = false))

theorem OnlyReads.child {rule : Rule} {children : List Tree} (h : (node rule children).OnlyReads)
    {child : Tree} (hchild : child ∈ children) : child.OnlyReads := fun part hpart =>
  h part (mem_parts_node.2 (.inr ⟨child, hchild, hpart⟩))

theorem OnlyReads.not_acts {tree : Tree} (h : tree.OnlyReads) : ¬ tree.acts := by
  rw [h tree tree.mem_parts_self]
  exact Bool.false_ne_true

theorem acts_step {op : Token} {o : Operator} (hop : op.operator? = some o)
    (hstep : o = .increment ∨ o = .decrement) (operand : Tree) :
    (node .unary [leaf op, operand]).acts := by
  rcases hstep with rfl | rfl <;> simp [acts, hop]

/-- The variables among the entries that the code of the tree leaves, the newest first. What an
operator leaves takes the place of the entries it takes. -/
def entries : Tree → List (Option String)
  | leaf token => [token.name?]
  | node .list [left, _, right] => right.entries ++ left.entries
  | node .conditional _ => [none]
  | node .unary [_, operand] => none :: operand.entries.drop 1
  | node .group [_, inner, _] => inner.entries
  | node _ [left, _, right] => none :: (right.entries ++ left.entries).drop 2
  | _ => [none]

theorem entries_operation {rule : Rule} (h : Program.isInfix rule) (left op right : Tree) :
    (node rule [left, op, right]).entries = none :: (right.entries ++ left.entries).drop 2 := by
  cases rule <;> first | exact absurd h (by decide) | rw [entries] <;> simp

/-- There is a place for each entry. -/
theorem length_entries {tree : Tree} (h : tree.OnlyReads) : tree.entries.length = tree.width := by
  fun_induction entries tree with
  | case1 | case3 => rw [width, List.length_singleton]
  | case2 left _ right ihr ihl =>
    rw [width, List.length_append, ihl (h.child (by simp)), ihr (h.child (by simp)), Nat.add_comm]
  | case4 _ operand ih =>
    have hpos := operand.one_le_width
    rw [width, List.length_cons, List.length_drop, ih (h.child (by simp))]
    omega
  | case5 _ inner _ ih =>
    rw [width]
    exact ih (h.child (by simp))
  | case6 rule left _ right _ _ _ ihr ihl =>
    have hassignment : rule ≠ .assignment := by
      rintro rfl
      exact h.not_acts rfl
    have hsuffix : rule ≠ .suffix := by
      rintro rfl
      exact h.not_acts rfl
    have hleft := left.one_le_width
    have hright := right.one_le_width
    rw [width, List.length_cons, List.length_drop, List.length_append, ihl (h.child (by simp)),
      ihr (h.child (by simp))]
    · omega
    all_goals simp_all
  | case7 tree _ _ _ _ _ hother =>
    unfold width
    split <;> first | rfl | exact (hother _ _ _ _ rfl).elim | simp_all

/-- The conditions in the tree, but for those in the branches and conditions of others. -/
def conditions : Tree → List Tree
  | leaf _ => []
  | node .conditional (condition :: _) => [condition]
  | node .unary [_, operand] => operand.conditions
  | node .group [_, inner, _] => inner.conditions
  | node _ [left, _, right] => left.conditions ++ right.conditions
  | _ => []

theorem conditions_operation {rule : Rule} (h : Program.isInfix rule) (left op right : Tree) :
    (node rule [left, op, right]).conditions = left.conditions ++ right.conditions := by
  cases rule <;> first | exact absurd h (by decide) | rw [conditions] <;> simp

end Tree

namespace Machine

open Program

variable {registry : Registry} {tree : Tree} {code : Program} {runner : Runner} {depth : Nat}

def Slot.name? : Slot → Option String
  | name x => some x
  | _ => none

/-- Behind the code of one tree. -/
theorem perform_emitted_operator (h : Emits registry tree code) (op : Operator) (below : Stack) :
    perform runner depth (code ++ [.operator op]) below =
      perform runner depth code [] >>= fun stack => operator runner depth op (stack ++ below) := by
  rw [perform_emitted h]
  refine bind_congr fun stack => ?_
  have hnil : perform runner depth [] = pure := funext (perform_nil runner depth)
  rw [perform_operator, hnil, bind_pure]

/-- Behind the code of two trees. -/
theorem perform_emitted_both {left right : Tree} {l r : Program} (hl : Emits registry left l)
    (hr : Emits registry right r) (op : Operator) :
    perform runner depth (l ++ r ++ [.operator op]) [] =
      perform runner depth l [] >>= fun stack =>
        perform runner depth r [] >>= fun stack' => operator runner depth op (stack' ++ stack) := by
  rw [List.append_assoc, perform_emitted hl]
  refine bind_congr fun stack => ?_
  rw [List.append_nil, perform_emitted_operator hr]

/-- From this state the computation comes to an end, stopped or not, and leaves the environment as
it is. What it is done with has the property. -/
def Rests {α : Type} (m : Machine α) (s : State) (P : α → State → Prop) : Prop :=
  match m s with
  | .done a t => t.env = s.env ∧ P a t
  | .stopped _ t => t.env = s.env
  | .outOfFuel => False

section Rests

variable {α β : Type} {m : Machine α} {f : α → Machine β} {s t : State} {a : α}
  {P : α → State → Prop} {Q : β → State → Prop}

theorem rests_of_done (h : m s = .done a t) (henv : t.env = s.env) (ha : P a t) : Rests m s P := by
  rw [Rests, h]
  exact ⟨henv, ha⟩

theorem Rests.bind (hm : Rests m s P)
    (hf : ∀ a t, m s = .done a t → t.env = s.env → P a t → Rests (f a) t Q) :
    Rests (m >>= f) s Q := by
  rw [Rests, bind_eq]
  rw [Rests] at hm
  cases hdone : m s with
  | done a t =>
    rw [hdone] at hm
    have hafter := hf a t hdone hm.1 hm.2
    rw [Rests, hm.1] at hafter
    exact hafter
  | stopped e t =>
    rw [hdone] at hm
    exact hm
  | outOfFuel =>
    rw [hdone] at hm
    exact hm.elim

theorem Rests.mono {P' : α → State → Prop} (hm : Rests m s P) (h : ∀ a t, P a t → P' a t) :
    Rests m s P' := by
  rw [Rests] at hm ⊢
  split at hm
  · exact ⟨hm.1, h _ _ hm.2⟩
  · exact hm
  · exact hm

end Rests

def FailsIn (depth : Nat) (env : Environment) (code : Program) : Prop :=
  ∃ fuel journal execution after journal',
    run fuel depth code env journal = some (execution, after, journal') ∧
      execution.failure.isSome

def IsUndecided (registry : Registry) (depth : Nat) (env : Environment) (tree : Tree) : Prop :=
  ∃ condition ∈ tree.conditions, ∃ code, Emits registry condition code ∧ FailsIn depth env code

/-- What code leaves on the stack that goes from one state to another. What fails on the way leaves
a failed entry, unless it is a condition that has no value. -/
structure IsLeft (undecided : Prop) (entries : List (Option String)) (s : State) (stack : Stack)
    (t : State) : Prop where
  entries : stack.map Slot.name? = entries
  reported : IsReported stack t.failure
  kept : s.failure.isSet → t.failure.isSet
  failed : t.failure.isSet → s.failure.isSet ∨ .failed ∈ stack ∨ undecided

namespace IsLeft

variable {undecided undecided' : Prop} {entries entries' : List (Option String)} {s t u : State}
  {stack stack' : Stack}

theorem imp (h : IsLeft undecided entries s stack t) (himp : undecided → undecided') :
    IsLeft undecided' entries s stack t :=
  ⟨h.entries, h.reported, h.kept, fun hset => (h.failed hset).imp_right (.imp_right himp)⟩

/-- What is left on top of other entries. -/
theorem append (h : IsLeft undecided entries s stack t)
    (h' : IsLeft undecided entries' t stack' u) :
    IsLeft undecided (entries' ++ entries) s (stack' ++ stack) u where
  entries := by rw [List.map_append, h.entries, h'.entries]
  reported hmem := (List.mem_append.1 hmem).elim h'.reported fun hbelow =>
    h'.kept (h.reported hbelow)
  kept hset := h'.kept (h.kept hset)
  failed hset := by
    rcases h'.failed hset with hset | hmem | hundecided
    · rcases h.failed hset with hset | hmem | hundecided
      · exact .inl hset
      · exact .inr (.inl (List.mem_append_right _ hmem))
      · exact .inr (.inr hundecided)
    · exact .inr (.inl (List.mem_append_left _ hmem))
    · exact .inr (.inr hundecided)

theorem push (s : State) {slot : Slot} (h : slot ≠ .failed) (undecided : Prop) :
    IsLeft undecided [slot.name?] s [slot] s where
  entries := rfl
  reported hmem := absurd (List.mem_singleton.1 hmem).symm h
  kept := id
  failed := .inl

/-- A result takes the place of the entries that it was made from. -/
theorem result (h : IsLeft undecided entries s stack t) (count : Nat) {r : Except Error Value}
    (hok : ∀ v, r = .ok v → .failed ∉ stack.take count) (hfailure : u.failure = t.failure.after r) :
    IsLeft undecided (none :: entries.drop count) s (.ofResult r :: stack.drop count) u where
  entries := by
    rw [List.map_cons, List.map_drop, h.entries]
    cases r <;> rfl
  reported hmem := by
    rw [hfailure]
    exact Launch.IsReported.push_result (h.reported.subset fun _ => List.mem_of_mem_drop) r hmem
  kept hset := by
    rw [hfailure]
    exact FirstError.isSet_after_of_isSet (h.kept hset) r
  failed hset := by
    cases r with
    | error e => exact .inr (.inl (.head _))
    | ok v =>
      rw [hfailure] at hset
      refine (h.failed hset).imp_right (.imp_left fun hmem => ?_)
      rw [← List.take_append_drop count stack] at hmem
      exact .tail _ ((List.mem_append.1 hmem).resolve_left (hok v rfl))

end IsLeft

/-- The code of two trees, one behind the other. -/
theorem rests_both {undecided : Prop} {entries entries' : List (Option String)} {s : State}
    {m m' : Machine Stack} {f : Stack → Machine Stack} {Q : Stack → State → Prop}
    (hm : Rests m s (IsLeft undecided entries s))
    (hm' : ∀ t, t.env = s.env → Rests m' t (IsLeft undecided entries' t))
    (hf : ∀ stack t, IsLeft undecided (entries' ++ entries) s stack t → Rests (f stack) t Q) :
    Rests (m >>= fun stack => m' >>= fun stack' => f (stack' ++ stack)) s Q :=
  hm.bind fun _ t _ henv h => (hm' t henv).bind fun _ _ _ _ h' => hf _ _ (h.append h')

theorem failed_notMem_take_one {env : Environment} {stack : Stack} {v : Value}
    (h : look env stack = .ok v) : .failed ∉ stack.take 1 := by
  match stack with
  | [] => cases h
  | .failed :: _ => cases h
  | .name _ :: _ | .value _ :: _ | .block _ :: _ | .openCall :: _ => simp

theorem failed_notMem_take_two {env : Environment} {stack : Stack} {v w : Value}
    (h : look env stack = .ok v) (h' : look env (stack.drop 1) = .ok w) :
    .failed ∉ stack.take 2 := by
  have hfirst := failed_notMem_take_one h
  have hsecond := failed_notMem_take_one h'
  cases stack with
  | nil => cases h
  | cons slot rest => simp_all

/-- An operator with one operand. -/
theorem rests_unary {undecided : Prop} {entries : List (Option String)} {s t : State}
    {stack : Stack} (op : Operator) (h : IsLeft undecided entries s stack t) :
    Rests (unary op stack) t (IsLeft undecided (none :: entries.drop 1) s) := by
  obtain ⟨journal, hunary⟩ := reads_unary op h.reported
  refine rests_of_done hunary rfl (h.result 1 (fun v hresult => ?_) rfl)
  obtain ⟨_, hlook, -⟩ := Program.bind_eq_ok.1 hresult
  exact failed_notMem_take_one hlook

/-- An operator with two operands. -/
theorem rests_binary {undecided : Prop} {entries : List (Option String)} {s t : State}
    {stack : Stack} (op : Operator) (h : IsLeft undecided entries s stack t) :
    Rests (binary op stack) t (IsLeft undecided (none :: entries.drop 2) s) := by
  obtain ⟨journal, hbinary⟩ := reads_binary op h.reported
  refine rests_of_done hbinary rfl (h.result 2 (fun v hresult => ?_) rfl)
  obtain ⟨_, hright, hresult⟩ := Program.bind_eq_ok.1 hresult
  obtain ⟨_, hleft, -⟩ := Program.bind_eq_ok.1 hresult
  exact failed_notMem_take_two hright hleft

def Idles (runner : Runner) (depth : Nat) (env : Environment) (body : Program) : Prop :=
  ∀ journal, ∃ execution journal', runner depth body env journal = some (execution, env, journal')

/-- Code that rests idles as a branch. -/
theorem idles_of_rests {fuel : Nat} {P : State → Stack → State → Prop}
    (hreported : ∀ {s stack t}, P s stack t → IsReported stack t.failure)
    (h : ∀ s, Rests (perform (run fuel) depth code []) s (P s)) (env : Environment) :
    Idles (run (fuel + 1)) depth env code := by
  intro journal
  have hrests := h ⟨env, journal, FirstError.none⟩
  rw [Rests] at hrests
  split at hrests
  · next stack t hdone =>
    obtain ⟨henv, hP⟩ := hrests
    obtain ⟨values, ⟨journal', hcollect⟩, -⟩ :=
      collect_eq ((hreported hP).subset fun _ => List.mem_reverse.1)
    simp only [run, runWith, bind_eq, hdone, hcollect, henv]
    exact ⟨_, _, rfl⟩
  · next e t hstopped =>
    simp only [run, runWith, bind_eq, hstopped, hrests]
    exact ⟨_, _, rfl⟩
  · exact hrests.elim

/-- The one value that a run is to leave is not there. -/
theorem failsIn_of_perform {fuel : Nat} {slot : Slot} {s t : State}
    (hdone : perform (run fuel) depth code [] s = .done [slot] t)
    (hreported : IsReported [slot] t.failure) (hnone : ¬ s.failure.isSet)
    (hset : (t.failure.after (slot.look t.env)).isSet) :
    FailsIn depth s.env code := by
  have hstart : s = ⟨s.env, s.journal, FirstError.none⟩ := by
    obtain ⟨env, journal, ⟨held⟩⟩ := s
    cases held with
    | none => rfl
    | some e => exact absurd rfl hnone
  obtain ⟨values, ⟨journal', hcollect⟩, -⟩ := @collect_eq t [slot] hreported
  refine ⟨fuel + 1, s.journal, ⟨values, (t.failure.after (lookAll t.env [slot])).held⟩, t.env,
    journal', ?_, ?_⟩
  · rw [hstart] at hdone
    rw [run, runWith]
    simp only [bind_eq, hdone, List.reverse_singleton, hcollect]
  · have hall : t.failure.after (lookAll t.env [slot]) = t.failure.after (slot.look t.env) := by
      rw [lookAll]
      cases slot.look t.env <;> rfl
    rw [hall]
    exact hset

/-- With idle branches the conditional leaves the result of one of them. -/
theorem conditional_of_idles {condition : Slot} {second first : Program} {rest : Stack} {t : State}
    (hreported : IsReported (condition :: .block second :: .block first :: rest) t.failure)
    (hfirst : Idles runner depth t.env first) (hsecond : Idles runner depth t.env second) :
    ∃ result journal,
      conditional runner depth (condition :: .block second :: .block first :: rest) t =
        .done (.ofResult result :: rest)
          ⟨t.env, journal, (t.failure.after (condition.look t.env)).after result⟩ := by
  obtain ⟨journal, hpop⟩ := reads_popValue hreported
  simp only [conditional, bind_eq, hpop, List.drop_succ_cons, List.drop_zero]
  generalize ((look _ _).toOption.bind _).getD false = holds
  have hbody : Idles runner depth t.env (if holds then first else second) := by
    split
    · exact hfirst
    · exact hsecond
  obtain ⟨execution, journal', hrun⟩ := hbody journal
  refine ⟨execution.last, journal', ?_⟩
  simp only [nested, hrun, slotOf_eq]
  rfl

/-- Without both branches below the condition the run is stopped. -/
theorem rests_stuck {condition other : Slot} (hother : other.shape.isReadable) {rest : Stack}
    {t : State} (hreported : IsReported (condition :: other :: rest) t.failure)
    (Q : Stack → State → Prop) :
    Rests (conditional runner depth (condition :: other :: rest)) t Q := by
  obtain ⟨journal, hpop⟩ := reads_popValue hreported
  rw [conditional, Rests, bind_eq, hpop]
  cases other with
  | name | value | failed => rfl
  | block | openCall => cases hother

/-- A conditional leaves the result of a branch. If something fails that the entry does not tell, it
is the condition. -/
theorem rests_choice {fuel : Nat} {condition : Tree} {a b c : Program}
    {entries : List (Option String)} {undecided : Prop} {s : State}
    (hcondition : Emits registry condition c)
    (hrests : Rests (perform (run fuel) depth c []) s (IsLeft undecided entries s))
    (hfirst : Idles (run fuel) depth s.env a) (hsecond : Idles (run fuel) depth s.env b) :
    Rests (perform (run fuel) depth c [] >>= fun stack =>
        conditional (run fuel) depth (stack ++ [.block b, .block a])) s
      (IsLeft (FailsIn depth s.env c) [none] s) := by
  refine hrests.bind fun stack t hdone henv h => ?_
  obtain ⟨hlength, hread⟩ := ends_emitted hcondition hdone
  have hpos := condition.one_le_width
  have hreported : IsReported (stack ++ [.block b, .block a]) t.failure := fun hmem =>
    h.reported (by simpa using hmem)
  match stack with
  | [] => exact absurd hlength (by simp; omega)
  | slot :: other :: _ => exact rests_stuck (hread other (by simp)) hreported _
  | [slot] =>
    obtain ⟨result, journal, hconditional⟩ :=
      conditional_of_idles hreported (henv ▸ hfirst) (henv ▸ hsecond)
    refine rests_of_done hconditional rfl ⟨?_, ?_, fun hset => ?_, fun hset => ?_⟩
    · cases result <;> rfl
    · exact @Launch.IsReported.push_result [] _ nofun result
    · exact FirstError.isSet_after_of_isSet
        (FirstError.isSet_after_of_isSet (h.kept hset) _) result
    · cases result with
      | error e => exact .inr (.inl (.head _))
      | ok v =>
        by_cases hnone : s.failure.isSet
        · exact .inl hnone
        · exact .inr (.inr (failsIn_of_perform hdone h.reported hnone hset))

def ComesToRest (registry : Registry) (depth : Nat) (tree : Tree) (code : Program) : Prop :=
  ∃ enough, ∀ fuel, enough ≤ fuel → ∀ s : State,
    Rests (perform (run fuel) depth code []) s
      (IsLeft (IsUndecided registry depth s.env tree) tree.entries s)

theorem comesToRest_leaf {token : Token} (h : ofToken token = .ok code) :
    ComesToRest registry depth (.leaf token) code := by
  refine ⟨0, fun fuel _ s => ?_⟩
  obtain ⟨kind, position⟩ := token
  rw [Tree.entries]
  cases kind with
  | name name =>
    cases h
    rw [perform_name, perform_nil]
    exact rests_of_done rfl rfl (@IsLeft.push s (.name name) nofun _)
  | integer | real | string =>
    cases h
    rw [perform_value, perform_nil]
    exact rests_of_done rfl rfl (@IsLeft.push s (.value _) nofun _)
  | operator op => cases h

theorem ComesToRest.both {left right whole : Tree} {l r : Program} {op : Operator}
    (hl : Emits registry left l) (hr : Emits registry right r)
    (hleft : ComesToRest registry depth left l) (hright : ComesToRest registry depth right r)
    (hconditions : whole.conditions = left.conditions ++ right.conditions)
    (hop : ∀ (runner : Runner) (undecided : Prop) (s t : State) (stack : Stack),
      IsLeft undecided (right.entries ++ left.entries) s stack t →
        Rests (operator runner depth op stack) t (IsLeft undecided whole.entries s)) :
    ComesToRest registry depth whole (l ++ r ++ [.operator op]) := by
  obtain ⟨enough, hleft⟩ := hleft
  obtain ⟨enough', hright⟩ := hright
  have hpart {part : Tree} (hsub : part.conditions ⊆ whole.conditions) {env : Environment} :
      IsUndecided registry depth env part → IsUndecided registry depth env whole :=
    fun ⟨c, hc, hfails⟩ => ⟨c, hsub hc, hfails⟩
  refine ⟨max enough enough', fun fuel hle s => ?_⟩
  rw [perform_emitted_both hl hr]
  refine rests_both ((hleft fuel (by omega) s).mono fun _ _ h => h.imp (hpart ?_))
    (fun t henv => (hright fuel (by omega) t).mono fun _ _ h => h.imp ?_) fun stack t h =>
      hop _ _ s t stack h
  · rw [hconditions]
    exact List.subset_append_left _ _
  · rw [henv]
    refine hpart ?_
    rw [hconditions]
    exact List.subset_append_right _ _

theorem ComesToRest.choice {mark sep : Token} {condition first second : Tree} {a b c : Program}
    (ha : Emits registry first a) (hb : Emits registry second b) (hc : Emits registry condition c)
    (hfirst : ComesToRest registry depth first a) (hsecond : ComesToRest registry depth second b)
    (hcondition : ComesToRest registry depth condition c) :
    ComesToRest registry depth
      (.node .conditional [condition, .leaf mark, first, .leaf sep, second])
      ([Instruction.startBlock] ++ a ++ [Instruction.endBlock, .startBlock] ++ b ++
        [Instruction.endBlock] ++ c ++ [Instruction.operator .question]) := by
  obtain ⟨enough, hfirst⟩ := hfirst
  obtain ⟨enough', hsecond⟩ := hsecond
  obtain ⟨enough'', hcondition⟩ := hcondition
  have hsplit := (balanced_of_emits ha).splitBlock_append
    (.startBlock :: (b ++ .endBlock :: (c ++ [.operator .question])))
  have hsplit' := (balanced_of_emits hb).splitBlock_append (c ++ [.operator .question])
  -- The branches are run with one level less.
  refine ⟨max (max enough enough' + 1) enough'', fun fuel hle s => ?_⟩
  obtain ⟨fuel, rfl⟩ : ∃ fuel', fuel = fuel' + 1 := ⟨fuel - 1, by omega⟩
  rw [choice_eq_cons, perform_startBlock _ _ _ hsplit, perform_startBlock _ _ _ hsplit',
    perform_emitted_operator hc, Tree.entries]
  have hidles := idles_of_rests IsLeft.reported (hfirst fuel (by omega)) s.env
  have hidles' := idles_of_rests IsLeft.reported (hsecond fuel (by omega)) s.env
  have hchoice := rests_choice hc (hcondition _ (by omega) s) hidles hidles'
  apply hchoice.mono
  intro stack t hleft
  apply hleft.imp
  intro hfails
  exact ⟨condition, by simp [Tree.conditions], c, hc, hfails⟩

/-- All code of trees that only read does so. -/
theorem comesToRest_of_emits (h : Emits registry tree code) (honly : tree.OnlyReads) (depth : Nat) :
    ComesToRest registry depth tree code := by
  induction h with
  | leaf h => exact comesToRest_leaf h
  | assign | compound | stepAfter | emptyCall | call => exact (honly.not_acts rfl).elim
  | stepFirst hop _ hstep => exact (honly.not_acts (Tree.acts_step hop hstep _)).elim
  | list hl hr _ ihl ihr =>
    refine .both hl hr (ihl (honly.child (by simp))) (ihr (honly.child (by simp)))
      (by rw [Tree.conditions] <;> simp) fun runner undecided s t stack h => ?_
    rw [Tree.entries]
    exact rests_of_done rfl rfl h
  | choice hfirst hsecond hcondition _ _ iha ihb ihc =>
    exact .choice hfirst hsecond hcondition (iha (honly.child (by simp)))
      (ihb (honly.child (by simp))) (ihc (honly.child (by simp)))
  | prefixed _ _ hone hvalue _ ih =>
    obtain ⟨enough, ih⟩ := ih (honly.child (by simp))
    refine ⟨enough, fun fuel hle s => ?_⟩
    rw [perform_emitted_operator hvalue, Tree.entries, operator_of_takesOne hone]
    refine (ih fuel hle s).bind fun stack t _ _ h => ?_
    rw [List.append_nil]
    exact rests_unary _ h
  | group _ ih =>
    obtain ⟨enough, ih⟩ := ih (honly.child (by simp))
    exact ⟨enough, ih⟩
  | operation hrule _ htwo hl hr _ _ ihl ihr =>
    refine .both hl hr (ihl (honly.child (by simp))) (ihr (honly.child (by simp)))
      (Tree.conditions_operation hrule _ _ _) fun runner undecided s t stack h => ?_
    rw [Tree.entries_operation hrule, operator_of_takesTwo htwo]
    exact rests_binary _ h

end Machine

end Reckoner
