import Reckoner.Proofs.Machine.Basic

/-!
Two machines side by side. When a relation between their states outlives the reading and the
writing of variables and the report of failures, it outlives whatever is built from these, and both
machines compute the same. The first one may be allowed to run out of fuel sooner.
-/

namespace Reckoner.Machine

/-- Outcomes of the same kind, with related results and states. If `lax` holds, the first machine
may lack fuel where the second does not. -/
inductive Outcome.Mirrors {α β : Type} (lax : Prop) (R : State → State → Prop) (Q : α → β → Prop) :
    Outcome α → Outcome β → Prop where
  | done {a : α} {b : β} {s s' : State} (hQ : Q a b) (hR : R s s') :
      Mirrors lax R Q (.done a s) (.done b s')
  | stopped {s s' : State} (error : Error) (hR : R s s') :
      Mirrors lax R Q (.stopped error s) (.stopped error s')
  | outOfFuel : Mirrors lax R Q .outOfFuel .outOfFuel
  | short (hlax : lax) (o : Outcome β) : Mirrors lax R Q .outOfFuel o

def Mirrors {α β : Type} (lax : Prop) (R : State → State → Prop) (Q : α → β → Prop)
    (m : Machine α) (m' : Machine β) : Prop :=
  ∀ ⦃s s'⦄, R s s' → Outcome.Mirrors lax R Q (m s) (m' s')

variable {lax : Prop} {R : State → State → Prop} {α α' β β' : Type} {Q : α → α' → Prop}
  {P : β → β' → Prop}

theorem mirrors_pure {a : α} {a' : α'} (h : Q a a') : Mirrors lax R Q (pure a) (pure a') :=
  fun _ _ hR => .done h hR

theorem Mirrors.bind {m : Machine α} {m' : Machine α'} {f : α → Machine β} {f' : α' → Machine β'}
    (hm : Mirrors lax R Q m m') (hf : ∀ a a', Q a a' → Mirrors lax R P (f a) (f' a')) :
    Mirrors lax R P (m >>= f) (m' >>= f') := by
  intro s s' hR
  have hrel := hm hR
  rw [bind_eq, bind_eq]
  generalize m s = o at hrel ⊢
  generalize m' s' = o' at hrel ⊢
  cases hrel with
  | done hQ h => exact hf _ _ hQ h
  | stopped error h => exact .stopped error h
  | outOfFuel => exact .outOfFuel
  | short hlax => exact .short hlax _

/-- After computations with the same result. -/
theorem Mirrors.bindEq {m m' : Machine α} {f : α → Machine β} {f' : α → Machine β'}
    (hm : Mirrors lax R Eq m m') (hf : ∀ a, Mirrors lax R P (f a) (f' a)) :
    Mirrors lax R P (m >>= f) (m' >>= f') := by
  refine hm.bind ?_
  rintro a _ rfl
  exact hf a

theorem Mirrors.mono {m : Machine α} {m' : Machine α'} {Q' : α → α' → Prop}
    (h : Mirrors lax R Q m m') (hQ : ∀ a a', Q a a' → Q' a a') : Mirrors lax R Q' m m' := by
  intro s s' hR
  have hrel := h hR
  generalize m s = o at hrel ⊢
  generalize m' s' = o' at hrel ⊢
  cases hrel with
  | done h hR => exact .done (hQ _ _ h) hR
  | stopped error h => exact .stopped error h
  | outOfFuel => exact .outOfFuel
  | short hlax => exact .short hlax _

theorem Mirrors.ends {m m' : Machine α} {P : α → Prop} (h : Mirrors lax R Eq m m')
    (hends : Ends m P) : Mirrors lax R (fun a a' => a = a' ∧ P a) m m' := by
  intro s s' hR
  have hrel := h hR
  cases hm : m s with
  | done a t =>
    rw [hm] at hrel
    generalize m' s' = o' at hrel ⊢
    cases hrel with
    | done heq hR => exact .done ⟨heq, hends hm⟩ hR
  | stopped error t =>
    rw [hm] at hrel
    generalize m' s' = o' at hrel ⊢
    cases hrel with
    | stopped _ hR => exact .stopped error hR
  | outOfFuel =>
    rw [hm] at hrel
    generalize m' s' = o' at hrel ⊢
    cases hrel with
    | outOfFuel => exact .outOfFuel
    | short hlax => exact .short hlax _

/-- After computations with the same result, which has a property. -/
theorem Mirrors.bindEnds {m m' : Machine α} {f : α → Machine β} {f' : α → Machine β'}
    {P' : α → Prop} (hm : Mirrors lax R Eq m m') (hends : Ends m P')
    (hf : ∀ a, P' a → Mirrors lax R P (f a) (f' a)) : Mirrors lax R P (m >>= f) (m' >>= f') := by
  refine (hm.ends hends).bind ?_
  rintro a _ ⟨rfl, ha⟩
  exact hf a ha

theorem mirrors_stop (error : Error) :
    Mirrors lax R Q (stop error : Machine α) (stop error : Machine α') :=
  fun _ _ hR => .stopped error hR

/-- The function is shown the same in both machines, as far as it looks. -/
def Unseen (R : State → State → Prop) (f : Function) : Prop :=
  ∀ ⦃s s'⦄, R s s' → f.invoke s.env.view = f.invoke s'.env.view

theorem unseen_of_view (h : ∀ s s', R s s' → s.env.view = s'.env.view) (f : Function) :
    Unseen R f :=
  fun s s' hR => by rw [h s s' hR]

/-- The relation outlives the reading and the writing of variables and the report of failures, and
both machines read and write the same. -/
structure IsKept (lax : Prop) (R : State → State → Prop) : Prop where
  note (event : Event) : Mirrors lax R Eq (note event) (note event)
  report (error : Error) : Mirrors lax R Eq (report error) (report error)
  readName (name : String) : Mirrors lax R Eq (readName name) (readName name)
  writeName (name : String) (v : Value) : Mirrors lax R Eq (writeName name v) (writeName name v)

section IsKept

variable (hR : IsKept lax R)

include hR

theorem mirrors_fail (error : Error) : Mirrors lax R Eq (fail error) (fail error) :=
  (hR.report error).bindEq fun _ => mirrors_pure rfl

theorem mirrors_slotOf (result : Except Error Value) :
    Mirrors lax R Eq (slotOf result) (slotOf result) := by
  cases result with
  | ok v => exact mirrors_pure rfl
  | error e => exact mirrors_fail hR e

theorem mirrors_resolve (slot : Slot) : Mirrors lax R Eq (resolve slot) (resolve slot) := by
  cases slot with
  | name name => exact hR.readName name
  | value v => exact mirrors_pure rfl
  | failed => exact mirrors_pure rfl
  | block body => exact (hR.report _).bindEq fun _ => mirrors_pure rfl
  | openCall => exact (hR.report _).bindEq fun _ => mirrors_pure rfl

theorem mirrors_popValue (stack : Stack) : Mirrors lax R Eq (popValue stack) (popValue stack) := by
  cases stack with
  | nil => exact (hR.report _).bindEq fun _ => mirrors_pure rfl
  | cons slot rest => exact (mirrors_resolve hR slot).bindEq fun _ => mirrors_pure rfl

theorem mirrors_unary (op : Operator) (stack : Stack) :
    Mirrors lax R Eq (unary op stack) (unary op stack) := by
  refine (mirrors_popValue hR stack).bindEq fun popped => ?_
  obtain ⟨v, rest⟩ := popped
  cases v with
  | none => exact mirrors_pure rfl
  | some v => exact (mirrors_slotOf hR _).bindEq fun _ => mirrors_pure rfl

theorem mirrors_binary (op : Operator) (stack : Stack) :
    Mirrors lax R Eq (binary op stack) (binary op stack) := by
  refine (mirrors_popValue hR stack).bindEq fun popped => ?_
  obtain ⟨r, rest⟩ := popped
  refine (mirrors_popValue hR rest).bindEq fun popped => ?_
  obtain ⟨l, rest⟩ := popped
  cases l with
  | none => exact mirrors_pure rfl
  | some l =>
    cases r with
    | none => exact mirrors_pure rfl
    | some r => exact (mirrors_slotOf hR _).bindEq fun _ => mirrors_pure rfl

theorem mirrors_assign (stack : Stack) : Mirrors lax R Eq (assign stack) (assign stack) := by
  refine (mirrors_popValue hR stack).bindEq fun popped => ?_
  obtain ⟨v, rest⟩ := popped
  dsimp only
  split
  · cases v with
    | none => exact mirrors_pure rfl
    | some v => exact (hR.writeName _ v).bindEq fun _ => mirrors_pure rfl
  · exact mirrors_pure rfl
  · exact (mirrors_fail hR _).bindEq fun _ => mirrors_pure rfl

/-- Only the branches that the conditional finds matter. -/
theorem mirrors_conditional {runner runner' : Runner} (depth : Nat) (stack : Stack)
    (hnested : ∀ second first below, stack.drop 1 = .block second :: .block first :: below →
      Mirrors lax R Eq (nested runner depth first) (nested runner' depth first) ∧
        Mirrors lax R Eq (nested runner depth second) (nested runner' depth second)) :
    Mirrors lax R Eq (conditional runner depth stack) (conditional runner' depth stack) := by
  have hpopped : Mirrors lax R (fun popped popped' => popped = popped' ∧ popped.2 = stack.drop 1)
      (popValue stack) (popValue stack) := by
    cases stack with
    | nil => exact (hR.report _).bindEq fun _ => mirrors_pure ⟨rfl, rfl⟩
    | cons slot rest => exact (mirrors_resolve hR slot).bindEq fun _ => mirrors_pure ⟨rfl, rfl⟩
  refine hpopped.bind ?_
  rintro ⟨v, rest⟩ _ ⟨rfl, hrest⟩
  dsimp only at hrest ⊢
  split
  · next second first below =>
    obtain ⟨hfirst, hsecond⟩ := hnested second first below hrest.symm
    have hbranch (holds : Bool) : Mirrors lax R Eq
        (nested runner depth (if holds then first else second))
        (nested runner' depth (if holds then first else second)) := by
      cases holds
      · exact hsecond
      · exact hfirst
    exact (hbranch _).bindEq fun _ => (mirrors_slotOf hR _).bindEq fun _ => mirrors_pure rfl
  · exact mirrors_stop _

theorem mirrors_operator {runner runner' : Runner} (depth : Nat) (op : Operator) (stack : Stack)
    (hnested : ∀ second first below, stack.drop 1 = .block second :: .block first :: below →
      Mirrors lax R Eq (nested runner depth first) (nested runner' depth first) ∧
        Mirrors lax R Eq (nested runner depth second) (nested runner' depth second)) :
    Mirrors lax R Eq (operator runner depth op stack) (operator runner' depth op stack) := by
  by_cases hone : op.takesOne
  · rw [operator_of_takesOne hone, operator_of_takesOne hone]
    exact mirrors_unary hR op stack
  · by_cases htwo : op.takesTwo
    · rw [operator_of_takesTwo htwo, operator_of_takesTwo htwo]
      exact mirrors_binary hR op stack
    · cases op with
      | comma => exact mirrors_pure rfl
      | assign => exact mirrors_assign hR stack
      | question => exact mirrors_conditional hR depth stack hnested
      | _ => first | exact absurd rfl hone | exact absurd rfl htwo | exact mirrors_stop _

theorem mirrors_collect (slots : List Slot) :
    Mirrors lax R Eq (collect slots) (collect slots) := by
  induction slots with
  | nil => exact mirrors_pure rfl
  | cons slot more ih =>
    refine (mirrors_resolve hR slot).bindEq fun v => ?_
    cases v with
    | none => exact (hR.report _).bindEq fun _ => ih
    | some v => exact ih.bindEq fun _ => mirrors_pure rfl

/-- As many values as there are entries, when none failed. -/
theorem mirrors_readArguments {f f' : Function} (hname : f.name = f'.name)
    (hsignature : f.signature = f'.signature) (index : Nat) (slots : List Slot) :
    Mirrors lax R
      (fun args args' => args = args' ∧ ∀ values, args = some values → values.length = slots.length)
      (readArguments f index slots) (readArguments f' index slots) := by
  induction slots generalizing index with
  | nil => exact mirrors_pure ⟨rfl, by rintro _ ⟨rfl⟩; rfl⟩
  | cons slot more ih =>
    have hothers (argument : Option Value) : Mirrors lax R
        (fun args args' => args = args' ∧
          ∀ values, args = some values → values.length = (slot :: more).length)
        (do
          let others ← readArguments f (index + 1) more
          return argument.bind fun v => others.map (v :: ·))
        (do
          let others ← readArguments f' (index + 1) more
          return argument.bind fun v => others.map (v :: ·)) := by
      refine (ih (index + 1)).bind ?_
      rintro others _ ⟨rfl, hlength⟩
      refine mirrors_pure ⟨rfl, fun values hvalues => ?_⟩
      obtain ⟨v, -, hothers⟩ := Option.bind_eq_some_iff.1 hvalues
      obtain ⟨values', hvalues', rfl⟩ := Option.map_eq_some_iff.1 hothers
      rw [List.length_cons, List.length_cons, hlength values' hvalues']
    refine (mirrors_resolve hR slot).bindEq fun v => ?_
    cases v with
    | none => exact hothers none
    | some v =>
      dsimp only
      rw [hname, hsignature]
      split
      · exact hothers _
      · exact (hR.report _).bindEq fun _ => hothers none

end IsKept

end Reckoner.Machine
