import Reckoner.Proofs.Grammar.Derivation
import Reckoner.Proofs.Grammar.Production

/-!
Whatever a production reads is derived by the grammar. A production that is begun on some
tokens calls others on the same tokens only in a fixed order, so each statement takes those
before it, and all productions on fewer tokens.
-/

namespace Reckoner.Grammar

open Reckoner.Tree Tree.Outcome

/-- The production that reads a nonterminal. No production reads targets for themselves. -/
def Symbol.read : (s : Symbol) → (ts : List Token) → Outcome ts.length
  | .list => Tree.list
  | .assignment => Tree.assignment
  | .target => fun _ => .absent
  | .conditional => Tree.conditional
  | .binary remaining => Tree.binary remaining
  | .unary => Tree.unary
  | .power => Tree.power
  | .suffix => Tree.suffix
  | .arguments => Tree.arguments
  | .primary => Tree.primary

def Sound (s : Symbol) (ts : List Token) : Prop :=
  ∀ ⦃t r⦄, (s.read ts).Gives t r → ∃ d : Derivation s, d.tree = t ∧ ts = d.tokens ++ r

def SoundBelow (n : Nat) : Prop := ∀ ⦃ts : List Token⦄, ts.length < n → ∀ s, Sound s ts

theorem SoundBelow.mono {m n : Nat} (h : SoundBelow n) (hmn : m ≤ n) : SoundBelow m :=
  fun _ hts => h (Nat.lt_of_lt_of_le hts hmn)

variable {n : Nat} {ts : List Token} {t : Tree} {r : List Token}

/-! The loops, which start behind a derivation of their left side. -/

theorem sound_listTail {rest : List Token} (ih : SoundBelow n) (d : Derivation .list)
    (hrest : rest.length ≤ n) (h : (listTail d.tree rest).Gives t r) :
    ∃ d' : Derivation .list, d'.tree = t ∧ d.tokens ++ rest = d'.tokens ++ r := by
  induction hn : rest.length using Nat.strongRecOn generalizing d rest with
  | ind m ihm =>
    cases rest with
    | nil =>
      obtain ⟨rfl, rfl⟩ := gives_listTail_nil.mp h
      exact ⟨d, rfl, rfl⟩
    | cons c rest =>
      rw [gives_listTail_cons] at h
      split at h
      · rename_i hc
        obtain ⟨right, rest', hright, htail⟩ := h
        have hlt := hright.length_lt
        simp only [List.length_cons] at hrest hn
        obtain ⟨e, rfl, rfl⟩ := ih (by omega) .assignment hright
        obtain ⟨d', hd', htokens⟩ :=
          ihm rest'.length (by omega) (.comma d c hc e) (by omega) htail rfl
        exact ⟨d', hd', by simpa [Derivation.tokens] using htokens⟩
      · obtain ⟨rfl, rfl⟩ := h
        exact ⟨d, rfl, rfl⟩

theorem sound_binaryTail {level : Level} {tighter : List Level} {rest : List Token}
    (ih : SoundBelow n)
    (d : Derivation (.binary (level :: tighter))) (hrest : rest.length ≤ n)
    (h : (binaryTail level tighter d.tree rest).Gives t r) :
    ∃ d' : Derivation (.binary (level :: tighter)),
      d'.tree = t ∧ d.tokens ++ rest = d'.tokens ++ r := by
  induction hn : rest.length using Nat.strongRecOn generalizing d rest with
  | ind m ihm =>
    cases rest with
    | nil =>
      obtain ⟨rfl, rfl⟩ := gives_binaryTail_nil.mp h
      exact ⟨d, rfl, rfl⟩
    | cons c rest =>
      rw [gives_binaryTail_cons] at h
      split at h
      · rename_i hc
        obtain ⟨right, rest', hright, htail⟩ := h
        have hlt := hright.length_lt
        simp only [List.length_cons] at hrest hn
        obtain ⟨e, rfl, rfl⟩ := ih (by omega) (.binary tighter) hright
        obtain ⟨d', hd', htokens⟩ :=
          ihm rest'.length (by omega) (.operation d c hc e) (by omega) htail rfl
        exact ⟨d', hd', by simpa [Derivation.tokens] using htokens⟩
      · obtain ⟨rfl, rfl⟩ := h
        exact ⟨d, rfl, rfl⟩

theorem sound_steps {rest : List Token} (d : Derivation .suffix)
    (h : (steps d.tree rest).Gives t r) :
    ∃ d' : Derivation .suffix, d'.tree = t ∧ d.tokens ++ rest = d'.tokens ++ r := by
  induction rest generalizing d with
  | nil =>
    obtain ⟨rfl, rfl⟩ := gives_steps_nil.mp h
    exact ⟨d, rfl, rfl⟩
  | cons c rest ih =>
    rw [gives_steps_cons] at h
    split at h
    · rename_i hc
      obtain ⟨d', hd', htokens⟩ := ih (.step d c hc) h
      exact ⟨d', hd', by simpa [Derivation.tokens] using htokens⟩
    · obtain ⟨rfl, rfl⟩ := h
      exact ⟨d, rfl, rfl⟩

theorem sound_argumentsTail {rest : List Token} (ih : SoundBelow n) (d : Derivation .arguments)
    (hrest : rest.length ≤ n) (h : (argumentsTail d.tree.children rest).Gives t r) :
    ∃ d' : Derivation .arguments, d'.tree = t ∧ d.tokens ++ rest = d'.tokens ++ r := by
  induction hn : rest.length using Nat.strongRecOn generalizing d rest with
  | ind m ihm =>
    cases rest with
    | nil =>
      obtain ⟨rfl, rfl⟩ := gives_argumentsTail_nil.mp h
      exact ⟨d, d.tree_arguments, rfl⟩
    | cons c rest =>
      rw [gives_argumentsTail_cons] at h
      split at h
      · rename_i hc
        obtain ⟨next, rest', hnext, htail⟩ := h
        have hlt := hnext.length_lt
        simp only [List.length_cons] at hrest hn
        obtain ⟨e, rfl, rfl⟩ := ih (by omega) .assignment hnext
        obtain ⟨d', hd', htokens⟩ :=
          ihm rest'.length (by omega) (.more d c hc e) (by omega) htail rfl
        exact ⟨d', hd', by simpa [Derivation.tokens] using htokens⟩
      · obtain ⟨rfl, rfl⟩ := h
        exact ⟨d, d.tree_arguments, rfl⟩

/-! The productions, each after those that it calls on the same tokens. -/

theorem sound_primary (ih : SoundBelow ts.length) : Sound .primary ts := by
  intro t r h
  cases ts with
  | nil => exact absurd h not_gives_primary_nil
  | cons c rest =>
    simp only [Symbol.read, gives_primary_cons] at h
    split at h
    · rename_i hc
      obtain ⟨rfl, rfl⟩ := h
      exact ⟨.leaf c hc, rfl, rfl⟩
    · rename_i hc
      split at h
      · exact h.elim
      · obtain ⟨-, inner, last, hinner, hlast, rfl⟩ := h
        obtain ⟨d, rfl, htokens⟩ := ih (by simp) .list hinner
        exact ⟨.group c hc d last hlast, rfl, by simp [Derivation.tokens, htokens]⟩
    · exact h.elim

theorem sound_call {name bracket : Token} (ih : SoundBelow n) (hts : ts.length < n)
    (hname : name.name?.isSome) (hbracket : bracket.operator? = some .openBracket)
    (h : (Tree.call name bracket ts).Gives t r) :
    ∃ d : Derivation .suffix, d.tree = t ∧ name :: bracket :: ts = d.tokens ++ r := by
  cases ts with
  | nil => exact absurd h not_gives_call_nil
  | cons c rest =>
    rw [gives_call_cons] at h
    split at h
    · rename_i hc
      obtain ⟨rfl, rfl⟩ := h
      exact ⟨.emptyCall name hname bracket hbracket c hc, rfl, rfl⟩
    · obtain ⟨args, last, hargs, hlast, rfl⟩ := h
      obtain ⟨d, rfl, htokens⟩ := ih hts .arguments hargs
      refine ⟨.call name hname bracket hbracket d last hlast, rfl, ?_⟩
      simp [Derivation.tokens, htokens]

theorem sound_head {operand : Tree} {rest : List Token} (ih : SoundBelow ts.length)
    (h : Head ts operand rest) :
    ∃ d : Derivation .suffix, d.tree = operand ∧ ts = d.tokens ++ rest := by
  have hprimary (h : (Tree.primary ts).Gives operand rest) :
      ∃ d : Derivation .suffix, d.tree = operand ∧ ts = d.tokens ++ rest := by
    obtain ⟨d, hd, htokens⟩ := sound_primary ih h
    exact ⟨.ofPrimary d, hd, htokens⟩
  match ts with
  | [] => exact hprimary h
  | [c] => exact hprimary h
  | name :: bracket :: ts =>
    rw [Head] at h
    split at h
    · rename_i hcall
      exact sound_call ih (by simp only [List.length_cons]; omega) hcall.1 hcall.2 h
    · exact hprimary h

theorem sound_suffix (ih : SoundBelow ts.length) : Sound .suffix ts := by
  intro t r h
  obtain ⟨operand, rest, hhead, hsteps⟩ := gives_suffix.mp h
  obtain ⟨d, rfl, rfl⟩ := sound_head ih hhead
  exact sound_steps d hsteps

theorem sound_power (ih : SoundBelow ts.length) : Sound .power ts := by
  intro t r hgives
  obtain ⟨base, rest, hbase, h⟩ := gives_power.mp hgives
  have hlt := hbase.length_lt
  obtain ⟨d, rfl, rfl⟩ := sound_suffix ih hbase
  split at h
  · obtain ⟨rfl, rfl⟩ := h
    exact ⟨.ofSuffix d, rfl, rfl⟩
  · rename_i op exponent
    split at h
    · rename_i hop
      obtain ⟨right, hright, rfl⟩ := h
      obtain ⟨e, rfl, rfl⟩ := ih (Nat.lt_of_succ_lt hlt) .unary hright
      exact ⟨.raised d op hop e, rfl, by simp [Derivation.tokens]⟩
    · obtain ⟨rfl, rfl⟩ := h
      exact ⟨.ofSuffix d, rfl, rfl⟩

theorem sound_unary (ih : SoundBelow ts.length) : Sound .unary ts := by
  intro t r hgives
  cases ts with
  | nil => exact absurd hgives not_gives_unary_nil
  | cons c rest =>
    have h := gives_unary_cons.mp hgives
    split at h
    · rename_i hc
      obtain ⟨operand, hoperand, rfl⟩ := h
      obtain ⟨d, rfl, rfl⟩ := ih (by simp) .unary hoperand
      exact ⟨.prefixed c hc d, rfl, rfl⟩
    · obtain ⟨d, hd, htokens⟩ := sound_power ih h
      exact ⟨.ofPower d, hd, htokens⟩

theorem sound_binary (ih : SoundBelow ts.length) (remaining : List Level) :
    Sound (.binary remaining) ts := by
  induction remaining with
  | nil =>
    intro t r h
    obtain ⟨d, hd, htokens⟩ := sound_unary ih (gives_binary_nil.mp h)
    exact ⟨.ofUnary d, hd, htokens⟩
  | cons level tighter ihr =>
    intro t r h
    obtain ⟨left, rest, hleft, htail⟩ := gives_binary_cons.mp h
    have hlt := hleft.length_lt
    obtain ⟨d, rfl, htokens⟩ := ihr hleft
    rw [htokens]
    exact sound_binaryTail ih (.ofTighter d) (Nat.le_of_lt hlt) htail

theorem sound_conditional (ih : SoundBelow ts.length) : Sound .conditional ts := by
  intro t r hgives
  obtain ⟨condition, rest, hcondition, h⟩ := gives_conditional.mp hgives
  have hlt := hcondition.length_lt
  obtain ⟨d, rfl, rfl⟩ := sound_binary ih levels hcondition
  split at h
  · obtain ⟨rfl, rfl⟩ := h
    exact ⟨.ofBinary d, rfl, rfl⟩
  · rename_i mark branches
    split at h
    · rename_i hmark
      obtain ⟨first, behind, hfirst, sep, second, rfl, hsep, other, hother, rfl⟩ := h
      have hlt' := hfirst.length_lt
      simp only [List.length_cons] at hlt hlt'
      obtain ⟨e, rfl, rfl⟩ := ih (by omega) .list hfirst
      obtain ⟨f, rfl, rfl⟩ := ih (by omega) .conditional hother
      exact ⟨.choice d mark hmark e sep hsep f, rfl, by simp [Derivation.tokens]⟩
    · obtain ⟨rfl, rfl⟩ := h
      exact ⟨.ofBinary d, rfl, rfl⟩

theorem sound_assignment (ih : SoundBelow ts.length) : Sound .assignment ts := by
  intro t r hgives
  obtain ⟨left, rest, hleft, h⟩ := gives_assignment.mp hgives
  have hlt := hleft.length_lt
  obtain ⟨d, rfl, rfl⟩ := sound_conditional ih hleft
  split at h
  · obtain ⟨rfl, rfl⟩ := h
    exact ⟨.ofConditional d, rfl, rfl⟩
  · rename_i op value
    split at h
    · rename_i hop
      obtain ⟨right, hright, rfl⟩ := h
      obtain ⟨e, rfl, rfl⟩ := ih (Nat.lt_of_succ_lt hlt) .assignment hright
      obtain ⟨f, hf, htokens⟩ := d.exists_target hop.2
      refine ⟨.assign f op hop.1 e, ?_, ?_⟩
      · simp [Derivation.tree, hf]
      · simp [Derivation.tokens, htokens]
    · obtain ⟨rfl, rfl⟩ := h
      exact ⟨.ofConditional d, rfl, rfl⟩

theorem sound_list (ih : SoundBelow ts.length) : Sound .list ts := by
  intro t r h
  obtain ⟨first, rest, hfirst, htail⟩ := gives_list.mp h
  have hlt := hfirst.length_lt
  obtain ⟨d, rfl, htokens⟩ := sound_assignment ih hfirst
  rw [htokens]
  exact sound_listTail ih (.ofAssignment d) (Nat.le_of_lt hlt) htail

theorem sound_arguments (ih : SoundBelow ts.length) : Sound .arguments ts := by
  intro t r h
  obtain ⟨first, rest, hfirst, htail⟩ := gives_arguments.mp h
  have hlt := hfirst.length_lt
  obtain ⟨d, rfl, htokens⟩ := sound_assignment ih hfirst
  rw [htokens]
  exact sound_argumentsTail ih (.argument d) (Nat.le_of_lt hlt) htail

theorem soundBelow (n : Nat) : SoundBelow n := by
  induction n with
  | zero =>
    intro ts hts
    exact absurd hts (Nat.not_lt_zero _)
  | succ n ih =>
    intro ts hts s
    have ih : SoundBelow ts.length := ih.mono (Nat.le_of_lt_succ hts)
    cases s with
    | list => exact sound_list ih
    | assignment => exact sound_assignment ih
    | target =>
      intro t r h
      exact absurd h not_gives_absent
    | conditional => exact sound_conditional ih
    | binary remaining => exact sound_binary ih remaining
    | unary => exact sound_unary ih
    | power => exact sound_power ih
    | suffix => exact sound_suffix ih
    | arguments => exact sound_arguments ih
    | primary => exact sound_primary ih

/-- Every production reads only what its nonterminal derives. -/
theorem sound (s : Symbol) (ts : List Token) : Sound s ts := soundBelow _ (Nat.lt_succ_self _) s

end Reckoner.Grammar
