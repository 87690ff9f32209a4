import Mathlib.Data.List.Infix
import Mathlib.Data.List.TakeWhile

/-!
The lexeme of a token, and what may stand behind it. Scanning looks a few characters beyond the
lexeme, so another text gives the same token only if it does not offer more to go on with. A
shorter text does not, and no token goes on with a blank, a comma or a closing bracket.
-/

namespace Reckoner.Token

def breaks : List Char := [' ', '\t', '\n', '\x0c', '\r', ',', ')']

def isBreak (c : Char) : Bool := breaks.contains c

theorem eq_false_of_isBreak {p : Char → Bool} (hp : breaks.all (fun c => !p c) = true) (c : Char)
    (h : isBreak c = true) : p c = false := by
  have hnot := List.all_eq_true.1 hp c (List.contains_iff_mem.1 h)
  simpa using hnot

/-- Behind a lexeme, `tail` may take the place of `rest`: whatever a token could go on with is at
the front of `rest` as well. -/
def MayReplace (tail rest : List Char) : Prop :=
  ∀ w, w <+: tail → (∀ c ∈ w, isBreak c = false) → w <+: rest

/-- A prefix of two pieces ends in the first, or goes on into the second. -/
theorem prefix_append_cases {w cs ds : List Char} (h : w <+: cs ++ ds) :
    w <+: cs ∨ ∃ v, w = cs ++ v ∧ v <+: ds := by
  rcases List.prefix_or_prefix_of_prefix h (List.prefix_append cs ds) with h' | ⟨v, rfl⟩
  · exact .inl h'
  · exact .inr ⟨v, rfl, (List.prefix_append_right_inj cs).1 h⟩

namespace MayReplace

variable {tail rest : List Char}

theorem of_prefix (h : tail <+: rest) : MayReplace tail rest := fun _ hw _ => hw.trans h

theorem refl (rest : List Char) : MayReplace rest rest := of_prefix (List.prefix_refl _)

theorem nil (rest : List Char) : MayReplace [] rest := of_prefix (List.nil_prefix)

/-- What begins with a break may follow. -/
theorem append_break {c : Char} (hc : isBreak c = true) (rest more : List Char) :
    MayReplace (rest ++ c :: more) rest := by
  intro w hw hbreak
  obtain h | ⟨v, rfl, hv⟩ := prefix_append_cases hw
  · exact h
  · cases v with
    | nil => simp
    | cons d v =>
      obtain ⟨rfl, -⟩ := List.cons_prefix_cons.1 hv
      have hd := hbreak d (by simp)
      rw [hc] at hd
      cases hd

/-- The same characters may stand in front. -/
theorem append (h : MayReplace tail rest) (cs : List Char) :
    MayReplace (cs ++ tail) (cs ++ rest) := by
  intro w hw hbreak
  obtain hle | ⟨v, rfl, hv⟩ := prefix_append_cases hw
  · exact hle.trans (List.prefix_append cs rest)
  · have hrest : v <+: rest := h v hv fun c hc => hbreak c (List.mem_append_right cs hc)
    exact (List.prefix_append_right_inj cs).2 hrest

theorem head? (h : MayReplace tail rest) {c : Char} (hc : tail.head? = some c)
    (hbreak : isBreak c = false) : rest.head? = some c := by
  cases tail with
  | nil => cases hc
  | cons d tail =>
    cases hc
    obtain ⟨more, rfl⟩ := h [c] ⟨tail, rfl⟩ (by simpa using hbreak)
    rfl

/-- A run of characters of one class ends at the same place. -/
theorem takeWhile_append {p : Char → Bool} (hp : ∀ c, isBreak c = true → p c = false)
    {cs : List Char} (h : MayReplace tail (cs.dropWhile p)) :
    (cs.takeWhile p ++ tail).takeWhile p = cs.takeWhile p ∧
      (cs.takeWhile p ++ tail).dropWhile p = tail := by
  have hall : ∀ c ∈ cs.takeWhile p, p c = true := fun c hc => List.mem_takeWhile_imp hc
  have hhead : ∀ c, tail.head? = some c → p c = false := by
    intro c hc
    by_cases hbreak : isBreak c = true
    · exact hp c hbreak
    · have hrest := h.head? hc (by simpa using hbreak)
      have hnot := List.head?_dropWhile_not p cs
      rw [hrest] at hnot
      simpa using hnot
  rw [List.takeWhile_append_of_pos hall, List.dropWhile_append_of_pos hall]
  cases tail with
  | nil => simp
  | cons c tail => simp [hhead c rfl]

end MayReplace

def IsOpen (test : List Char → Bool) : Prop :=
  ∀ ⦃cs⦄, test cs = true →
    ∃ w, w <+: cs ∧ (∀ c ∈ w, isBreak c = false) ∧ ∀ more, test (w ++ more) = true

theorem IsOpen.of_mayReplace {test : List Char → Bool} (h : IsOpen test) {tail rest : List Char}
    (hreplace : MayReplace tail rest) (htail : test tail = true) : test rest = true := by
  obtain ⟨w, hw, hbreak, hmore⟩ := h htail
  obtain ⟨more, rfl⟩ := hreplace w hw hbreak
  exact hmore more

def IsLocal {α : Type} (read : List Char → Option (α × List Char)) : Prop :=
  ∀ ⦃cs a rest⦄, read cs = some (a, rest) →
    ∃ lexeme, cs = lexeme ++ rest ∧
      ∀ tail, MayReplace tail rest → read (lexeme ++ tail) = some (a, tail)

namespace IsLocal

variable {α β : Type}

/-- Reading nothing. -/
theorem pure (a : α) : IsLocal fun cs => some (a, cs) := by
  rintro cs _ _ ⟨rfl⟩
  exact ⟨[], rfl, fun _ _ => rfl⟩

/-- A second reader behind the first, or another one where the first has nothing to read. -/
theorem elim {read : List Char → Option (α × List Char)}
    {next : α → List Char → Option (β × List Char)} {other : List Char → Option (β × List Char)}
    (h : IsLocal read) (hopen : IsOpen fun cs => (read cs).isSome) (hnext : ∀ a, IsLocal (next a))
    (hother : IsLocal other) :
    IsLocal fun cs => (read cs).elim (other cs) fun r => next r.1 r.2 := by
  intro cs b rest hread
  cases hfirst : read cs with
  | some r =>
    simp only [hfirst, Option.elim_some] at hread
    obtain ⟨first, rfl, hreplace⟩ := h hfirst
    obtain ⟨second, hr, hreplace'⟩ := hnext r.1 hread
    refine ⟨first ++ second, by rw [hr, List.append_assoc], fun tail htail => ?_⟩
    have htail' : MayReplace (second ++ tail) r.2 := hr ▸ htail.append second
    simp only [List.append_assoc, hreplace _ htail', Option.elim_some, hreplace' tail htail]
  | none =>
    simp only [hfirst, Option.elim_none] at hread
    obtain ⟨lexeme, rfl, hreplace⟩ := hother hread
    refine ⟨lexeme, rfl, fun tail htail => ?_⟩
    have hnone : read (lexeme ++ tail) = none := by
      by_contra hsome
      have := hopen.of_mayReplace (htail.append lexeme) (Option.isSome_iff_ne_none.2 hsome)
      rw [hfirst] at this
      cases this
    simp only [hnone, Option.elim_none, hreplace tail htail]

/-- One reader behind another. -/
theorem bind {read : List Char → Option (α × List Char)}
    {next : α → List Char → Option (β × List Char)} (h : IsLocal read)
    (hnext : ∀ a, IsLocal (next a)) : IsLocal fun cs => (read cs).bind fun r => next r.1 r.2 := by
  intro cs b rest hread
  obtain ⟨⟨a, middle⟩, hfirst, hsecond⟩ := Option.bind_eq_some_iff.1 hread
  obtain ⟨first, rfl, hreplace⟩ := h hfirst
  obtain ⟨second, rfl, hreplace'⟩ := hnext a hsecond
  refine ⟨first ++ second, (List.append_assoc ..).symm, fun tail htail => ?_⟩
  simp only [List.append_assoc, hreplace _ (htail.append second), Option.bind_some,
    hreplace' tail htail]

/-- What was read may be refused. -/
theorem filterMap {read : List Char → Option (α × List Char)} (h : IsLocal read)
    (f : α → Option β) : IsLocal fun cs => (read cs).bind fun r => (f r.1).map (·, r.2) := by
  have hnext (a : α) : IsLocal fun rest => (f a).map (·, rest) := by
    intro cs b rest hread
    obtain ⟨b, hb, heq⟩ := Option.map_eq_some_iff.1 hread
    cases heq
    exact ⟨[], rfl, fun tail _ => by simp [hb]⟩
  exact h.bind hnext

/-- The characters of one class. -/
theorem takeWhile {p : Char → Bool} (hp : ∀ c, isBreak c = true → p c = false) :
    IsLocal fun cs => some (cs.takeWhile p, cs.dropWhile p) := by
  intro cs a rest hread
  cases hread
  refine ⟨_, List.takeWhile_append_dropWhile.symm, fun tail htail => ?_⟩
  obtain ⟨h₁, h₂⟩ := MayReplace.takeWhile_append hp htail
  simp only [h₁, h₂]

/-- One character of a class, when there is one. -/
theorem optional {read : List Char → α × List Char} {p : Char → Bool} {f : Option Char → α}
    (hp : ∀ c, isBreak c = true → p c = false)
    (htaken : ∀ c cs, p c = true → read (c :: cs) = (f (some c), cs))
    (hleft : ∀ cs, (∀ c, cs.head? = some c → p c = false) → read cs = (f none, cs)) :
    IsLocal fun cs => some (read cs) := by
  intro cs a rest hread
  by_cases hhead : ∃ c, cs.head? = some c ∧ p c = true
  · obtain ⟨c, hc, hpc⟩ := hhead
    obtain ⟨more, rfl⟩ := List.head?_eq_some_iff.1 hc
    simp only [htaken c more hpc, Option.some.injEq, Prod.mk.injEq] at hread
    obtain ⟨rfl, rfl⟩ := hread
    exact ⟨[c], rfl, fun tail _ => congrArg some (htaken c tail hpc)⟩
  · have hnot : ∀ c, cs.head? = some c → p c = false := by
      intro c hc
      simpa using fun hpc => hhead ⟨c, hc, hpc⟩
    simp only [hleft cs hnot, Option.some.injEq, Prod.mk.injEq] at hread
    obtain ⟨rfl, rfl⟩ := hread
    refine ⟨[], rfl, fun tail htail => congrArg some (hleft tail fun c hc => ?_)⟩
    cases hbreak : isBreak c with
    | true => exact hp c hbreak
    | false => exact hnot c (htail.head? hc hbreak)

end IsLocal

end Reckoner.Token
