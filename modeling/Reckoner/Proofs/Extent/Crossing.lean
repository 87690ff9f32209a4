import Reckoner.Proofs.Extent.Sound

/-!
How tokens are passed over, one part after the other, when the text between two places reads as
them. It is known beforehand which parts fail, and a part that fails does so whatever follows it.
-/

namespace Reckoner.Extent

open Text Token

def barring {α : Type} (fails : Bool) (result : Option α) : Option α :=
  if fails then none else result

theorem barring_barring {α : Type} (a b : Bool) (x : Option α) :
    barring a (barring b x) = barring (a || b) x := by
  cases a <;> rfl

theorem barring_bind {α β : Type} (a : Bool) (x : Option α) (f : α → Option β) :
    (barring a x).bind f = barring a (x.bind f) := by
  cases a <;> rfl

def Crosses (fails : Bool) (seen : Seen) (tokens : List Token) (seen' : Seen) : Prop :=
  ∀ ⦃cs rest after⦄, Lexes seen.isOperand cs (tokens.map kind) after rest →
    after = seen'.isOperand ∧ behind seen cs = barring fails (behind seen' rest)

def Stops (cs : List Char) : Prop :=
  cs = [] ∨ ∃ c more, cs = c :: more ∧ (c = ',' ∨ c = ')' ∨ c = ':')

def Ends (fails : Bool) (seen : Seen) (tokens : List Token) : Prop :=
  ∀ ⦃cs rest after⦄, Stops rest → Lexes seen.isOperand cs (tokens.map kind) after rest →
    behind seen cs = barring fails (some rest)

def EndsArguments (fails : Bool) (tokens : List Token) : Prop :=
  ∀ ⦃cs rest after⦄, Stops rest → Lexes false cs (tokens.map kind) after rest →
    behindArguments cs = barring fails (behindOne rest)

def CrossesOperand (fails : Bool) (tokens : List Token) : Prop :=
  ∃ seen', seen' ≠ .string ∧ ∀ seen : Seen, seen.isOperand = false →
    Crosses fails seen tokens seen'

theorem behind_of_stops {cs : List Char} (h : Stops cs) (seen : Seen) :
    behind seen cs = some cs := by
  obtain rfl | ⟨c, more, rfl, hc⟩ := h
  · exact behind_nil seen
  · have hstop {op : Operator} (hgap : isGap c = false)
        (hsigned : Literal.startsSigned (c :: more) = false)
        (hread : Operator.scan? (c :: more) = some (op, more))
        (hop : behindOperator op (c :: more) more = some (c :: more)) :
        behind seen (c :: more) = some (c :: more) := by
      rw [behind_operator hgap (by rw [hsigned, Bool.and_false]) hread, hop, ite_self]
    obtain rfl | rfl | rfl := hc
    · exact hstop rfl (by cases more <;> rfl) rfl rfl
    · exact hstop rfl (by cases more <;> rfl) rfl rfl
    · exact hstop rfl (by cases more <;> rfl) rfl rfl

/-- Gaps are passed over whatever was seen. -/
theorem behind_of_lexes_nil {afterOperand after : Bool} {cs rest : List Char}
    (h : Lexes afterOperand cs [] after rest) (seen : Seen) :
    after = afterOperand ∧ behind seen cs = behind seen rest := by
  generalize hkinds : ([] : List Kind) = kinds at h
  induction h with
  | nil => exact ⟨rfl, rfl⟩
  | gap hgap _ ih =>
    obtain ⟨hafter, hbehind⟩ := ih hkinds
    exact ⟨hafter, by rw [behind_gap hgap, hbehind]⟩
  | token => cases hkinds

variable {fails fails' : Bool} {seen seen' : Seen} {tokens : List Token}

theorem Crosses.nil (seen : Seen) : Crosses false seen [] seen := fun _ _ _ h =>
  behind_of_lexes_nil h seen

theorem Crosses.trans {more : List Token} {last : Seen} (h : Crosses fails seen tokens seen')
    (h' : Crosses fails' seen' more last) :
    Crosses (fails || fails') seen (tokens ++ more) last := by
  intro cs rest after hlexes
  rw [List.map_append] at hlexes
  obtain ⟨before, middle, hfirst, hsecond⟩ := hlexes.split
  obtain ⟨rfl, hbehind⟩ := h hfirst
  obtain ⟨hafter, hbehind'⟩ := h' hsecond
  exact ⟨hafter, by rw [hbehind, hbehind', barring_barring]⟩

/-- One token, by what is done at its place. -/
theorem crosses_single {token : Token} (hflag : endsOperand token.kind = seen'.isOperand)
    (h : ∀ c cs rest, isGap c = false → Scans seen.isOperand (c :: cs) token.kind rest →
      behind seen (c :: cs) = behind seen' rest) :
    Crosses false seen [token] seen' := by
  intro cs rest after hlexes
  obtain ⟨c, ds, middle, hgaps, hgap, hscan, hrest⟩ := hlexes.exists_scans
  obtain ⟨hafter, hbehind⟩ := behind_of_lexes_nil hrest seen'
  refine ⟨hafter.trans hflag, ?_⟩
  rw [(behind_of_lexes_nil hgaps seen).2, h c ds middle hgap hscan, hbehind]
  rfl

/-- A signed number, which may be passed over as a sign and a number. -/
theorem behind_signed_eq {c : Char} {cs rest : List Char} {literal : Literal}
    (hgap : isGap c = false) (hseen : seen.isOperand = false)
    (hsigned : Literal.startsSigned (c :: cs) = true)
    (hread : Literal.scan (c :: cs) = some (literal, rest)) :
    behind seen (c :: cs) = behind .operand rest := by
  cases hoperator : seen.isOperator with
  | true => rw [behind_signed hgap hoperator hsigned, hread]
  | false =>
    obtain ⟨s, d, more, heq, hs, hd⟩ := startsSigned_eq_true hsigned
    obtain ⟨rfl, rfl⟩ := List.cons.inj heq
    have hmap := map_literalScan_sign hs hd more
    rw [hread] at hmap
    obtain ⟨⟨unsigned, _⟩, hread', rfl⟩ := Option.map_eq_some_iff.1 hmap.symm
    rw [behind_sign hs hd hoperator (by rintro rfl; cases hseen), hread', Option.bind_some]

/-- An operand of a single token that is no string. -/
theorem crosses_leaf {token : Token} (hoperator : token.operator? = none)
    (hstring : ∀ s, token.kind ≠ .string s) (hseen : seen.isOperand = false) :
    Crosses false seen [token] .operand := by
  obtain ⟨kind, position⟩ := token
  refine crosses_single ?_ fun c cs rest hgap hscan => ?_
  · cases kind with
    | operator op => cases hoperator
    | _ => rfl
  · cases hscan with
    | signed _ hsigned hread => exact behind_signed_eq hgap hseen hsigned hread
    | operator => cases hoperator
    | literal _ hnone hstarts hread =>
      have hsigned := startsSigned_eq_false hnone
      rw [behind_literal hgap (by rw [hsigned, Bool.and_false]) hnone hstarts, hread, hseen]
      rfl
    | name _ hnone hstarts hname =>
      have hsigned := startsSigned_eq_false hnone
      rw [behind_name hgap (by rw [hsigned, Bool.and_false]) hnone hstarts hname, hseen,
        List.dropWhile_cons_of_pos (isPart_of_isStart hname)]
      rfl
    | string => exact absurd rfl (hstring _)

def isPlainOperator (op : Operator) : Bool :=
  op != .openBracket && op != .question && !isStop op

theorem crosses_operator {token : Token} {op : Operator} (hop : token.operator? = some op)
    (hplain : isPlainOperator op = true) (hseen : seen ≠ .string) :
    Crosses false seen [token] (.operator op) := by
  obtain ⟨kind, position⟩ := token
  obtain rfl : kind = .operator op := by
    cases kind with
    | operator op' => exact congrArg _ (Option.some.inj hop)
    | _ => cases hop
  refine crosses_single ?_ fun c cs rest hgap hscan => ?_
  · cases op <;> first | rfl | cases hplain
  · obtain ⟨hflag, hread⟩ := hscan.operator_inv
    have hsigned : (seen.isOperator && Literal.startsSigned (c :: cs)) = false := by
      cases seen with
      | operator op => exact hflag
      | _ => rfl
    rw [behind_operator hgap hsigned hread, if_neg hseen]
    cases op <;> first | rfl | cases hplain

/-- The place of an operator that is a character of its own. -/
theorem exists_place {afterOperand after : Bool} {cs rest : List Char} {op : Operator} {c : Char}
    {first second : List Token} {token : Token} (htoken : token.operator? = some op)
    (hop : op.chars = [c])
    (h : Lexes afterOperand cs ((first ++ token :: second).map kind) after rest) :
    ∃ before middle, Lexes afterOperand cs (first.map kind) before (c :: middle) ∧
      isGap c = false ∧ (!before && Literal.startsSigned (c :: middle)) = false ∧
      Operator.scan? (c :: middle) = some (op, middle) ∧
      Lexes (endsOperand (.operator op)) middle (second.map kind) after rest := by
  obtain ⟨kind, position⟩ := token
  obtain rfl : kind = .operator op := by
    cases kind with
    | operator op' => exact congrArg _ (Option.some.inj htoken)
    | _ => cases htoken
  rw [List.map_append, List.map_cons] at h
  obtain ⟨before, c', ds, middle, hfirst, hgap, hflag, hread, hsecond⟩ := h.split_operator
  have heq := Operator.eq_append_of_scan? hread
  rw [hop] at heq
  obtain ⟨rfl, rfl⟩ := List.cons.inj heq
  exact ⟨before, _, hfirst, hgap, hflag, hread, hsecond⟩

/-- Brackets, with what is in them. -/
theorem crosses_group {left right : Token} {inside : List Token}
    (hleft : left.operator? = some .openBracket) (hright : right.operator? = some .closeBracket)
    (hinside : EndsArguments fails inside) (hseen : seen ≠ .string) :
    Crosses fails seen (left :: (inside ++ [right])) .operand := by
  intro cs rest after hlexes
  obtain ⟨before, middle, hgaps, hgap, hflag, hread, hrest⟩ :=
    @exists_place _ _ _ _ _ _ [] (inside ++ [right]) left hleft rfl hlexes
  obtain ⟨before', middle', harguments, -, -, -, hclose⟩ := exists_place hright rfl hrest
  obtain ⟨rfl, hbehind⟩ := behind_of_lexes_nil hgaps seen
  obtain ⟨hafter, hbehind'⟩ := behind_of_lexes_nil hclose .operand
  have hsigned : (seen.isOperator && Literal.startsSigned ('(' :: middle)) = false := by
    cases middle <;> simp [Literal.startsSigned]
  refine ⟨hafter, ?_⟩
  rw [hbehind, behind_operator hgap hsigned hread, if_neg hseen]
  simp only [behindOperator, hinside (.inr ⟨')', middle', rfl, .inr (.inl rfl)⟩) harguments]
  cases fails with
  | true => rfl
  | false => exact hbehind'

/-- Where an expression ends in any case, it does not matter what was seen last. -/
theorem Crosses.ends (h : Crosses fails seen tokens seen') : Ends fails seen tokens := by
  intro cs rest after hstops hlexes
  rw [(h hlexes).2, behind_of_stops hstops]

theorem Crosses.trans_ends {more : List Token} (h : Crosses fails seen tokens seen')
    (h' : Ends fails' seen' more) : Ends (fails || fails') seen (tokens ++ more) := by
  intro cs rest after hstops hlexes
  rw [List.map_append] at hlexes
  obtain ⟨before, middle, hfirst, hsecond⟩ := hlexes.split
  obtain ⟨rfl, hbehind⟩ := h hfirst
  rw [hbehind, h' hstops hsecond, barring_barring]

def ReachesColon (fails : Bool) (tokens : List Token) : Prop :=
  ∀ ⦃cs rest after⦄, Lexes false cs (tokens.map kind) after (':' :: rest) →
    (behind .nothing cs).bind behindColon = barring fails (some rest)

def HaltsAtComma (tokens : List Token) : Prop :=
  ∀ ⦃cs rest after⦄, Lexes false cs (tokens.map kind) after rest →
    behind .nothing cs = none ∨ ∃ more, behind .nothing cs = some (',' :: more)

theorem Ends.reachesColon (h : Ends fails .nothing tokens) : ReachesColon fails tokens := by
  intro cs rest after hlexes
  rw [h (.inr ⟨':', rest, rfl, .inr (.inr rfl)⟩) hlexes, barring_bind]
  rfl

theorem HaltsAtComma.reachesColon (h : HaltsAtComma tokens) : ReachesColon true tokens := by
  intro cs rest after hlexes
  obtain hnone | ⟨more, hcomma⟩ := h hlexes
  · rw [hnone]
    rfl
  · rw [hcomma]
    rfl

/-- A conditional. -/
theorem ends_choice {mark sep : Token} {condition first second : List Token}
    {failsCondition failsFirst failsSecond : Bool}
    (hmark : mark.operator? = some .question) (hsep : sep.operator? = some .colon)
    (hcondition : Crosses failsCondition seen condition seen') (hseen : seen' ≠ .string)
    (hfirst : ReachesColon failsFirst first) (hsecond : Ends failsSecond .nothing second) :
    Ends (failsCondition || (failsFirst || failsSecond)) seen
      (condition ++ mark :: (first ++ sep :: second)) := by
  intro cs rest after hstops hlexes
  obtain ⟨before, middle, hlexes, hgap, -, hread, hrest⟩ := exists_place hmark rfl hlexes
  obtain ⟨before', other, hlexes', -, -, -, hother⟩ := exists_place hsep rfl hrest
  have hsigned : (seen'.isOperator && Literal.startsSigned ('?' :: middle)) = false := by
    cases middle <;> simp [Literal.startsSigned]
  rw [(hcondition hlexes).2, behind_operator hgap hsigned hread, if_neg hseen,
    behindOperator_question, hfirst hlexes', barring_bind, Option.bind_some,
    hsecond hstops hother, barring_bind, Option.bind_some, behind_of_stops hstops,
    barring_barring, barring_barring, Bool.or_assoc]

theorem Ends.endsArguments (h : Ends fails .nothing tokens) : EndsArguments fails tokens := by
  intro cs rest after hstops hlexes
  rw [behindArguments_eq, h hstops hlexes, barring_bind, Option.bind_some]

/-- One more expression behind a comma. -/
theorem EndsArguments.comma {sep : Token} {more : List Token} (h : EndsArguments fails tokens)
    (hsep : sep.operator? = some .comma) (h' : Ends fails' .nothing more) :
    EndsArguments (fails || fails') (tokens ++ sep :: more) := by
  intro cs rest after hstops hlexes
  obtain ⟨before, middle, hfirst, -, -, -, hsecond⟩ := exists_place hsep rfl hlexes
  rw [h (.inr ⟨',', middle, rfl, .inl rfl⟩) hfirst, behindOne, if_pos rfl,
    h'.endsArguments hstops hsecond, barring_barring]

theorem Ends.haltsAtComma {sep : Token} {more : List Token} (h : Ends fails .nothing tokens)
    (hsep : sep.operator? = some .comma) : HaltsAtComma (tokens ++ sep :: more) := by
  intro cs rest after hlexes
  obtain ⟨before, middle, hfirst, -⟩ := exists_place hsep rfl hlexes
  rw [h (.inr ⟨',', middle, rfl, .inl rfl⟩) hfirst]
  cases fails with
  | true => exact .inl rfl
  | false => exact .inr ⟨middle, rfl⟩

theorem HaltsAtComma.append {more : List Token} (h : HaltsAtComma tokens) :
    HaltsAtComma (tokens ++ more) := by
  intro cs rest after hlexes
  rw [List.map_append] at hlexes
  obtain ⟨before, middle, hfirst, -⟩ := hlexes.split
  exact h hfirst

end Reckoner.Extent
