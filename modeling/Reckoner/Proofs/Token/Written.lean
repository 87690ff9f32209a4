import Reckoner.Proofs.Decimal.Written
import Reckoner.Proofs.Text.Escape
import Reckoner.Proofs.Token.Segments

/-!
Written tokens are scanned as what they were. Names and operators are written as their lexemes,
strings between double quotes and with escapes, and numbers in a form of their own; so only a number
can be lost, when it is out of the range of what is read or has no digits.
-/

namespace Reckoner.Token

open Text Decimal

def Kind.ReadsBack (kind : Kind) : Prop := Scans false kind.chars kind []

theorem ne_quote_of_isOctal {c : Char} (h : Escape.isOctal c = true) : c ≠ '\\' ∧ c ≠ '"' := by
  constructor
  all_goals
    rintro rfl
    cases h

/-- Escaped text has no closing quote in it. -/
theorem quoted?_encode (cs rest : List Char) :
    quoted? '"' (Escape.encode cs ++ '"' :: rest) = some (Escape.encode cs, rest) := by
  have hskip {c : Char} (hc : c ≠ '\\' ∧ c ≠ '"') {ds body : List Char}
      (h : quoted? '"' ds = some (body, rest)) :
      quoted? '"' (c :: ds) = some (c :: body, rest) := by
    rw [quoted?_cons hc.1, if_neg hc.2, h, Option.map_some]
  have hescaped (e : Char) {ds body : List Char} (h : quoted? '"' ds = some (body, rest)) :
      quoted? '"' ('\\' :: e :: ds) = some ('\\' :: e :: body, rest) := by
    rw [quoted?, h, Option.map_some]
  induction cs with
  | nil => exact quoted?_cons (by decide) rest
  | cons c cs ih =>
    change quoted? '"' (Escape.encodeChar c ++ Escape.encode cs ++ '"' :: rest) =
      some (Escape.encodeChar c ++ Escape.encode cs, rest)
    rw [List.append_assoc]
    obtain ⟨e, -, heq⟩ | ⟨a, b, d, heq, -, hb, hd, -⟩ | ⟨hescape, hquote, heq⟩ :=
      Escape.encodeChar_cases c
    · rw [heq]
      exact hescaped e ih
    · rw [heq]
      exact hescaped a (hskip (ne_quote_of_isOctal hb) (hskip (ne_quote_of_isOctal hd) ih))
    · rw [heq]
      exact hskip ⟨hescape, hquote⟩ ih

theorem readsBack_string (s : String) : (Kind.string s).ReadsBack := by
  have hoperator (cs : List Char) : Operator.scan? ('"' :: cs) = none := rfl
  have hscans : Scans false (Kind.string s).chars (ofQuoted '"' (Escape.encode s.toList)) [] :=
    .string (startsSigned_eq_false (hoperator _)) (hoperator _) rfl rfl (.inr rfl)
      (quoted?_encode s.toList [])
  rwa [ofQuoted, if_pos rfl, Escape.decode_encode, String.ofList_toList] at hscans

/-- A name is its lexeme. -/
theorem Scans.eq_of_name {afterOperand : Bool} {lexeme : List Char} {name : String}
    (h : Scans afterOperand lexeme (.name name) []) : lexeme = (Kind.name name).chars := by
  generalize hkind : Kind.name name = kind at h
  generalize hrest : ([] : List Char) = rest at h
  cases h with
  | name =>
    rw [Kind.chars, String.toList_ofList]
    exact (List.takeWhile_eq_self_iff.2 (List.dropWhile_eq_nil_iff.1 hrest.symm)).symm
  | @signed _ _ literal | @literal _ _ literal => cases literal <;> cases hkind
  | operator | string => cases hkind

theorem IsNumber.scans {cs : List Char} {literal : Literal} (h : IsNumber cs literal) :
    Scans false cs (ofLiteral literal) [] := by
  obtain ⟨negative, d, body, rfl, hd⟩ := h.starts
  cases negative with
  | true =>
    exact .signed rfl (by simpa [Layout.render.signed, Literal.startsSigned] using hd) h.read
  | false =>
    exact .literal (startsSigned_of_isDigit hd body) (operatorScan_of_isDigit hd body)
      (starts_of_isDigit hd body) h.read

def Kind.IsWritable : Kind → Prop
  | .integer i => i ≠ Int64.minValue
  | .real r => (Double.of r).IsFinite
  | _ => True

/-- Whatever was scanned can be written and scanned again, if reals keep their values. -/
theorem Scans.readsBack {afterOperand : Bool} {cs rest : List Char} {kind : Kind}
    (h : Scans afterOperand cs kind rest) (hwritable : kind.IsWritable)
    (hreads : ∀ r, kind = .real r → readReal (Layout.literal.render r) = some r) :
    kind.ReadsBack := by
  cases kind with
  | integer i => exact (isNumber_integer hwritable).scans
  | real r => exact (isNumber_render hwritable (hreads r rfl)).scans
  | string s => exact readsBack_string s
  | operator op =>
    obtain ⟨-, hread⟩ := h.operator_inv
    obtain rfl := Operator.eq_append_of_scan? hread
    exact h.alone
  | name n =>
    obtain ⟨lexeme, -, rfl, -⟩ := h.replace
    have halone := h.alone
    rwa [halone.eq_of_name] at halone

theorem Lexes.exists_scans_of_mem {afterOperand after : Bool} {cs rest : List Char}
    {kinds : List Kind} (h : Lexes afterOperand cs kinds after rest) {kind : Kind}
    (hkind : kind ∈ kinds) : ∃ before cs' rest', Scans before cs' kind rest' := by
  induction h with
  | nil => cases hkind
  | gap _ _ ih => exact ih hkind
  | token _ hscan _ ih =>
    obtain rfl | hkind := List.mem_cons.1 hkind
    · exact ⟨_, _, _, hscan⟩
    · exact ih hkind

/-- No token begins with a gap. -/
theorem Scans.isGap_eq_false {afterOperand : Bool} {c : Char} {cs rest : List Char} {kind : Kind}
    (h : Scans afterOperand (c :: cs) kind rest) : isGap c = false := by
  generalize hcs : c :: cs = ds at h
  cases h with
  | signed _ hstarts =>
    obtain ⟨s, d, more, rfl, hs, -⟩ := startsSigned_eq_true hstarts
    obtain ⟨rfl, -⟩ := List.cons.inj hcs
    exact isGap_eq_false_of_isSign hs
  | @operator _ _ op _ hread =>
    have hhead : op.chars.head? = some c := by
      rw [← List.head?_append_of_ne_nil _ op.chars_ne_nil, ← Operator.eq_append_of_scan? hread,
        ← hcs]
      rfl
    cases op <;> cases hhead <;> rfl
  | literal _ _ hstarts =>
    subst hcs
    by_cases hpoint : c = '.'
    · rw [hpoint]
      rfl
    · exact isGap_eq_false_of_isDigit (by simpa [Literal.starts, hpoint] using hstarts)
  | name _ _ _ hstart =>
    obtain ⟨rfl, -⟩ := List.cons.inj hcs
    exact Token.isGap_eq_false (isBreak_eq_false isStart_eq_false_of_isBreak hstart)
  | string _ _ _ _ hquote =>
    obtain ⟨rfl, -⟩ := List.cons.inj hcs
    obtain rfl | rfl := hquote <;> rfl

theorem Kind.eq_operator {kind : Kind} {op : Operator} (h : kind.operator? = some op) :
    kind = .operator op := by
  cases kind <;> cases h
  rfl

/-- An operator that is scanned in front of an operand is scanned behind one. -/
theorem Kind.ReadsBack.scans_operator {kind : Kind} {op : Operator} (h : kind.ReadsBack)
    (hop : kind.operator? = some op) (afterOperand : Bool) :
    Scans afterOperand kind.chars kind [] := by
  obtain rfl := Kind.eq_operator hop
  have hflag : (!afterOperand && Literal.startsSigned op.chars) = false := by
    rw [startsSigned_chars, Bool.and_false]
  exact .operator hflag h.operator_inv.2

def Spells (afterOperand : Bool) (cs : List Char) (kinds : List Kind) : Prop :=
  ∀ tail, MayReplace tail [] → ∃ after, Lexes afterOperand (cs ++ tail) kinds after tail

namespace Spells

variable {afterOperand : Bool} {cs ds : List Char} {kind : Kind} {op : Operator}
variable {first second : List Kind}

theorem lexes_token {tail : List Char} (h : Scans afterOperand cs kind [])
    (htail : MayReplace tail []) :
    Lexes afterOperand (cs ++ tail) [kind] (endsOperand kind) tail := by
  obtain ⟨lexeme, hne, hlexeme, hreplace⟩ := h.replace
  rw [List.append_nil] at hlexeme
  subst hlexeme
  obtain ⟨c, ds, rfl⟩ := List.exists_cons_of_ne_nil hne
  have hscans := hreplace tail htail
  exact .token hscans.isGap_eq_false hscans (.nil _ _)

theorem token (h : Scans afterOperand cs kind []) : Spells afterOperand cs [kind] :=
  fun _ htail => ⟨_, lexes_token h htail⟩

/-- What begins with an operator may stand behind a blank. -/
theorem append (h : Spells afterOperand cs first) (h' : ∀ before, Spells before ds second) :
    Spells afterOperand (cs ++ ' ' :: ds) (first ++ second) := by
  intro tail htail
  obtain ⟨before, hfirst⟩ := h (' ' :: (ds ++ tail)) (.append_break rfl [] _)
  obtain ⟨after, hsecond⟩ := h' before tail htail
  rw [List.append_assoc]
  exact ⟨after, hfirst.trans (.gap rfl hsecond)⟩

/-- An operator with an operand behind it. -/
theorem operator (h : kind.ReadsBack) (hop : kind.operator? = some op) (hne : op ≠ .closeBracket)
    (h' : Spells false ds second) (before : Bool) :
    Spells before (kind.chars ++ ' ' :: ds) (kind :: second) := by
  intro tail htail
  have hblank : MayReplace (' ' :: (ds ++ tail)) [] := .append_break rfl [] _
  have hfirst := lexes_token (h.scans_operator hop before) hblank
  have hends : endsOperand kind = false := by
    rw [Kind.eq_operator hop, endsOperand, beq_eq_false_iff_ne.2 hne]
  rw [hends] at hfirst
  obtain ⟨after, hsecond⟩ := h' tail htail
  rw [List.append_assoc]
  exact ⟨after, hfirst.trans (.gap rfl hsecond)⟩

/-- An operator between two operands. -/
theorem between (hleft : Spells afterOperand cs first) (h : kind.ReadsBack)
    (hop : kind.operator? = some op) (hne : op ≠ .closeBracket)
    (hright : Spells false ds second) :
    Spells afterOperand (cs ++ ' ' :: (kind.chars ++ ' ' :: ds)) (first ++ kind :: second) :=
  hleft.append (operator h hop hne hright)

/-- An operator behind an operand. -/
theorem behind (h : Spells afterOperand cs first) (hkind : kind.ReadsBack)
    (hop : kind.operator? = some op) :
    Spells afterOperand (cs ++ ' ' :: kind.chars) (first ++ [kind]) :=
  h.append fun before => token (hkind.scans_operator hop before)

/-- A comma needs no blank in front of it. -/
theorem comma (h : Spells afterOperand cs first) (h' : Spells false ds second) :
    Spells afterOperand (cs ++ ',' :: ' ' :: ds) (first ++ .operator .comma :: second) := by
  intro tail htail
  obtain ⟨before, hfirst⟩ := h (',' :: ' ' :: (ds ++ tail)) (.append_break rfl [] _)
  have hcomma : (Kind.operator .comma).ReadsBack := .operator rfl rfl
  obtain ⟨after, hsecond⟩ := operator hcomma rfl (by decide) h' before tail htail
  rw [List.append_assoc]
  exact ⟨after, hfirst.trans hsecond⟩

end Spells

end Reckoner.Token
