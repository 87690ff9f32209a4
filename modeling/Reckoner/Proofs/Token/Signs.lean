import Reckoner.Proofs.Token.Segments

/-!
Signs in front of digits. The token in front decides: behind a literal, a name or a closing bracket
a sign is an operator, and behind anything else, a step like `++` among it, the sign belongs to the
number. A step may itself end an operand, and then the sign is taken for part of a number where no
number can stand.
-/

namespace Reckoner.Token

open Text

def isStep : Kind → Bool
  | .operator op => op == .increment || op == .decrement
  | _ => false

def endedAfter (ended : Bool) (kind : Kind) : Bool := endsOperand kind || (isStep kind && ended)

/-- Whether an operand ends with the tokens: with a literal, a name or a closing bracket, or with
steps behind one of these. -/
def endsWithOperand (kinds : List Kind) : Bool := kinds.foldl endedAfter false

def endsWithStep (kinds : List Kind) : Bool := kinds.getLast?.any isStep

def behindOperand (kinds : List Kind) (afterOperand : Bool) : Bool :=
  kinds.foldl (fun _ kind => endsOperand kind) afterOperand

@[simp] theorem endsWithOperand_append_singleton (kinds : List Kind) (kind : Kind) :
    endsWithOperand (kinds ++ [kind]) = endedAfter (endsWithOperand kinds) kind := by
  rw [endsWithOperand, List.foldl_append]
  rfl

theorem endsOperand_eq_false_of_isStep {kind : Kind} (h : isStep kind = true) :
    endsOperand kind = false := by
  cases kind with
  | operator op => cases op <;> first | rfl | cases h
  | _ => cases h

/-- An operand that ends is remembered, unless it ends with a step. -/
theorem behindOperand_of_endsWithOperand {kinds : List Kind} (h : endsWithOperand kinds = true)
    (afterOperand : Bool) : behindOperand kinds afterOperand = !endsWithStep kinds := by
  induction kinds using List.reverseRecOn with
  | nil => cases h
  | append_singleton kinds kind =>
    simp only [behindOperand, endsWithStep, List.foldl_append, List.foldl_cons, List.foldl_nil,
      List.getLast?_concat, Option.any_some]
    cases hstep : isStep kind with
    | true => exact endsOperand_eq_false_of_isStep hstep
    | false => simpa [endedAfter, hstep] using h

theorem Lexes.after_eq {afterOperand after : Bool} {cs rest : List Char} {kinds : List Kind}
    (h : Lexes afterOperand cs kinds after rest) : after = behindOperand kinds afterOperand := by
  induction h with
  | nil => rfl
  | gap _ _ ih => exact ih
  | token _ _ _ ih => exact ih

/-- Each token is scanned at its place, with what is remembered of the tokens in front of it. -/
theorem exists_scans_of_scanAll {afterOperand : Bool} {opened : List Nat} {position : Nat}
    {cs : List Char} {before after : List Token} {token : Token}
    (h : scanAll afterOperand opened position cs = .ok (before ++ token :: after)) :
    ∃ front here rest, cs = front ++ here ∧ token.position = position + byteLength front ∧
      Scans (behindOperand (before.map kind) afterOperand) here token.kind rest := by
  induction hn : cs.length using Nat.strong_induction_on
    generalizing afterOperand opened position cs before with
  | _ n ih =>
    cases cs with
    | nil => cases opened <;> simp [scanAll] at h
    | cons c cs =>
      rw [List.length_cons] at hn
      cases hgap : isGap c with
      | true =>
        rw [scanAll_gap hgap] at h
        obtain ⟨front, here, rest, rfl, hposition, hscans⟩ := ih cs.length (by omega) h rfl
        refine ⟨c :: front, here, rest, rfl, ?_, hscans⟩
        rw [hposition, byteLength_cons, utf8Size_of_isGap hgap, Nat.add_assoc]
      | false =>
        obtain ⟨kind, rest, hscan⟩ := exists_scan_of_scanAll hgap h
        have hscans := scan_eq_ok.1 hscan
        obtain ⟨lexeme, -, hlexeme, -⟩ := hscans.replace
        have hlt := length_lt_of_scan hscan
        rw [List.length_cons] at hlt
        rw [scanAll_cons hgap hscan] at h
        cases hopened : openedAfter opened ⟨kind, position⟩ with
        | none => simp [hopened] at h
        | some opened' =>
          simp only [hopened] at h
          obtain ⟨tokens, htokens, heq⟩ := exists_of_map_eq_ok h
          cases before with
          | nil =>
            obtain ⟨rfl, -⟩ := List.cons.inj heq
            exact ⟨[], c :: cs, rest, rfl, rfl, hscans⟩
          | cons first before =>
            obtain ⟨rfl, rfl⟩ := List.cons.inj heq
            obtain ⟨front, here, left, hrest, hposition, hscans'⟩ :=
              ih rest.length (by omega) htokens rfl
            refine ⟨lexeme ++ front, here, left, ?_, ?_, hscans'⟩
            · rw [hlexeme, hrest, List.append_assoc]
            · rw [hposition, hlexeme, byteLength_append lexeme, Nat.add_sub_cancel,
                byteLength_append, Nat.add_assoc]

theorem operatorScan_isSome_of_isSign {s : Char} (hs : isSign s = true) (cs : List Char) :
    (Operator.scan? (s :: cs)).isSome = true := by
  by_contra hnone
  rw [Option.not_isSome_iff_eq_none, operatorScan_eq_none] at hnone
  simp only [isSign, Bool.or_eq_true, beq_iff_eq] at hs
  obtain rfl | rfl := hs
  · exact hnone .plus (by decide) ⟨cs, rfl⟩
  · exact hnone .minus (by decide) ⟨cs, rfl⟩

def signOperator (s : Char) : Operator := if s = '-' then .minus else .plus

theorem operatorScan_sign {s c : Char} (hs : isSign s = true) (hassign : c ≠ '=') (hc : c ≠ s)
    (cs : List Char) : Operator.scan? (s :: c :: cs) = some (signOperator s, c :: cs) := by
  simp only [isSign, Bool.or_eq_true, beq_iff_eq] at hs
  obtain rfl | rfl := hs <;>
    simp [Operator.scan?, Operator.scannable, Operator.chars, Operator.rest?, hassign.symm,
      hc.symm, signOperator]

theorem operatorScan_of_startsSigned {s : Char} {cs : List Char}
    (h : Literal.startsSigned (s :: cs) = true) :
    Operator.scan? (s :: cs) = some (signOperator s, cs) := by
  obtain ⟨s, d, more, heq, hs, hd⟩ := startsSigned_eq_true h
  obtain ⟨rfl, rfl⟩ := List.cons.inj heq
  refine operatorScan_sign hs ?_ ?_ more
  · rintro rfl
    cases hd
  · rintro rfl
    simp only [isSign, Bool.or_eq_true, beq_iff_eq] at hs
    obtain rfl | rfl := hs <;> cases hd

/-- A token that begins with a sign is a number if a digit follows and no operand ends in front of
it, and else an operator. -/
theorem Scans.isLiteral_iff {afterOperand : Bool} {s : Char} {cs rest : List Char}
    {kind : Kind} (h : Scans afterOperand (s :: cs) kind rest) (hs : isSign s = true) :
    (∃ literal, kind = ofLiteral literal) ↔
      Literal.startsSigned (s :: cs) = true ∧ afterOperand = false := by
  have hoperator := operatorScan_isSome_of_isSign hs cs
  cases h with
  | @signed _ _ literal hflag hsigned =>
    exact ⟨fun _ => ⟨hsigned, hflag⟩, fun _ => ⟨literal, rfl⟩⟩
  | operator hflag =>
    constructor
    · rintro ⟨literal, hliteral⟩
      cases literal <;> cases hliteral
    · rintro ⟨hsigned, rfl⟩
      rw [hsigned] at hflag
      cases hflag
  | literal _ hnone | name _ hnone | string _ hnone =>
    rw [hnone] at hoperator
    cases hoperator

/-- Behind an operand the sign is the operator. -/
theorem Scans.eq_signOperator {s : Char} {cs rest : List Char} {kind : Kind}
    (h : Scans true (s :: cs) kind rest) (hsigned : Literal.startsSigned (s :: cs) = true) :
    kind = .operator (signOperator s) := by
  have hoperator := operatorScan_of_startsSigned hsigned
  cases h with
  | signed hflag => cases hflag
  | operator _ hscan =>
    cases hoperator.symm.trans hscan
    rfl
  | literal _ hnone | name _ hnone | string _ hnone =>
    rw [hnone] at hoperator
    cases hoperator

/-- Where an operand has ended, a sign in front of a digit is the operator. It is part of a number
only behind a step. -/
theorem sign_of_tokenize {text : String} {before after : List Token} {token : Token} {s : Char}
    {cs : List Char} (h : tokenize text = .ok (before ++ token :: after))
    (hplace : dropBytes token.position text.toList = some (s :: cs)) (hs : isSign s = true)
    (hends : endsWithOperand (before.map kind) = true) :
    ((∃ literal, token.kind = ofLiteral literal) ↔
      Literal.startsSigned (s :: cs) = true ∧ endsWithStep (before.map kind) = true) ∧
    (Literal.startsSigned (s :: cs) = true → endsWithStep (before.map kind) = false →
      token.kind = .operator (signOperator s)) := by
  obtain ⟨front, here, rest, htext, hposition, hscans⟩ := exists_scans_of_scanAll h
  rw [htext, hposition, Nat.zero_add, dropBytes_append] at hplace
  cases hplace
  rw [behindOperand_of_endsWithOperand hends] at hscans
  refine ⟨by simpa using hscans.isLiteral_iff hs, fun hsigned hstep => ?_⟩
  rw [hstep] at hscans
  exact hscans.eq_signOperator hsigned

section Number

variable {d : Char} {more rest : List Char} {literal : Literal}

/-- A number without a sign, alone. -/
theorem lexes_number (hd : d.isDigit = true)
    (hread : Literal.scan (d :: more) = some (literal, [])) :
    Lexes false (d :: more) [ofLiteral literal] true [] := by
  have hends : endsOperand (ofLiteral literal) = true := by cases literal <;> rfl
  have hscans : Scans false (d :: more) (ofLiteral literal) [] :=
    .literal (startsSigned_of_isDigit hd more) (operatorScan_of_isDigit hd more)
      (starts_of_isDigit hd more) hread
  exact .token (isGap_eq_false_of_isDigit hd) hscans (hends ▸ .nil _ _)

/-- Apart from the number, a minus is an operator wherever it stands. -/
theorem lexes_minus_gap (hd : d.isDigit = true)
    (hread : Literal.scan (d :: more) = some (literal, [])) (afterOperand : Bool) :
    Lexes afterOperand ('-' :: ' ' :: d :: more) [.operator .minus, ofLiteral literal] true [] := by
  have hflag : (!afterOperand && Literal.startsSigned ('-' :: ' ' :: d :: more)) = false := by
    simp [Literal.startsSigned, show ' '.isDigit = false from rfl]
  have hminus := operatorScan_sign (s := '-') (c := ' ') rfl (by decide) (by decide) (d :: more)
  exact .token rfl (.operator hflag hminus) (.gap rfl (lexes_number hd hread))

/-- Next to the number, it is one behind an operand. -/
theorem lexes_minus (hd : d.isDigit = true)
    (hread : Literal.scan (d :: more) = some (literal, [])) :
    Lexes true ('-' :: d :: more) [.operator .minus, ofLiteral literal] true [] := by
  have hminus :=
    operatorScan_of_startsSigned (show Literal.startsSigned ('-' :: d :: more) = true from hd)
  exact .token rfl (.operator rfl hminus) (lexes_number hd hread)

/-- Anywhere else it belongs to the number. -/
theorem lexes_signed (hd : d.isDigit = true)
    (hread : Literal.scan (d :: more) = some (literal, [])) :
    ∃ signed, Lexes false ('-' :: d :: more) [ofLiteral signed] true [] := by
  have hmap := map_literalScan_sign (s := '-') rfl hd more
  rw [hread] at hmap
  obtain ⟨⟨signed, rest⟩, hsigned, rfl⟩ := Option.map_eq_some_iff.1 hmap
  have hends : endsOperand (ofLiteral signed) = true := by cases signed <;> rfl
  exact ⟨signed, .token rfl (.signed rfl hd hsigned) (hends ▸ .nil _ _)⟩

end Number

/-- Tokens go on behind a gap. -/
theorem exists_tokenize_append {text : String} {tokens : List Token}
    (h : tokenize text = .ok tokens) {behind : List Char} {kinds : List Kind}
    (hbehind : Lexes (behindOperand (tokens.map kind) false) behind kinds true [])
    (hdepth : kinds.foldlM depthAfter 0 = some 0) :
    ∃ tokens', tokenize (String.ofList (text.toList ++ ' ' :: behind)) = .ok tokens' ∧
      tokens'.map kind = tokens.map kind ++ kinds := by
  obtain ⟨⟨after, hlexes⟩, hbrackets⟩ := lexes_of_tokenize h
  obtain ⟨front, hfront, hreplace⟩ := hlexes.replace
  rw [List.append_nil] at hfront
  have hspaced := hreplace (' ' :: behind) (.append_break rfl [] behind)
  rw [← hfront, hlexes.after_eq] at hspaced
  have hall := hspaced.trans (.gap rfl hbehind)
  have hopened : (tokens.map kind ++ kinds).foldlM depthAfter ([] : List Nat).length = some 0 := by
    rw [List.foldlM_append, List.length_nil, hbrackets]
    exact hdepth
  obtain ⟨tokens', htokens', hkinds⟩ := exists_scanAll hall hopened 0
  exact ⟨tokens', by rw [tokenize, String.toList_ofList, htokens'], hkinds⟩

end Reckoner.Token
