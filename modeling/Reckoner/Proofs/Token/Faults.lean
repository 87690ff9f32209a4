import Reckoner.Proofs.Token.Literals
import Reckoner.Proofs.Token.Quotes

/-!
Where a text cannot be split. In front of a fault all is scanned as tokens, and the fault stands at
the character that is its cause: a bracket that is closed nowhere, or that closes nothing, or the
first character of a lexeme that has no end, no number or no beginning.
-/

namespace Reckoner.Token

open Text Decimal

def IsOversized (cs : List Char) : Prop :=
  ∃ negative signs x digits rest, Literal.Signs negative signs ∧ (x = 'x' ∨ x = 'X') ∧
    (∀ d ∈ digits, Escape.isHex d = true) ∧ 2 ^ 64 ≤ Escape.number 16 digits ∧
    cs = signs ++ '0' :: x :: digits ++ rest

/-- What is wrong with a character and the text behind it, when so many brackets are open in front
of it and an operand ends there or not. -/
def Fault.Cause.IsCause (cause : Fault.Cause) (afterOperand : Bool) (depth : Nat) (c : Char)
    (rest : List Char) : Prop :=
  match cause with
  | .missingClose => c = '(' ∧ ∃ kinds after, Lexes false rest kinds after [] ∧
      kinds.foldlM depthAfter 0 = some 0
  | .unmatchedClose => c = ')' ∧ depth = 0
  | .unterminatedString => (c = '\'' ∨ c = '"') ∧
      (∀ body more, IsBody c body → rest ≠ body ++ c :: more) ∧
      closing? c.val.toUInt8 (bytes rest) = none
  | .invalidNumber => (c.isDigit = true ∨ c = '.' ∨ isSign c = true) ∧
      ((!afterOperand && Literal.startsSigned (c :: rest)) = true ∨
        Literal.starts (c :: rest) = true) ∧
      Literal.scan (c :: rest) = none ∧ IsOversized (c :: rest)
  | .invalidCharacter => isGap c = false ∧
      (∀ afterOperand kind left, ¬ Scans afterOperand (c :: rest) kind left) ∧
      (c = '.' ∨ ∀ afterOperand more kind left, ¬ Scans afterOperand (c :: more) kind left)

/-- Whether an operator is at the front is seen from the first character. -/
theorem operatorScan_eq_none_of_head {c : Char} {cs : List Char}
    (h : Operator.scan? (c :: cs) = none) (more : List Char) :
    Operator.scan? (c :: more) = none := by
  have hfirst : ∀ op ∈ Operator.scannable, ∃ op' ∈ Operator.scannable,
      op'.chars = op.chars.take 1 := by decide
  rw [operatorScan_eq_none] at h ⊢
  rintro op hop ⟨tail, htail⟩
  obtain ⟨op', hop', hchars⟩ := hfirst op hop
  obtain ⟨d, ds, hcons⟩ := List.exists_cons_of_ne_nil op.chars_ne_nil
  rw [hcons] at htail hchars
  obtain ⟨rfl, -⟩ := List.cons.inj htail
  exact h op' hop' ⟨cs, by rw [hchars]; rfl⟩

theorem starts_sign {cs : List Char}
    (h : Literal.startsSigned cs = true ∨ Literal.starts cs = true) :
    Literal.starts (sign cs).2 = true := by
  obtain h | h := h
  · obtain ⟨s, d, more, rfl, hs, hd⟩ := startsSigned_eq_true h
    simp only [isSign, Bool.or_eq_true, beq_iff_eq] at hs
    obtain rfl | rfl := hs <;> exact starts_of_isDigit hd more
  · fun_cases sign cs with
    | case1 | case2 => cases h
    | case3 => exact h

/-- Where a number starts, there is always a decimal one. -/
theorem decimal?_isSome {cs : List Char} (h : Literal.starts cs = true) (negative : Bool) :
    (decimal? negative cs).isSome = true := by
  obtain ⟨whole, f, e, fraction, exponent, -, -, -, hscan, -⟩ := Literal.exists_numeral_of_scan cs
  have hdigits : whole ++ fraction.getD [] ≠ [] := by
    have hwhole : whole = cs.takeWhile Char.isDigit := by
      have hsame := congrArg (fun r => r.1.whole) hscan
      exact hsame.symm
    have hfraction : fraction = (Numeral.scanFraction (cs.dropWhile Char.isDigit)).1 := by
      have hsame := congrArg (fun r => r.1.fraction) hscan
      exact hsame.symm
    fun_cases Literal.starts cs with
    | case1 d more =>
      have hd : d.isDigit = true := h
      rw [hfraction, List.dropWhile_cons_of_neg (by decide)]
      simp [Numeral.scanFraction, hd]
    | case2 d more hpoint =>
      have hd : d.isDigit = true := by rwa [Literal.starts.eq_2 d more hpoint] at h
      simp [hwhole, hd]
    | case3 => cases h
  simp only [decimal?]
  rw [hscan]
  split
  · simp [Numeral.toReal?, hdigits]
  · next hreal =>
    have hnone : fraction = none := by
      simp only [Numeral.isReal, Bool.or_eq_true, not_or, Option.not_isSome_iff_eq_none] at hreal
      exact hreal.1
    rw [hnone, Option.getD_none, List.append_nil] at hdigits
    simp [hdigits]

/-- The only numbers that cannot be read have too many hexadecimal digits. -/
theorem isOversized_of_scan {cs : List Char}
    (hstarts : Literal.startsSigned cs = true ∨ Literal.starts cs = true)
    (h : Literal.scan cs = none) : IsOversized cs := by
  obtain ⟨signs, hsigns, hcs⟩ := Literal.signs_of_sign cs
  have hbody := starts_sign hstarts
  rw [literalScan_eq, Option.bind_some, unsigned?] at h
  cases hhex : Literal.hexDigits? (sign cs).2 with
  | none =>
    rw [hhex, Option.elim_none] at h
    have hsome := decimal?_isSome hbody (sign cs).1
    simp [h] at hsome
  | some found =>
    obtain ⟨digits, rest⟩ := found
    rw [hhex, Option.elim_some, Option.map_eq_none_iff, Literal.ofHex?_eq] at h
    obtain ⟨x, d, more, hsplit, ⟨hx, hd⟩, rfl, rfl⟩ := hexDigits?_eq_some.1 hhex
    split at h
    · cases h
    · next hlarge =>
      refine ⟨_, signs, x, (d :: more).takeWhile Escape.isHex, (d :: more).dropWhile Escape.isHex,
        hsigns, hx, fun c hc => List.mem_takeWhile_imp hc, Nat.le_of_not_lt hlarge, ?_⟩
      rw [List.append_assoc, List.cons_append, List.cons_append, List.takeWhile_append_dropWhile,
        ← hsplit]
      exact hcs

theorem head_of_starts {c : Char} {cs : List Char} (h : Literal.starts (c :: cs) = true) :
    c.isDigit = true ∨ c = '.' := by
  by_cases hpoint : c = '.'
  · exact .inr hpoint
  · exact .inl (by simpa [Literal.starts, hpoint] using h)

/-- No token begins with a character that is not the first of any lexeme. -/
theorem not_scans {c : Char} {cs : List Char} (hoperator : Operator.scan? (c :: cs) = none)
    (hliteral : Literal.starts (c :: cs) = false) (hstart : Name.isStart c = false)
    (hquote : ¬ (c = '\'' ∨ c = '"')) (afterOperand : Bool) (kind : Kind) (left : List Char) :
    ¬ Scans afterOperand (c :: cs) kind left := by
  intro h
  cases h with
  | signed _ hsigned => rw [startsSigned_eq_false hoperator] at hsigned; cases hsigned
  | operator _ hread => rw [hoperator] at hread; cases hread
  | literal _ _ hstarts => rw [hliteral] at hstarts; cases hstarts
  | name _ _ _ hname => rw [hstart] at hname; cases hname
  | string _ _ _ _ hquote' => exact hquote hquote'

section Cause

variable {afterOperand : Bool} {c : Char} {cs : List Char}

theorem isCause_of_number
    (hstarts : (!afterOperand && Literal.startsSigned (c :: cs)) = true ∨
      Literal.starts (c :: cs) = true)
    (hread : Literal.scan (c :: cs) = none) (depth : Nat) :
    Fault.Cause.invalidNumber.IsCause afterOperand depth c cs := by
  have hfront : Literal.startsSigned (c :: cs) = true ∨ Literal.starts (c :: cs) = true :=
    hstarts.imp_left fun h => (Bool.and_eq_true_iff.1 h).2
  refine ⟨?_, hstarts, hread, isOversized_of_scan hfront hread⟩
  obtain hsigned | hliteral := hfront
  · obtain ⟨s, d, more, heq, hs, -⟩ := startsSigned_eq_true hsigned
    obtain ⟨rfl, -⟩ := List.cons.inj heq
    exact .inr (.inr hs)
  · exact (head_of_starts hliteral).imp_right .inl

theorem isCause_of_quoted (hquote : c = '\'' ∨ c = '"') (hread : quoted? c cs = none)
    (depth : Nat) : Fault.Cause.unterminatedString.IsCause afterOperand depth c cs := by
  refine ⟨hquote, fun body more hbody heq => ?_, closing?_eq_none hquote hread⟩
  have hescape : c ≠ '\\' := by obtain rfl | rfl := hquote <;> decide
  rw [(quoted?_eq_some hescape).2 ⟨hbody, heq⟩] at hread
  cases hread

theorem isCause_of_character (hgap : isGap c = false) (hoperator : Operator.scan? (c :: cs) = none)
    (hliteral : Literal.starts (c :: cs) = false) (hstart : Name.isStart c = false)
    (hquote : ¬ (c = '\'' ∨ c = '"')) (depth : Nat) :
    Fault.Cause.invalidCharacter.IsCause afterOperand depth c cs := by
  refine ⟨hgap, not_scans hoperator hliteral hstart hquote, ?_⟩
  by_cases hpoint : c = '.'
  · exact .inl hpoint
  · refine .inr fun afterOperand more => not_scans (operatorScan_eq_none_of_head hoperator more) ?_
      hstart hquote afterOperand
    simpa [Literal.starts, hpoint] using hliteral

/-- The cause that is told stands at the front of what cannot be scanned. -/
theorem isCause_of_scan {cause : Fault.Cause} (hgap : isGap c = false)
    (h : scan afterOperand (c :: cs) = .error cause) (depth : Nat) :
    cause.IsCause afterOperand depth c cs := by
  simp only [scan] at h
  split at h
  · next hsigned =>
    split at h
    · cases h
    · next hread =>
      cases h
      exact isCause_of_number (.inl hsigned) hread depth
  · split at h
    · cases h
    · next hoperator =>
      split at h
      · next hstarts =>
        split at h
        · cases h
        · next hread =>
          cases h
          exact isCause_of_number (.inr hstarts) hread depth
      · next hliteral =>
        split at h
        · cases h
        · next hstart =>
          split at h
          · next hquote =>
            split at h
            · cases h
            · next hread =>
              cases h
              exact isCause_of_quoted hquote hread depth
          · next hquote =>
            cases h
            exact isCause_of_character hgap hoperator (Bool.eq_false_iff.2 hliteral)
              (Bool.eq_false_iff.2 hstart) hquote depth

end Cause

theorem scanAll_of_error {afterOperand : Bool} {opened : List Nat} {position : Nat} {c : Char}
    {cs : List Char} {cause : Fault.Cause} (hgap : isGap c = false)
    (hscan : scan afterOperand (c :: cs) = .error cause) :
    scanAll afterOperand opened position (c :: cs) = .error ⟨position, cause⟩ := by
  rw [scanAll]
  simp only [hgap, Bool.false_eq_true, if_false]
  split
  · next h =>
    rw [hscan] at h
    cases h
    rfl
  · next h =>
    rw [hscan] at h
    cases h

theorem eq_error_of_map {ε α β : Type} {x : Except ε α} {f : α → β} {e : ε}
    (h : x.map f = .error e) : x = .error e := by
  cases x with
  | error =>
    cases h
    rfl
  | ok => cases h

def Fault.IsOpened (fault : Fault) (afterOperand : Bool) (opened : List Nat) (cs : List Char) :
    Prop :=
  fault.cause = .missingClose ∧ ∃ closed kinds after, opened[closed]? = some fault.position ∧
    Lexes afterOperand cs kinds after [] ∧ kinds.foldlM depthAfter closed = some 0

def Fault.IsWithin (fault : Fault) (afterOperand : Bool) (depth position : Nat) (cs : List Char) :
    Prop :=
  ∃ front c rest kinds before depth', cs = front ++ c :: rest ∧
    fault.position = position + byteLength front ∧ Lexes afterOperand cs kinds before (c :: rest) ∧
    kinds.foldlM depthAfter depth = some depth' ∧ fault.cause.IsCause before depth' c rest

section Step

variable {fault : Fault} {afterOperand : Bool} {opened opened' : List Nat} {position : Nat}
  {c : Char} {cs rest : List Char} {kind : Kind}

theorem Fault.IsWithin.gap (hgap : isGap c = true)
    (h : fault.IsWithin afterOperand opened.length (position + 1) cs) :
    fault.IsWithin afterOperand opened.length position (c :: cs) := by
  obtain ⟨front, d, behind, kinds, before, depth, rfl, hposition, hlexes, hdepth, hcause⟩ := h
  refine ⟨c :: front, d, behind, kinds, before, depth, rfl, ?_, .gap hgap hlexes, hdepth, hcause⟩
  rw [hposition, byteLength_cons, utf8Size_of_isGap hgap, Nat.add_assoc]

theorem foldlM_of_openedAfter (hopened : openedAfter opened ⟨kind, position⟩ = some opened')
    (kinds : List Kind) :
    (kind :: kinds).foldlM depthAfter opened.length = kinds.foldlM depthAfter opened'.length := by
  rw [List.foldlM_cons, ← map_length_openedAfter opened ⟨kind, position⟩, hopened]
  rfl

theorem Fault.IsWithin.token (hgap : isGap c = false)
    (hscan : Scans afterOperand (c :: cs) kind rest)
    (hopened : openedAfter opened ⟨kind, position⟩ = some opened')
    (h : fault.IsWithin (endsOperand kind) opened'.length
      (position + (byteLength (c :: cs) - byteLength rest)) rest) :
    fault.IsWithin afterOperand opened.length position (c :: cs) := by
  obtain ⟨front, d, behind, kinds, before, depth, rfl, hposition, hlexes, hdepth, hcause⟩ := h
  obtain ⟨lexeme, -, hlexeme, -⟩ := hscan.replace
  refine ⟨lexeme ++ front, d, behind, kind :: kinds, before, depth, ?_, ?_,
    .token hgap hscan hlexes, ?_, hcause⟩
  · rw [hlexeme, List.append_assoc]
  · rw [hposition, hlexeme, byteLength_append lexeme, Nat.add_sub_cancel, byteLength_append,
      Nat.add_assoc]
  · rw [foldlM_of_openedAfter hopened, hdepth]

/-- Behind a token, an open bracket was open in front of it, or is the token. -/
theorem Fault.IsOpened.token (hgap : isGap c = false)
    (hscan : Scans afterOperand (c :: cs) kind rest)
    (hopened : openedAfter opened ⟨kind, position⟩ = some opened')
    (h : fault.IsOpened (endsOperand kind) opened' rest) :
    fault.IsOpened afterOperand opened (c :: cs) ∨
      fault.IsWithin afterOperand opened.length position (c :: cs) := by
  obtain ⟨hcause, closed, kinds, after, hposition, hlexes, hdepth⟩ := h
  have hlexes' := Lexes.token hgap hscan hlexes
  unfold openedAfter at hopened
  split at hopened
  · next heq =>
    obtain rfl : kind = .operator .openBracket := heq
    obtain rfl := Option.some.inj hopened
    cases closed with
    | zero =>
      obtain ⟨-, hread⟩ := hscan.operator_inv
      obtain ⟨rfl, rfl⟩ := List.cons.inj (Operator.eq_append_of_scan? hread)
      refine .inr ⟨[], '(', _, [], afterOperand, _, rfl, (Option.some.inj hposition).symm,
        .nil _ _, rfl, ?_⟩
      rw [hcause]
      exact ⟨rfl, kinds, after, hlexes, hdepth⟩
    | succ closed =>
      exact .inl ⟨hcause, closed, _, after, hposition, hlexes', hdepth⟩
  · next heq =>
    obtain rfl : kind = .operator .closeBracket := heq
    cases opened with
    | nil => cases hopened
    | cons bracket outer =>
      obtain rfl : outer = opened' := Option.some.inj hopened
      exact .inl ⟨hcause, closed + 1, _, after, hposition, hlexes', hdepth⟩
  · next hopen hclose =>
    obtain rfl := Option.some.inj hopened
    refine .inl ⟨hcause, closed, kind :: kinds, after, hposition, hlexes', ?_⟩
    rw [List.foldlM_cons, depthAfter]
    · exact hdepth
    · exact hopen
    · exact hclose

/-- A bracket that closes nothing. -/
theorem isWithin_of_unmatched (hscan : Scans afterOperand (c :: cs) kind rest)
    (hopened : openedAfter opened ⟨kind, position⟩ = none) :
    Fault.IsWithin ⟨position, .unmatchedClose⟩ afterOperand opened.length position (c :: cs) := by
  unfold openedAfter at hopened
  split at hopened
  · cases hopened
  · next heq =>
    obtain rfl : kind = .operator .closeBracket := heq
    split at hopened
    · next hempty =>
      obtain ⟨-, hread⟩ := hscan.operator_inv
      obtain ⟨rfl, rfl⟩ := List.cons.inj (Operator.eq_append_of_scan? hread)
      exact ⟨[], ')', _, [], afterOperand, _, rfl, rfl, .nil _ _, rfl, rfl, by rw [hempty]; rfl⟩
    · cases hopened
  · cases hopened

end Step

/-- A fault in what is left of a text stands at its cause, or at a bracket in front of it. -/
theorem isOpened_or_isWithin {afterOperand : Bool} {opened : List Nat} {position : Nat}
    {cs : List Char} {fault : Fault} (h : scanAll afterOperand opened position cs = .error fault) :
    fault.IsOpened afterOperand opened cs ∨
      fault.IsWithin afterOperand opened.length position cs := by
  induction hn : cs.length using Nat.strong_induction_on
    generalizing afterOperand opened position cs with
  | _ n ih =>
    cases cs with
    | nil =>
      cases opened with
      | nil => simp [scanAll] at h
      | cons bracket outer =>
        rw [scanAll] at h
        cases h
        exact .inl ⟨rfl, 0, [], afterOperand, rfl, .nil _ _, rfl⟩
    | cons c cs =>
      rw [List.length_cons] at hn
      cases hgap : isGap c with
      | true =>
        rw [scanAll_gap hgap] at h
        obtain ⟨hcause, closed, kinds, after, hposition, hlexes, hdepth⟩ | hwithin :=
          ih cs.length (by omega) h rfl
        · exact .inl ⟨hcause, closed, kinds, after, hposition, .gap hgap hlexes, hdepth⟩
        · exact .inr (hwithin.gap hgap)
      | false =>
        cases hscan : scan afterOperand (c :: cs) with
        | error cause =>
          rw [scanAll_of_error hgap hscan] at h
          cases h
          exact .inr ⟨[], c, cs, [], afterOperand, _, rfl, rfl, .nil _ _, rfl,
            isCause_of_scan hgap hscan _⟩
        | ok scanned =>
          obtain ⟨kind, rest⟩ := scanned
          have hscans := scan_eq_ok.1 hscan
          have hlt := length_lt_of_scan hscan
          rw [List.length_cons] at hlt
          rw [scanAll_cons hgap hscan] at h
          cases hopened : openedAfter opened ⟨kind, position⟩ with
          | none =>
            rw [hopened] at h
            cases h
            exact .inr (isWithin_of_unmatched hscans hopened)
          | some opened' =>
            simp only [hopened] at h
            obtain hopen | hwithin := ih rest.length (by omega) (eq_error_of_map h) rfl
            · exact hopen.token hgap hscans hopened
            · exact .inr (hwithin.token hgap hscans hopened)

/-- At a place in a text, the text is shown with the character there fenced. -/
theorem diagnostic_append (front rest : List Char) (c : Char) (message : String) :
    Fault.diagnostic (String.ofList (front ++ c :: rest)) (byteLength front) message =
      String.ofList (message.toList ++ [' ', '"'] ++ front ++ ['#', c, '#'] ++ rest ++
        ['"', '\n'] ++ List.replicate (byteLength front + byteLength message.toList + 2) ' ' ++
        ['^']) := by
  have hle : byteLength front ≤ byteLength (front ++ c :: rest) := by
    rw [byteLength_append]
    exact Nat.le_add_right _ _
  simp only [Fault.diagnostic, String.toList_ofList, Nat.min_eq_left hle, takeBytes_append,
    dropBytes_append, Option.getD_some, List.take_succ_cons, List.take_zero, List.drop_succ_cons,
    List.drop_zero]
  congr 1
  simp

/-- A text that cannot be split is scanned as tokens up to a character, with no bracket closing
nothing, and this character is the cause: a bracket with no other behind it that stays open, a
closing bracket with none open, a quote without another one to close it, the first character of a
number that is too large, or a character that no token begins with. So the text can be parted there,
as it is when the fault is shown. -/
theorem isCause_of_tokenize {text : String} {fault : Fault} (h : tokenize text = .error fault) :
    ∃ front c rest kinds before depth, text = String.ofList (front ++ c :: rest) ∧
      byteLength front = fault.position ∧ Lexes false text.toList kinds before (c :: rest) ∧
      kinds.foldlM depthAfter 0 = some depth ∧ fault.cause.IsCause before depth c rest ∧
      IsPlace text.toList fault.position ∧ fault.position < byteLength text.toList ∧
      ∀ message, Fault.diagnostic text fault.position message =
        String.ofList (message.toList ++ [' ', '"'] ++ front ++ ['#', c, '#'] ++ rest ++
          ['"', '\n'] ++ List.replicate (fault.position + byteLength message.toList + 2) ' ' ++
          ['^']) := by
  obtain ⟨-, closed, -, -, hposition, -⟩ |
    ⟨front, c, rest, kinds, before, depth, htext, hposition, hlexes, hdepth, hcause⟩ :=
    isOpened_or_isWithin h
  · simp at hposition
  · rw [Nat.zero_add] at hposition
    have hofList : text = String.ofList (front ++ c :: rest) := by
      rw [← htext, String.ofList_toList]
    refine ⟨front, c, rest, kinds, before, depth, hofList, hposition.symm, hlexes, hdepth, hcause,
      ?_, ?_, fun message => ?_⟩
    · rw [htext, hposition]
      exact isPlace_append front (c :: rest)
    · rw [htext, hposition, byteLength_append, byteLength_cons]
      have hpos := c.utf8Size_pos
      omega
    · rw [hofList, hposition]
      exact diagnostic_append front rest c message

/-- Behind a string with a character of two bytes, the second bracket stays open. -/
theorem isCause_of_open_bracket :
    tokenize "('é' + (2" = .error ⟨8, .missingClose⟩ ∧
      ∃ front c rest kinds before depth, "('é' + (2" = String.ofList (front ++ c :: rest) ∧
        byteLength front = 8 ∧ Lexes false "('é' + (2".toList kinds before (c :: rest) ∧
        kinds.foldlM depthAfter 0 = some depth ∧
        Fault.Cause.missingClose.IsCause before depth c rest ∧
        IsPlace "('é' + (2".toList 8 ∧ 8 < byteLength "('é' + (2".toList ∧
        ∀ message, Fault.diagnostic "('é' + (2" 8 message =
          String.ofList (message.toList ++ [' ', '"'] ++ front ++ ['#', c, '#'] ++ rest ++
            ['"', '\n'] ++ List.replicate (8 + byteLength message.toList + 2) ' ' ++ ['^']) := by
  have hfault : tokenize "('é' + (2" = .error ⟨8, .missingClose⟩ := by cbv
  exact ⟨hfault, isCause_of_tokenize hfault⟩

end Reckoner.Token
