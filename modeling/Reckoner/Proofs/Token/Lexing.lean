import Reckoner.Proofs.Token.Readers

/-!
How a text is split into tokens, as a relation. `Scans` has one rule for each sort of token and
`Lexes` goes on from token to token, without positions and without a check of the brackets, so
that texts can be put together and taken apart.
-/

namespace Reckoner.Token

open Text

inductive Scans (afterOperand : Bool) : List Char → Kind → List Char → Prop
  | signed {cs rest : List Char} {literal : Literal} (hflag : afterOperand = false)
      (hstarts : Literal.startsSigned cs = true) (hread : Literal.scan cs = some (literal, rest)) :
      Scans afterOperand cs (ofLiteral literal) rest
  | operator {cs rest : List Char} {op : Operator}
      (hflag : (!afterOperand && Literal.startsSigned cs) = false)
      (hread : Operator.scan? cs = some (op, rest)) :
      Scans afterOperand cs (.operator op) rest
  | literal {cs rest : List Char} {literal : Literal}
      (hflag : (!afterOperand && Literal.startsSigned cs) = false)
      (hoperator : Operator.scan? cs = none) (hstarts : Literal.starts cs = true)
      (hread : Literal.scan cs = some (literal, rest)) :
      Scans afterOperand cs (ofLiteral literal) rest
  | name {c : Char} {cs : List Char}
      (hflag : (!afterOperand && Literal.startsSigned (c :: cs)) = false)
      (hoperator : Operator.scan? (c :: cs) = none)
      (hliteral : Literal.starts (c :: cs) = false) (hstart : Name.isStart c = true) :
      Scans afterOperand (c :: cs) (.name (String.ofList ((c :: cs).takeWhile Name.isPart)))
        ((c :: cs).dropWhile Name.isPart)
  | string {c : Char} {cs body rest : List Char}
      (hflag : (!afterOperand && Literal.startsSigned (c :: cs)) = false)
      (hoperator : Operator.scan? (c :: cs) = none)
      (hliteral : Literal.starts (c :: cs) = false) (hstart : Name.isStart c = false)
      (hquote : c = '\'' ∨ c = '"') (hread : quoted? c cs = some (body, rest)) :
      Scans afterOperand (c :: cs) (ofQuoted c body) rest

theorem scan_eq_ok {afterOperand : Bool} {cs rest : List Char} {kind : Kind} :
    scan afterOperand cs = .ok (kind, rest) ↔ Scans afterOperand cs kind rest := by
  constructor
  · intro h
    simp only [scan] at h
    split at h
    · next hsigned =>
      simp only [Bool.and_eq_true, Bool.not_eq_true'] at hsigned
      split at h
      · next hread =>
        cases h
        exact .signed hsigned.1 hsigned.2 hread
      · cases h
    · next hflag =>
      replace hflag := Bool.eq_false_iff.2 hflag
      split at h
      · next hread =>
        cases h
        exact .operator hflag hread
      · next hoperator =>
        split at h
        · next hstarts =>
          split at h
          · next hread =>
            cases h
            exact .literal hflag hoperator hstarts hread
          · cases h
        · next hliteral =>
          replace hliteral := Bool.eq_false_iff.2 hliteral
          split at h
          · cases h
          · split at h
            · next hstart =>
              cases h
              exact .name hflag hoperator hliteral hstart
            · next hstart =>
              replace hstart := Bool.eq_false_iff.2 hstart
              split at h
              · next hquote =>
                split at h
                · next hread =>
                  cases h
                  exact .string hflag hoperator hliteral hstart hquote hread
                · cases h
              · cases h
  · rintro (⟨hflag, hstarts, hread⟩ | ⟨hflag, hread⟩ | ⟨hflag, hoperator, hstarts, hread⟩ |
      ⟨hflag, hoperator, hliteral, hstart⟩ |
      ⟨hflag, hoperator, hliteral, hstart, hquote, hread⟩)
    · simp [scan, hflag, hstarts, hread]
    · simp [scan, hflag, hread]
    · simp [scan, hflag, hoperator, hstarts, hread]
    · simp [scan, hflag, hoperator, hliteral, hstart]
    · simp [scan, hflag, hoperator, hliteral, hstart, hquote, hread]

theorem IsOpen.eq_false {test : List Char → Bool} (h : IsOpen test) {tail rest : List Char}
    (hreplace : MayReplace tail rest) (hrest : test rest = false) : test tail = false := by
  by_contra htail
  rw [h.of_mayReplace hreplace (by simpa using htail)] at hrest
  cases hrest

theorem flag_eq_false {afterOperand : Bool} {tail rest : List Char}
    (hreplace : MayReplace tail rest)
    (h : (!afterOperand && Literal.startsSigned rest) = false) :
    (!afterOperand && Literal.startsSigned tail) = false := by
  cases afterOperand with
  | true => rfl
  | false =>
    simp only [Bool.not_false, Bool.true_and] at h ⊢
    exact isOpen_startsSigned.eq_false hreplace h

theorem isPart_of_isStart {c : Char} (h : Name.isStart c = true) : Name.isPart c = true := by
  simp only [Name.isStart, Name.isPart, Char.isAlphanum, Bool.or_eq_true] at h ⊢
  exact h.imp_right .inl

/-- A number takes up its sign and the digit behind it. -/
theorem startsSigned_append {lexeme rest : List Char} {literal : Literal}
    (hread : Literal.scan lexeme = some (literal, []))
    (h : Literal.startsSigned (lexeme ++ rest) = true) (tail : List Char) :
    Literal.startsSigned (lexeme ++ tail) = true := by
  match lexeme with
  | [] => exact absurd (Literal.length_lt_of_scan hread) (by simp)
  | [s] =>
    cases rest with
    | nil => cases h
    | cons d more =>
      obtain ⟨rfl | rfl, -⟩ : (s = '+' ∨ s = '-') ∧ d.isDigit = true := by
        simpa [Literal.startsSigned] using h
      all_goals cases hread
  | s :: d :: more => exact h

theorem starts_append {lexeme rest : List Char} {literal : Literal}
    (hread : Literal.scan lexeme = some (literal, []))
    (h : Literal.starts (lexeme ++ rest) = true) (tail : List Char) :
    Literal.starts (lexeme ++ tail) = true := by
  match lexeme with
  | [] => exact absurd (Literal.length_lt_of_scan hread) (by simp)
  | c :: more =>
    by_cases hc : c = '.'
    · subst hc
      cases more with
      | nil => cases hread
      | cons d more => exact h
    · simpa [Literal.starts, hc] using h

/-- Behind its lexeme, a token may be followed by something else. -/
theorem Scans.replace {afterOperand : Bool} {cs rest : List Char} {kind : Kind}
    (h : Scans afterOperand cs kind rest) :
    ∃ lexeme, lexeme ≠ [] ∧ cs = lexeme ++ rest ∧
      ∀ tail, MayReplace tail rest → Scans afterOperand (lexeme ++ tail) kind tail := by
  have hlt := length_lt_of_scan (scan_eq_ok.2 h)
  have hne_of {lexeme : List Char} (heq : cs = lexeme ++ rest) : lexeme ≠ [] := by
    rintro rfl
    exact absurd hlt (by simp [heq])
  cases h with
  | signed hflag hstarts hread =>
    obtain ⟨lexeme, rfl, hreplace⟩ := isLocal_literal hread
    refine ⟨lexeme, hne_of rfl, rfl, fun tail htail => ?_⟩
    have hlexeme := hreplace [] (.nil rest)
    rw [List.append_nil] at hlexeme
    exact .signed hflag (startsSigned_append hlexeme hstarts tail) (hreplace tail htail)
  | operator hflag hread =>
    obtain ⟨lexeme, rfl, hreplace⟩ := isLocal_operator hread
    refine ⟨lexeme, hne_of rfl, rfl, fun tail htail => ?_⟩
    exact .operator (flag_eq_false (htail.append lexeme) hflag) (hreplace tail htail)
  | literal hflag hoperator hstarts hread =>
    obtain ⟨lexeme, rfl, hreplace⟩ := isLocal_literal hread
    have hne := hne_of rfl
    refine ⟨lexeme, hne, rfl, fun tail htail => ?_⟩
    have hlexeme := hreplace [] (.nil rest)
    rw [List.append_nil] at hlexeme
    exact .literal (flag_eq_false (htail.append lexeme) hflag)
      (operatorScan_eq_none_of_mayReplace hne htail hoperator)
      (starts_append hlexeme hstarts tail) (hreplace tail htail)
  | @name c cs hflag hoperator hliteral hstart =>
    have hpart := isPart_of_isStart hstart
    have hsplit : c :: cs = (c :: cs.takeWhile Name.isPart) ++ (c :: cs).dropWhile Name.isPart := by
      rw [← List.takeWhile_cons_of_pos hpart, List.takeWhile_append_dropWhile]
    refine ⟨_, List.cons_ne_nil _ _, hsplit, fun tail htail => ?_⟩
    obtain ⟨h₁, h₂⟩ := MayReplace.takeWhile_append isPart_eq_false_of_isBreak htail
    rw [hsplit] at hflag hoperator hliteral
    have hlexeme := htail.append (c :: cs.takeWhile Name.isPart)
    have hscans := @Scans.name afterOperand c (cs.takeWhile Name.isPart ++ tail)
      (flag_eq_false hlexeme hflag)
      (operatorScan_eq_none_of_mayReplace (List.cons_ne_nil _ _) htail hoperator)
      (isOpen_starts.eq_false hlexeme hliteral) hstart
    rw [List.takeWhile_cons_of_pos hpart, List.cons_append] at h₁ h₂
    rwa [h₁, h₂, ← List.takeWhile_cons_of_pos hpart] at hscans
  | @string c cs body _ hflag hoperator hliteral hstart hquote hread =>
    have hescape : c ≠ '\\' := by obtain rfl | rfl := hquote <;> decide
    obtain ⟨lexeme, rfl, hreplace⟩ := exists_of_quoted? hescape hread
    refine ⟨c :: lexeme, List.cons_ne_nil _ _, rfl, fun tail htail => ?_⟩
    exact .string (flag_eq_false (htail.append (c :: lexeme)) hflag)
      (operatorScan_eq_none_of_mayReplace (List.cons_ne_nil c lexeme) htail hoperator)
      (isOpen_starts.eq_false (htail.append (c :: lexeme)) hliteral) hstart hquote (hreplace tail)

/-- Tokens from one place of a text to another, with what matters for a sign in front of them and
behind them. -/
inductive Lexes : Bool → List Char → List Kind → Bool → List Char → Prop
  | nil (afterOperand : Bool) (cs : List Char) : Lexes afterOperand cs [] afterOperand cs
  | gap {afterOperand after : Bool} {c : Char} {cs rest : List Char} {kinds : List Kind}
      (hgap : isGap c = true) (h : Lexes afterOperand cs kinds after rest) :
      Lexes afterOperand (c :: cs) kinds after rest
  | token {afterOperand after : Bool} {c : Char} {cs middle rest : List Char} {kind : Kind}
      {kinds : List Kind} (hgap : isGap c = false)
      (hscan : Scans afterOperand (c :: cs) kind middle)
      (h : Lexes (endsOperand kind) middle kinds after rest) :
      Lexes afterOperand (c :: cs) (kind :: kinds) after rest

namespace Lexes

variable {afterOperand before after : Bool} {cs middle rest : List Char} {first second : List Kind}

theorem trans (h : Lexes afterOperand cs first before middle)
    (h' : Lexes before middle second after rest) :
    Lexes afterOperand cs (first ++ second) after rest := by
  induction h with
  | nil => exact h'
  | gap hgap _ ih => exact .gap hgap (ih h')
  | token hgap hscan _ ih => exact .token hgap hscan (ih h')

/-- Behind its tokens, a text may be followed by something else. -/
theorem replace {kinds : List Kind} (h : Lexes afterOperand cs kinds after rest) :
    ∃ front, cs = front ++ rest ∧
      ∀ tail, MayReplace tail rest → Lexes afterOperand (front ++ tail) kinds after tail := by
  induction h with
  | nil => exact ⟨[], rfl, fun tail _ => .nil _ tail⟩
  | gap hgap _ ih =>
    obtain ⟨front, rfl, hreplace⟩ := ih
    exact ⟨_ :: front, rfl, fun tail htail => .gap hgap (hreplace tail htail)⟩
  | token hgap hscan _ ih =>
    obtain ⟨front, rfl, hreplace⟩ := ih
    obtain ⟨lexeme, hne, hlexeme, hreplace'⟩ := hscan.replace
    refine ⟨lexeme ++ front, by rw [hlexeme, List.append_assoc], fun tail htail => ?_⟩
    have hscan' := hreplace' (front ++ tail) (htail.append front)
    cases lexeme with
    | nil => exact absurd rfl hne
    | cons d lexeme =>
      obtain ⟨rfl, -⟩ := List.cons.inj hlexeme
      rw [List.append_assoc]
      exact .token hgap hscan' (hreplace tail htail)

/-- Gaps may stand in front of a token. -/
theorem exists_scans {kind : Kind} {kinds : List Kind}
    (h : Lexes afterOperand cs (kind :: kinds) after rest) :
    ∃ c ds middle, Lexes afterOperand cs [] afterOperand (c :: ds) ∧ isGap c = false ∧
      Scans afterOperand (c :: ds) kind middle ∧
      Lexes (endsOperand kind) middle kinds after rest := by
  generalize hall : kind :: kinds = all at h
  induction h with
  | nil => cases hall
  | gap hgap _ ih =>
    obtain ⟨c, ds, middle, hgaps, hrest⟩ := ih hall
    exact ⟨c, ds, middle, .gap hgap hgaps, hrest⟩
  | @token _ _ c cs middle _ _ _ hgap hscan hrest =>
    obtain ⟨rfl, rfl⟩ := List.cons.inj hall
    exact ⟨c, cs, middle, .nil _ _, hgap, hscan, hrest⟩

/-- A text that reads as two parts has a place between them. -/
theorem split (h : Lexes afterOperand cs (first ++ second) after rest) :
    ∃ before middle, Lexes afterOperand cs first before middle ∧
      Lexes before middle second after rest := by
  induction first generalizing afterOperand cs with
  | nil => exact ⟨afterOperand, cs, .nil _ _, h⟩
  | cons kind first ih =>
    obtain ⟨c, ds, place, hgaps, hgap, hscan, hrest⟩ := h.exists_scans
    obtain ⟨before, middle, hfirst, hsecond⟩ := ih hrest
    exact ⟨before, middle, hgaps.trans (.token hgap hscan hfirst), hsecond⟩

end Lexes

theorem Scans.operator_inv {afterOperand : Bool} {cs rest : List Char} {op : Operator}
    (h : Scans afterOperand cs (.operator op) rest) :
    (!afterOperand && Literal.startsSigned cs) = false ∧ Operator.scan? cs = some (op, rest) := by
  generalize hkind : Kind.operator op = kind at h
  cases h with
  | operator hflag hread =>
    cases hkind
    exact ⟨hflag, hread⟩
  | @signed _ _ literal | @literal _ _ literal => cases literal <;> cases hkind
  | name | string => cases hkind

/-- A text that reads as two parts with an operator between them has the operator at a place of
its own, with gaps in front of it left to the first part. -/
theorem Lexes.split_operator {afterOperand after : Bool} {cs rest : List Char} {op : Operator}
    {first second : List Kind}
    (h : Lexes afterOperand cs (first ++ .operator op :: second) after rest) :
    ∃ before c ds middle, Lexes afterOperand cs first before (c :: ds) ∧ isGap c = false ∧
      (!before && Literal.startsSigned (c :: ds)) = false ∧
      Operator.scan? (c :: ds) = some (op, middle) ∧
      Lexes (endsOperand (.operator op)) middle second after rest := by
  obtain ⟨before, place, hfirst, hrest⟩ := h.split
  obtain ⟨c, ds, middle, hgaps, hgap, hscan, hsecond⟩ := hrest.exists_scans
  obtain ⟨hflag, hread⟩ := hscan.operator_inv
  have hfirst' := hfirst.trans hgaps
  rw [List.append_nil] at hfirst'
  exact ⟨before, c, ds, middle, hfirst', hgap, hflag, hread, hsecond⟩

def depthAfter (depth : Nat) (kind : Kind) : Option Nat :=
  match kind with
  | .operator .openBracket => some (depth + 1)
  | .operator .closeBracket => if depth = 0 then none else some (depth - 1)
  | _ => some depth

def openedAfter (opened : List Nat) (token : Token) : Option (List Nat) :=
  match token.kind with
  | .operator .openBracket => some (token.position :: opened)
  | .operator .closeBracket => if opened = [] then none else some opened.tail
  | _ => some opened

theorem map_length_openedAfter (opened : List Nat) (token : Token) :
    (openedAfter opened token).map List.length = depthAfter opened.length token.kind := by
  obtain ⟨kind, position⟩ := token
  simp only [openedAfter, depthAfter, List.length_eq_zero_iff]
  split
  · rfl
  · split
    · rfl
    · simp
  · rfl

theorem scanAll_cons {afterOperand : Bool} {opened : List Nat} {position : Nat} {c : Char}
    {cs rest : List Char} {kind : Kind} (hgap : isGap c = false)
    (hscan : scan afterOperand (c :: cs) = .ok (kind, rest)) :
    scanAll afterOperand opened position (c :: cs) =
      match openedAfter opened ⟨kind, position⟩ with
      | none => .error ⟨position, .unmatchedClose⟩
      | some opened => (scanAll (endsOperand kind) opened
          (position + (byteLength (c :: cs) - byteLength rest)) rest).map
        (⟨kind, position⟩ :: ·) := by
  rw [scanAll]
  simp only [hgap, Bool.false_eq_true, if_false]
  split
  · next h =>
    rw [hscan] at h
    cases h
  · next h =>
    rw [hscan] at h
    cases h
    cases kind with
    | operator op =>
      cases op with
      | openBracket => rfl
      | closeBracket => cases opened <;> rfl
      | _ => rfl
    | _ => rfl

theorem scanAll_gap {afterOperand : Bool} {opened : List Nat} {position : Nat} {c : Char}
    {cs : List Char} (hgap : isGap c = true) :
    scanAll afterOperand opened position (c :: cs) =
      scanAll afterOperand opened (position + 1) cs := by
  rw [scanAll, if_pos hgap]

theorem exists_scan_of_scanAll {afterOperand : Bool} {opened : List Nat} {position : Nat}
    {c : Char} {cs : List Char} {tokens : List Token} (hgap : isGap c = false)
    (h : scanAll afterOperand opened position (c :: cs) = .ok tokens) :
    ∃ kind rest, scan afterOperand (c :: cs) = .ok (kind, rest) := by
  rw [scanAll] at h
  simp only [hgap, Bool.false_eq_true, if_false] at h
  split at h
  · cases h
  · next kind rest hscan => exact ⟨kind, rest, hscan⟩

theorem exists_of_map_eq_ok {ε α β : Type} {x : Except ε α} {f : α → β} {b : β}
    (h : x.map f = .ok b) : ∃ a, x = .ok a ∧ f a = b := by
  cases x with
  | error e => cases h
  | ok a =>
    cases h
    exact ⟨a, rfl, rfl⟩

/-- A text that is split was read to its end, with its brackets in pairs. -/
theorem lexes_of_scanAll {afterOperand : Bool} {opened : List Nat} {position : Nat}
    {cs : List Char} {tokens : List Token}
    (h : scanAll afterOperand opened position cs = .ok tokens) :
    (∃ after, Lexes afterOperand cs (tokens.map kind) after []) ∧
      (tokens.map kind).foldlM depthAfter opened.length = some 0 := by
  induction hn : cs.length using Nat.strong_induction_on
    generalizing afterOperand opened position cs tokens with
  | _ n ih =>
    cases cs with
    | nil =>
      cases opened with
      | nil =>
        rw [scanAll] at h
        cases h
        exact ⟨⟨_, .nil _ _⟩, rfl⟩
      | cons => simp [scanAll] at h
    | cons c cs =>
      rw [List.length_cons] at hn
      cases hgap : isGap c with
      | true =>
        rw [scanAll_gap hgap] at h
        obtain ⟨⟨after, hlexes⟩, hdepth⟩ := ih cs.length (by omega) h rfl
        exact ⟨⟨after, .gap hgap hlexes⟩, hdepth⟩
      | false =>
        obtain ⟨kind, rest, hscan⟩ := exists_scan_of_scanAll hgap h
        have hlt := length_lt_of_scan hscan
        rw [scanAll_cons hgap hscan] at h
        cases hopened : openedAfter opened ⟨kind, position⟩ with
        | none => simp [hopened] at h
        | some opened' =>
          simp only [hopened] at h
          rw [List.length_cons] at hlt
          obtain ⟨tokens', htokens', rfl⟩ := exists_of_map_eq_ok h
          obtain ⟨⟨after, hlexes⟩, hdepth⟩ := ih rest.length (by omega) htokens' rfl
          refine ⟨⟨after, .token hgap (scan_eq_ok.1 hscan) hlexes⟩, ?_⟩
          rw [List.map_cons, List.foldlM_cons, ← map_length_openedAfter, hopened]
          exact hdepth

/-- A text that is read to its end, with its brackets in pairs, is split. -/
theorem exists_scanAll {afterOperand after : Bool} {opened : List Nat} {cs : List Char}
    {kinds : List Kind} (h : Lexes afterOperand cs kinds after [])
    (hdepth : kinds.foldlM depthAfter opened.length = some 0) (position : Nat) :
    ∃ tokens, scanAll afterOperand opened position cs = .ok tokens ∧ tokens.map kind = kinds := by
  generalize hrest : ([] : List Char) = rest at h
  induction h generalizing opened position with
  | nil =>
    subst hrest
    obtain rfl : opened = [] := by simpa using hdepth
    exact ⟨[], by simp [scanAll], rfl⟩
  | gap hgap _ ih =>
    rw [scanAll_gap hgap]
    exact ih hdepth _ hrest
  | @token afterOperand after c cs middle rest kind kinds hgap hscan _ ih =>
    rw [List.foldlM_cons, ← map_length_openedAfter opened ⟨kind, position⟩] at hdepth
    cases hopened : openedAfter opened ⟨kind, position⟩ with
    | none => simp [hopened] at hdepth
    | some opened' =>
      rw [hopened] at hdepth
      obtain ⟨tokens, htokens, rfl⟩ :=
        ih hdepth (position + (byteLength (c :: cs) - byteLength middle)) hrest
      refine ⟨⟨kind, position⟩ :: tokens, ?_, rfl⟩
      rw [scanAll_cons hgap (scan_eq_ok.2 hscan), hopened]
      simp only [htokens, Except.map]

theorem lexes_of_tokenize {text : String} {tokens : List Token} (h : tokenize text = .ok tokens) :
    (∃ after, Lexes false text.toList (tokens.map kind) after []) ∧
      (tokens.map kind).foldlM depthAfter 0 = some 0 :=
  lexes_of_scanAll h

end Reckoner.Token
