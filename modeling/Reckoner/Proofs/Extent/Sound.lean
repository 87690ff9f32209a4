import Reckoner.Proofs.Extent.Equations
import Reckoner.Proofs.Text.Offset

/-!
What is passed over as an expression reads as tokens. A sign at the front of an expression is
passed over as an operator and read with its number, which comes to the same.
-/

namespace Reckoner.Extent

open Text Token

/-- The conditionals that wait for their colon, for each open bracket and for the text around
them, innermost first. A token is refused when it closes or goes on with nothing, when it closes
a bracket in which a conditional waits, and when it is a comma outside brackets. -/
def levelsAfter (levels : List Nat) (kind : Kind) : Option (List Nat) :=
  match kind, levels with
  | .operator .openBracket, levels => some (0 :: levels)
  | .operator .closeBracket, 0 :: level :: outer => some (level :: outer)
  | .operator .closeBracket, _ => none
  | .operator .question, level :: outer => some ((level + 1) :: outer)
  | .operator .question, [] => none
  | .operator .colon, (level + 1) :: outer => some (level :: outer)
  | .operator .colon, _ => none
  | .operator .comma, inner :: level :: outer => some (inner :: level :: outer)
  | .operator .comma, _ => none
  | _, levels => some levels

def Levelled (kinds : List Kind) (levels : List Nat) : Prop :=
  kinds.foldlM levelsAfter levels = some levels

def IsStuck (cs : List Char) : Prop := ∀ rest, behind .operand cs = some rest → rest = cs

/-- One text up to another reads as tokens of an expression. Where an operand might follow,
nothing more is passed over. -/
def Reads (afterOperand : Bool) (cs rest : List Char) : Prop :=
  ∃ kinds after, Lexes afterOperand cs kinds after rest ∧
    (∀ level outer, Levelled kinds (level :: outer)) ∧ (after = false → IsStuck rest)

def ReadsArguments (cs rest : List Char) : Prop :=
  ∃ kinds after, Lexes false cs kinds after rest ∧
    ∀ inner level outer, Levelled kinds (inner :: level :: outer)

theorem Levelled.append {first second : List Kind} {levels : List Nat} (h : Levelled first levels)
    (h' : Levelled second levels) : Levelled (first ++ second) levels := by
  rw [Levelled, List.foldlM_append, h]
  exact h'

namespace Reads

variable {afterOperand : Bool} {c : Char} {cs middle rest : List Char}

theorem nil (h : afterOperand = false → IsStuck cs) : Reads afterOperand cs cs :=
  ⟨[], afterOperand, .nil _ _, fun _ _ => rfl, h⟩

theorem stop (h : afterOperand = true) : Reads afterOperand cs cs :=
  .nil fun hfalse => by simp [h] at hfalse

theorem gap (hgap : isGap c = true) (h : Reads afterOperand cs rest) :
    Reads afterOperand (c :: cs) rest := by
  obtain ⟨kinds, after, hlexes, hlevels, hstuck⟩ := h
  exact ⟨kinds, after, .gap hgap hlexes, hlevels, hstuck⟩

/-- A token that no bracket or conditional is made of. -/
theorem token {kind : Kind} (hgap : isGap c = false)
    (hscan : Scans afterOperand (c :: cs) kind middle)
    (hkind : ∀ level outer, levelsAfter (level :: outer) kind = some (level :: outer))
    (h : Reads (endsOperand kind) middle rest) : Reads afterOperand (c :: cs) rest := by
  obtain ⟨kinds, after, hlexes, hlevels, hstuck⟩ := h
  refine ⟨kind :: kinds, after, .token hgap hscan hlexes, fun level outer => ?_, hstuck⟩
  rw [Levelled, List.foldlM_cons, hkind]
  exact hlevels level outer

/-- Brackets, with what is in them and what follows. -/
theorem group (hgap : isGap c = false)
    (hscan : Scans afterOperand (c :: cs) (.operator .openBracket) middle)
    (harguments : ReadsArguments middle (')' :: rest)) {left : List Char}
    (h : Reads true rest left) : Reads afterOperand (c :: cs) left := by
  obtain ⟨inside, before, hinside, hlevels⟩ := harguments
  obtain ⟨kinds, after, hlexes, hlevels', hstuck⟩ := h
  have hclose : Scans before (')' :: rest) (.operator .closeBracket) rest := by
    refine .operator ?_ rfl
    cases before <;> cases rest <;> rfl
  have hwhole := hinside.trans (.token (by decide) hclose hlexes)
  refine ⟨_, after, .token hgap hscan hwhole, fun level outer => ?_, hstuck⟩
  have h := hlevels 0 level outer
  rw [Levelled] at h ⊢
  rw [List.foldlM_cons]
  simp only [levelsAfter, Option.bind_eq_bind, Option.bind_some, List.foldlM_append, h,
    List.foldlM_cons]
  exact hlevels' level outer

/-- Going on where an expression was left, as behind an operand. -/
theorem goOn (h : Reads afterOperand cs middle) (hleft : behind .operand middle = some rest)
    (hrest : Reads true middle rest) : Reads afterOperand cs rest := by
  obtain ⟨kinds, after, hlexes, hlevels, hstuck⟩ := h
  cases after with
  | true =>
    obtain ⟨more, after, hlexes', hlevels', hstuck'⟩ := hrest
    exact ⟨kinds ++ more, after, hlexes.trans hlexes', fun level outer =>
      (hlevels level outer).append (hlevels' level outer), hstuck'⟩
  | false =>
    obtain rfl := hstuck rfl rest hleft
    exact ⟨kinds, false, hlexes, hlevels, hstuck⟩

/-- A conditional up to the end of its second branch. -/
theorem choice (hgap : isGap c = false)
    (hscan : Scans afterOperand (c :: cs) (.operator .question) middle) {other : List Char}
    (hthen : Reads false middle (':' :: other)) (helse : Reads false other rest) :
    Reads afterOperand (c :: cs) rest := by
  obtain ⟨first, before, hfirst, hlevels, -⟩ := hthen
  obtain ⟨second, after, hsecond, hlevels', hstuck⟩ := helse
  have hcolon : Scans before (':' :: other) (.operator .colon) other := by
    refine .operator ?_ rfl
    cases before <;> cases other <;> rfl
  have hwhole := hfirst.trans (.token (by decide) hcolon hsecond)
  refine ⟨_, after, .token hgap hscan hwhole, fun level outer => ?_, hstuck⟩
  have h := hlevels (level + 1) outer
  rw [Levelled] at h ⊢
  rw [List.foldlM_cons]
  simp only [levelsAfter, Option.bind_eq_bind, Option.bind_some, List.foldlM_append, h,
    List.foldlM_cons]
  exact hlevels' level outer

end Reads

theorem levelsAfter_ofLiteral (literal : Literal) (levels : List Nat) :
    levelsAfter levels (ofLiteral literal) = some levels := by
  cases literal <;> rfl

theorem endsOperand_ofLiteral (literal : Literal) : endsOperand (ofLiteral literal) = true := by
  cases literal <;> rfl

theorem isStuck_nil : IsStuck [] := by
  intro rest h
  rw [behind_nil] at h
  exact (Option.some.inj h).symm

def isStop (op : Operator) : Bool := op == .comma || op == .closeBracket || op == .colon

theorem isStuck_of_isStop {c : Char} {cs rest : List Char} {op : Operator}
    (hgap : isGap c = false) (hread : Operator.scan? (c :: cs) = some (op, rest))
    (hstop : isStop op = true) : IsStuck (c :: cs) := by
  intro left h
  rw [behind_operator hgap rfl hread] at h
  simp only [isStop, Bool.or_eq_true, beq_iff_eq] at hstop
  obtain (rfl | rfl) | rfl := hstop <;> exact (Option.some.inj h).symm

/-- A sign in front of a number is passed over, and then the number. -/
theorem behind_sign {seen : Seen} {s d : Char} (hs : isSign s = true) (hd : d.isDigit = true)
    (hoperator : seen.isOperator = false) (hstring : seen ≠ .string) (cs : List Char) :
    behind seen (s :: d :: cs) =
      (Literal.scan (d :: cs)).bind fun r => behind .operand r.2 := by
  obtain ⟨op, hop, hread⟩ := exists_operatorScan_sign hs hd cs
  have hseen : (seen.isOperator && Literal.startsSigned (s :: d :: cs)) = false := by
    rw [hoperator, Bool.false_and]
  rw [behind_operator (isGap_eq_false_of_isSign hs) hseen hread, if_neg hstring]
  have hdigit := @behind_literal (.operator op) d cs (isGap_eq_false_of_isDigit hd)
    (by rw [startsSigned_of_isDigit hd, Bool.and_false]) (operatorScan_of_isDigit hd cs)
    (starts_of_isDigit hd cs)
  obtain rfl | rfl := hop <;> exact hdigit

theorem isStuck_of_startsSigned {cs : List Char} (hsigned : Literal.startsSigned cs = true)
    (hread : Literal.scan cs = none) : IsStuck cs := by
  obtain ⟨s, d, more, rfl, hs, hd⟩ := startsSigned_eq_true hsigned
  have hnone : Literal.scan (d :: more) = none := by
    have hmap := map_literalScan_sign hs hd more
    rw [hread] at hmap
    exact Option.map_eq_none_iff.1 hmap.symm
  intro rest h
  rw [behind_sign hs hd rfl (by decide), hnone] at h
  cases h

structure ReadsBelow (length : Nat) : Prop where
  expression {seen : Seen} {cs rest : List Char} (hlt : cs.length < length)
    (h : behind seen cs = some rest) : Reads seen.isOperand cs rest
  arguments {cs rest : List Char} (hlt : cs.length < length)
    (h : behindArguments cs = some rest) : ReadsArguments cs rest

/-- An operator, with what it asks for. -/
theorem reads_operator {seen : Seen} {c : Char} {cs rest left : List Char} {op : Operator}
    (ih : ReadsBelow (c :: cs).length) (hgap : isGap c = false)
    (hflag : (!seen.isOperand && Literal.startsSigned (c :: cs)) = false)
    (hread : Operator.scan? (c :: cs) = some (op, rest))
    (h : behindOperator op (c :: cs) rest = some left) : Reads seen.isOperand (c :: cs) left := by
  have hscan := Scans.operator hflag hread
  have hlt := Operator.length_lt_of_scan? hread
  have hstop (hstop : isStop op = true) (heq : behindOperator op (c :: cs) rest = some (c :: cs)) :
      Reads seen.isOperand (c :: cs) left := by
    rw [heq] at h
    obtain rfl := Option.some.inj h
    exact .nil fun _ => isStuck_of_isStop hgap hread hstop
  cases op with
  | comma => exact hstop rfl rfl
  | closeBracket => exact hstop rfl rfl
  | colon => exact hstop rfl rfl
  | openBracket =>
    simp only [behindOperator] at h
    split at h
    · next d more harguments =>
      split at h
      · next hd =>
        subst hd
        have hle := length_le_of_behindArguments harguments
        rw [List.length_cons] at hle
        exact .group hgap hscan (ih.arguments hlt harguments) (ih.expression (by omega) h)
      · cases h
    · cases h
  | question =>
    simp only [behindOperator] at h
    split at h
    · next d other hthen =>
      split at h
      · next hd =>
        subst hd
        obtain ⟨more, helse, hmore⟩ := Option.bind_eq_some_iff.1 h
        have hle := length_le_of_behind hthen
        have hle' := length_le_of_behind helse
        rw [List.length_cons] at hle
        have hchoice := Reads.choice hgap hscan (ih.expression hlt hthen)
          (ih.expression (by omega) helse)
        exact hchoice.goOn hmore (ih.expression (by omega) hmore)
      · cases h
    · cases h
  | _ => exact .token hgap hscan (fun _ _ => rfl) (ih.expression hlt h)

theorem isOperand_thenString (seen : Seen) : seen.thenString.isOperand = true := by
  fun_cases Seen.thenString seen <;> rfl

/-- A text that goes on with no operator. -/
theorem reads_operand {seen : Seen} {c : Char} {cs left : List Char}
    (ih : ReadsBelow (c :: cs).length) (hgap : isGap c = false)
    (hoperator : Operator.scan? (c :: cs) = none) (h : behind seen (c :: cs) = some left) :
    Reads seen.isOperand (c :: cs) left := by
  have hsigned := startsSigned_eq_false hoperator
  have hseen : (seen.isOperator && Literal.startsSigned (c :: cs)) = false := by
    rw [hsigned, Bool.and_false]
  have hflag : (!seen.isOperand && Literal.startsSigned (c :: cs)) = false := by
    rw [hsigned, Bool.and_false]
  cases hstarts : Literal.starts (c :: cs) with
  | true =>
    rw [behind_literal hgap hseen hoperator hstarts] at h
    split at h
    · next hoperand =>
      obtain rfl := Option.some.inj h
      exact .stop hoperand
    · obtain ⟨⟨literal, rest⟩, hread, h⟩ := Option.bind_eq_some_iff.1 h
      refine .token hgap (.literal hflag hoperator hstarts hread)
        (fun _ _ => levelsAfter_ofLiteral literal _) ?_
      rw [endsOperand_ofLiteral]
      exact ih.expression (Literal.length_lt_of_scan hread) h
  | false =>
    cases hname : Name.isStart c with
    | true =>
      rw [behind_name hgap hseen hoperator hstarts hname] at h
      split at h
      · next hoperand =>
        obtain rfl := Option.some.inj h
        exact .stop hoperand
      · refine .token hgap (.name hflag hoperator hstarts hname) (fun _ _ => rfl) ?_
        rw [List.dropWhile_cons_of_pos (isPart_of_isStart hname)]
        have hle := Decimal.Numeral.length_dropWhile_le Name.isPart cs
        exact ih.expression (Nat.lt_succ_of_le hle) h
    | false =>
      by_cases hquote : c = '\'' ∨ c = '"'
      · rw [behind_string hgap hseen hoperator hstarts hname hquote] at h
        split at h
        · next hoperand =>
          obtain rfl := Option.some.inj h
          exact .stop hoperand
        · obtain ⟨⟨body, rest⟩, hread, h⟩ := Option.bind_eq_some_iff.1 h
          refine .token hgap (.string hflag hoperator hstarts hname hquote hread)
            (fun _ _ => rfl) ?_
          have hlt := Nat.lt_succ_of_lt (length_lt_of_quoted? hread)
          have hreads := ih.expression hlt h
          rwa [isOperand_thenString] at hreads
      · rw [behind_other hgap hseen hoperator hstarts hname hquote] at h
        obtain rfl := Option.some.inj h
        refine .nil fun _ left h => ?_
        rw [behind_other hgap (by rfl) hoperator hstarts hname hquote] at h
        exact (Option.some.inj h).symm

/-- A sign where an operand may start, with a number behind it. -/
theorem reads_signed {seen : Seen} {cs left : List Char} (ih : ReadsBelow cs.length)
    (hseen : seen.isOperand = false) (hsigned : Literal.startsSigned cs = true)
    (h : behind seen cs = some left) : Reads seen.isOperand cs left := by
  obtain ⟨s, d, more, rfl, hs, hd⟩ := startsSigned_eq_true hsigned
  have hnumber {literal : Literal} {rest : List Char}
      (hread : Literal.scan (s :: d :: more) = some (literal, rest))
      (h : behind .operand rest = some left) : Reads seen.isOperand (s :: d :: more) left := by
    refine .token (isGap_eq_false_of_isSign hs) (.signed hseen hsigned hread)
      (fun _ _ => levelsAfter_ofLiteral literal _) ?_
    rw [endsOperand_ofLiteral]
    exact ih.expression (Literal.length_lt_of_scan hread) h
  cases hoperator : seen.isOperator with
  | true =>
    rw [behind_signed (isGap_eq_false_of_isSign hs) hoperator hsigned] at h
    split at h
    · next hread =>
      obtain rfl := Option.some.inj h
      exact .nil fun _ => isStuck_of_startsSigned hsigned hread
    · next hread => exact hnumber hread h
  | false =>
    rw [behind_sign hs hd hoperator (by rintro rfl; cases hseen)] at h
    obtain ⟨⟨literal, rest⟩, hread, h⟩ := Option.bind_eq_some_iff.1 h
    have hmap := map_literalScan_sign hs hd more
    rw [hread] at hmap
    obtain ⟨⟨signed, _⟩, hread', rfl⟩ := Option.map_eq_some_iff.1 hmap
    exact hnumber hread' h

theorem reads_expression {seen : Seen} {cs left : List Char} (ih : ReadsBelow cs.length)
    (h : behind seen cs = some left) : Reads seen.isOperand cs left := by
  cases cs with
  | nil =>
    rw [behind_nil] at h
    obtain rfl := Option.some.inj h
    exact .nil fun _ => isStuck_nil
  | cons c cs =>
    cases hgap : isGap c with
    | true =>
      rw [behind_gap hgap] at h
      exact .gap hgap (ih.expression (Nat.lt_succ_self _) h)
    | false =>
      cases hflag : !seen.isOperand && Literal.startsSigned (c :: cs) with
      | true =>
        simp only [Bool.and_eq_true, Bool.not_eq_true'] at hflag
        exact reads_signed ih hflag.1 hflag.2 h
      | false =>
        cases hread : Operator.scan? (c :: cs) with
        | none => exact reads_operand ih hgap hread h
        | some r =>
          have hseen : (seen.isOperator && Literal.startsSigned (c :: cs)) = false := by
            cases seen with
            | operator op => exact hflag
            | _ => rfl
          rw [behind_operator hgap hseen hread] at h
          split at h
          · next hstring =>
            obtain rfl := Option.some.inj h
            exact .stop (by rw [hstring]; rfl)
          · exact reads_operator ih hgap hflag hread h

theorem Reads.arguments {cs rest : List Char} (h : Reads false cs rest) :
    ReadsArguments cs rest := by
  obtain ⟨kinds, after, hlexes, hlevels, -⟩ := h
  exact ⟨kinds, after, hlexes, fun inner level outer => hlevels inner (level :: outer)⟩

/-- One more expression in front of others. -/
theorem ReadsArguments.cons {cs rest left : List Char} (h : Reads false cs (',' :: rest))
    (h' : ReadsArguments rest left) : ReadsArguments cs left := by
  obtain ⟨first, before, hfirst, hlevels, -⟩ := h
  obtain ⟨second, after, hsecond, hlevels'⟩ := h'
  have hcomma : Scans before (',' :: rest) (.operator .comma) rest := by
    refine .operator ?_ rfl
    cases before <;> cases rest <;> rfl
  refine ⟨_, after, hfirst.trans (.token (by decide) hcomma hsecond), fun inner level outer => ?_⟩
  have hcomma' : Levelled [.operator .comma] (inner :: level :: outer) := rfl
  exact (hlevels inner (level :: outer)).append (hcomma'.append (hlevels' inner level outer))

theorem reads_arguments {cs left : List Char} (ih : ReadsBelow cs.length)
    (h : behindArguments cs = some left) : ReadsArguments cs left := by
  rw [behindArguments_eq] at h
  obtain ⟨rest, hrest, h⟩ := Option.bind_eq_some_iff.1 h
  have hreads : Reads false cs rest := reads_expression ih hrest
  cases rest with
  | nil =>
    obtain rfl := Option.some.inj h
    exact hreads.arguments
  | cons c rest =>
    rw [behindOne] at h
    split at h
    · next hc =>
      subst hc
      have hle := length_le_of_behind hrest
      exact .cons hreads (ih.arguments hle h)
    · obtain rfl := Option.some.inj h
      exact hreads.arguments

theorem readsBelow (length : Nat) : ReadsBelow length := by
  induction length with
  | zero =>
    exact ⟨fun hlt => absurd hlt (Nat.not_lt_zero _), fun hlt => absurd hlt (Nat.not_lt_zero _)⟩
  | succ length ih =>
    have hbelow {n : Nat} (hlt : n < length + 1) : ReadsBelow n :=
      ⟨fun hn => ih.expression (by omega), fun hn => ih.arguments (by omega)⟩
    exact ⟨fun hlt => reads_expression (hbelow hlt), fun hlt => reads_arguments (hbelow hlt)⟩

theorem depthAfter_of_levelsAfter {level : Nat} {outer levels : List Nat} {kind : Kind}
    (h : levelsAfter (level :: outer) kind = some levels) :
    ∃ level' outer', levels = level' :: outer' ∧
      depthAfter outer.length kind = some outer'.length := by
  have hsame (hlevels : levels = level :: outer) (hdepth : depthAfter outer.length kind =
      some outer.length) : ∃ level' outer', levels = level' :: outer' ∧
        depthAfter outer.length kind = some outer'.length := ⟨level, outer, hlevels, hdepth⟩
  cases kind with
  | operator op =>
    cases op with
    | openBracket =>
      obtain rfl := Option.some.inj h
      exact ⟨0, level :: outer, rfl, rfl⟩
    | closeBracket =>
      cases level with
      | succ n => cases h
      | zero =>
        cases outer with
        | nil => cases h
        | cons level outer =>
          obtain rfl := Option.some.inj h
          exact ⟨level, outer, rfl, rfl⟩
    | question =>
      obtain rfl := Option.some.inj h
      exact ⟨level + 1, outer, rfl, rfl⟩
    | colon =>
      cases level with
      | zero => cases h
      | succ n =>
        obtain rfl := Option.some.inj h
        exact ⟨n, outer, rfl, rfl⟩
    | comma =>
      cases outer with
      | nil => cases h
      | cons => exact hsame (Option.some.inj h).symm rfl
    | _ => exact hsame (Option.some.inj h).symm rfl
  | _ => exact hsame (Option.some.inj h).symm rfl

theorem depth_of_levels {kinds : List Kind} {level : Nat} {outer levels : List Nat}
    (h : kinds.foldlM levelsAfter (level :: outer) = some levels) :
    ∃ level' outer', levels = level' :: outer' ∧
      kinds.foldlM depthAfter outer.length = some outer'.length := by
  induction kinds generalizing level outer with
  | nil =>
    obtain rfl := Option.some.inj h
    exact ⟨level, outer, rfl, rfl⟩
  | cons kind kinds ih =>
    rw [List.foldlM_cons] at h ⊢
    obtain ⟨levels', hkind, hkinds⟩ := Option.bind_eq_some_iff.1 h
    obtain ⟨level', outer', rfl, hdepth⟩ := depthAfter_of_levelsAfter hkind
    rw [hdepth]
    exact ih hkinds

/-- What is passed over as an expression is split into tokens, with every bracket closed, every
conditional with its colon at the same level, and no comma outside brackets. -/
theorem exists_tokens_of_behind {cs rest : List Char} (h : behind .nothing cs = some rest) :
    ∃ front tokens, cs = front ++ rest ∧ tokenize (String.ofList front) = .ok tokens ∧
      Levelled (tokens.map Token.kind) [0] := by
  obtain ⟨kinds, after, hlexes, hlevels, -⟩ :=
    (readsBelow (cs.length + 1)).expression (Nat.lt_succ_self _) h
  obtain ⟨front, rfl, hreplace⟩ := hlexes.replace
  have hfront := hreplace [] (.nil rest)
  rw [List.append_nil] at hfront
  obtain ⟨level, outer, heq, hdepth⟩ := depth_of_levels (hlevels 0 [])
  obtain ⟨rfl, rfl⟩ := List.cons.inj heq
  obtain ⟨tokens, htokens, rfl⟩ := @exists_scanAll _ _ [] _ _ hfront hdepth 0
  exact ⟨front, tokens, rfl, by rw [tokenize, String.toList_ofList]; exact htokens, hlevels 0 []⟩

theorem stop?_append (before cs : List Char) :
    stop? (before ++ cs) (byteLength before) = (behind .nothing cs).map fun rest =>
      byteLength before + (byteLength cs - byteLength rest) := by
  rw [stop?, dropBytes_append, behind, Option.map_map]
  rfl

/-- A cursor moves forward, to a place in the text, over the tokens of one expression; or it does
not move. -/
theorem advance_sound (text : List Char) (start : Nat) :
    match advance text start with
    | (true, stop) =>
      start ≤ stop ∧
        (IsPlace text start → stop ≤ byteLength text ∧ IsPlace text stop) ∧
        ∃ tokens, tokenize (String.ofList (slice start stop text)) = .ok tokens ∧
          Levelled (tokens.map Token.kind) [0]
    | (false, cursor) => cursor = start := by
  cases hplace : dropBytes start text with
  | none =>
    have hempty : slice start start text = [] := by rw [slice, Nat.sub_self, takeBytes]
    have hadvance : advance text start = (true, start) := by rw [advance, stop?, hplace]
    rw [hadvance]
    refine ⟨Nat.le_refl _, fun h => by simp [IsPlace, hplace] at h, [], ?_, rfl⟩
    rw [hempty, tokenize]
    simp [scanAll]
  | some cs =>
    obtain ⟨before, rfl, rfl⟩ := dropBytes_eq_some.1 hplace
    rw [advance, stop?_append]
    cases hbehind : behind .nothing cs with
    | none => rfl
    | some rest =>
      obtain ⟨front, tokens, rfl, htokens, hlevels⟩ := exists_tokens_of_behind hbehind
      simp only [Option.map_some, byteLength_append, Nat.add_sub_cancel]
      refine ⟨Nat.le_add_right _ _, fun _ => ⟨by omega, ?_⟩, tokens, ?_, hlevels⟩
      · rw [IsPlace, ← byteLength_append, ← List.append_assoc, dropBytes_append]
        rfl
      · rwa [slice_append]

end Reckoner.Extent
