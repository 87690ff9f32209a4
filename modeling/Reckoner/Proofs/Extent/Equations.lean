import Reckoner.Proofs.Token.Lexing
import Reckoner.Token.Extent

/-!
What is left behind an expression, one equation for each way in which the text goes on.
-/

namespace Reckoner.Extent

open Text

def behind (seen : Seen) (cs : List Char) : Option (List Char) := (skip seen cs).map Subtype.val

def behindArguments (cs : List Char) : Option (List Char) := (skipArguments cs).map Subtype.val

theorem map_widen {cs ds : List Char} (r : Option (Rest cs)) (h : cs.length ≤ ds.length) :
    (r.map fun rest => rest.widen h).map Subtype.val = r.map Subtype.val := by
  cases r <;> rfl

variable {seen : Seen} {c : Char} {cs rest : List Char}

theorem behind_nil (seen : Seen) : behind seen [] = some [] := by
  rw [behind, skip]
  rfl

theorem behind_gap (hgap : isGap c = true) : behind seen (c :: cs) = behind seen cs := by
  rw [behind, skip]
  simp only [hgap, if_true, map_widen]
  rfl

/-- A signed number behind an operator. -/
theorem behind_signed (hgap : isGap c = false) (hseen : seen.isOperator = true)
    (hsigned : Literal.startsSigned (c :: cs) = true) :
    behind seen (c :: cs) =
      match Literal.scan (c :: cs) with
      | none => some (c :: cs)
      | some (_, rest) => behind .operand rest := by
  rw [behind, skip]
  simp only [hgap, hseen, hsigned, Bool.false_eq_true, if_false, Bool.and_self, if_true]
  split
  · next h => simp [h]
  · next h => simp only [map_widen, h]; rfl

def behindOperator (op : Operator) (cs rest : List Char) : Option (List Char) :=
  match op with
  | .comma | .closeBracket | .colon => some cs
  | .openBracket =>
    match behindArguments rest with
    | some (d :: rest) => if d = ')' then behind .operand rest else none
    | _ => none
  | .question =>
    match behind .nothing rest with
    | some (d :: other) =>
      if d = ':' then (behind .nothing other).bind fun rest => behind .operand rest else none
    | _ => none
  | op => behind (.operator op) rest

theorem behind_operator {op : Operator} (hgap : isGap c = false)
    (hsigned : (seen.isOperator && Literal.startsSigned (c :: cs)) = false)
    (hread : Operator.scan? (c :: cs) = some (op, rest)) :
    behind seen (c :: cs) =
      if seen = .string then some (c :: cs) else behindOperator op (c :: cs) rest := by
  rw [behind, skip]
  simp only [hgap, hsigned, Bool.false_eq_true, if_false]
  split
  · next op' rest' h =>
    rw [hread] at h
    cases h
    split
    · rfl
    · cases op with
      | comma | closeBracket | colon => rfl
      | openBracket =>
        simp only [behindOperator, behindArguments]
        cases skipArguments rest with
        | none => rfl
        | some r =>
          obtain ⟨left, hle⟩ := r
          cases left with
          | nil => rfl
          | cons d left =>
            simp only [Option.map_some]
            split
            · exact map_widen _ _
            · rfl
      | question =>
        simp only [behindOperator, behind]
        cases skip .nothing rest with
        | none => rfl
        | some r =>
          obtain ⟨left, hle⟩ := r
          cases left with
          | nil => rfl
          | cons d other =>
            simp only [Option.map_some]
            split
            · cases skip .nothing other with
              | none => rfl
              | some r => exact map_widen _ _
            · rfl
      | _ => exact map_widen _ _
  · next h =>
    rw [hread] at h
    cases h

def behindColon (cs : List Char) : Option (List Char) :=
  match cs with
  | c :: rest => if c = ':' then some rest else none
  | [] => none

theorem behindOperator_question (cs rest : List Char) :
    behindOperator .question cs rest =
      ((behind .nothing rest).bind behindColon).bind fun other =>
        (behind .nothing other).bind fun rest => behind .operand rest := by
  simp only [behindOperator]
  match behind .nothing rest with
  | none | some [] => rfl
  | some (c :: other) =>
    simp only [Option.bind_some, behindColon]
    split <;> rfl

/-- A number behind anything but an operand. -/
theorem behind_literal (hgap : isGap c = false)
    (hsigned : (seen.isOperator && Literal.startsSigned (c :: cs)) = false)
    (hoperator : Operator.scan? (c :: cs) = none) (hstarts : Literal.starts (c :: cs) = true) :
    behind seen (c :: cs) =
      if seen.isOperand then some (c :: cs)
      else (Literal.scan (c :: cs)).bind fun r => behind .operand r.2 := by
  rw [behind, skip]
  simp only [hgap, hsigned, hstarts, Bool.false_eq_true, if_false, if_true]
  split
  · next h =>
    rw [hoperator] at h
    cases h
  · split
    · rfl
    · split
      · next h => rw [h]; rfl
      · next h =>
        simp only [map_widen, h, Option.bind_some]
        rfl

/-- A name behind anything but an operand. -/
theorem behind_name (hgap : isGap c = false)
    (hsigned : (seen.isOperator && Literal.startsSigned (c :: cs)) = false)
    (hoperator : Operator.scan? (c :: cs) = none) (hstarts : Literal.starts (c :: cs) = false)
    (hname : Name.isStart c = true) :
    behind seen (c :: cs) =
      if seen.isOperand then some (c :: cs)
      else behind .operand (cs.dropWhile Name.isPart) := by
  rw [behind, skip]
  simp only [hgap, hsigned, hstarts, hname, Bool.false_eq_true, if_false, if_true]
  split
  · next h =>
    rw [hoperator] at h
    cases h
  · split
    · rfl
    · exact map_widen _ _

/-- A string behind anything but an operand. -/
theorem behind_string (hgap : isGap c = false)
    (hsigned : (seen.isOperator && Literal.startsSigned (c :: cs)) = false)
    (hoperator : Operator.scan? (c :: cs) = none) (hstarts : Literal.starts (c :: cs) = false)
    (hname : Name.isStart c = false) (hquote : c = '\'' ∨ c = '"') :
    behind seen (c :: cs) =
      if seen.isOperand then some (c :: cs)
      else (Token.quoted? c cs).bind fun r => behind seen.thenString r.2 := by
  rw [behind, skip]
  simp only [hgap, hsigned, hstarts, hname, hquote, Bool.false_eq_true, if_false, if_true]
  split
  · next h =>
    rw [hoperator] at h
    cases h
  · split
    · rfl
    · split
      · next h => rw [h]; rfl
      · next h =>
        simp only [map_widen, h, Option.bind_some]
        rfl

/-- A character that starts no token. -/
theorem behind_other (hgap : isGap c = false)
    (hsigned : (seen.isOperator && Literal.startsSigned (c :: cs)) = false)
    (hoperator : Operator.scan? (c :: cs) = none) (hstarts : Literal.starts (c :: cs) = false)
    (hname : Name.isStart c = false) (hquote : ¬ (c = '\'' ∨ c = '"')) :
    behind seen (c :: cs) = some (c :: cs) := by
  rw [behind, skip]
  simp only [hgap, hsigned, hstarts, hname, hquote, Bool.false_eq_true, if_false]
  split
  · next h =>
    rw [hoperator] at h
    cases h
  · rfl

def behindOne (cs : List Char) : Option (List Char) :=
  match cs with
  | c :: rest => if c = ',' then behindArguments rest else some (c :: rest)
  | [] => some []

theorem behindArguments_eq (cs : List Char) :
    behindArguments cs = (behind .nothing cs).bind behindOne := by
  rw [behindArguments, skipArguments, behind]
  cases skip .nothing cs with
  | none => rfl
  | some r =>
    obtain ⟨rest, hle⟩ := r
    cases rest with
    | nil => rfl
    | cons c rest =>
      simp only [Option.map_some, Option.bind_some, behindOne]
      split
      · exact map_widen _ _
      · rfl

/-- What is left is no longer than the text. -/
theorem length_le_of_behind (h : behind seen cs = some rest) : rest.length ≤ cs.length := by
  obtain ⟨r, -, rfl⟩ := Option.map_eq_some_iff.1 h
  exact r.2

theorem length_le_of_behindArguments (h : behindArguments cs = some rest) :
    rest.length ≤ cs.length := by
  obtain ⟨r, -, rfl⟩ := Option.map_eq_some_iff.1 h
  exact r.2

end Reckoner.Extent
