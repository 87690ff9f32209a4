import Reckoner.Name
import Reckoner.Text.Blank
import Reckoner.Token.Basic
import Reckoner.Token.Fault
import Reckoner.Token.Literal

/-!
Splitting a text into tokens. A sign belongs to a number only where an operand may start, which
is decided by the token before it at the same bracket level. Brackets stay in the result as
operators, and are balanced.
-/

namespace Reckoner.Token

open Text

/-- The body of a string up to its closing quote, and what follows the quote. A backslash
protects the next character. -/
def quoted? (quote : Char) : List Char → Option (List Char × List Char)
  | [] => none
  | '\\' :: c :: cs => (quoted? quote cs).map fun (body, rest) => ('\\' :: c :: body, rest)
  | c :: cs =>
    if c = quote then some ([], cs)
    else (quoted? quote cs).map fun (body, rest) => (c :: body, rest)

def ofQuoted (quote : Char) (body : List Char) : Kind :=
  .string (String.ofList (if quote = '"' then Escape.decode body else body))

def ofLiteral : Literal → Kind
  | .integer i => .integer i
  | .real r => .real r

def scan (afterOperand : Bool) (cs : List Char) : Except Fault.Cause (Kind × List Char) :=
  let number : Except Fault.Cause (Kind × List Char) :=
    match Literal.scan cs with
    | some (literal, rest) => .ok (ofLiteral literal, rest)
    | none => .error .invalidNumber
  if !afterOperand && Literal.startsSigned cs then number
  else
    match Operator.scan? cs with
    | some (op, rest) => .ok (.operator op, rest)
    | none =>
      if Literal.starts cs then number
      else
        match cs with
        | [] => .error .invalidCharacter
        | c :: tail =>
          if Name.isStart c then
            .ok (.name (String.ofList (cs.takeWhile Name.isPart)), cs.dropWhile Name.isPart)
          else if c = '\'' ∨ c = '"' then
            match quoted? c tail with
            | some (body, rest) => .ok (ofQuoted c body, rest)
            | none => .error .unterminatedString
          else .error .invalidCharacter

/-- A sign directly behind such a token is an operator. -/
def endsOperand : Kind → Bool
  | .operator op => op == .closeBracket
  | _ => true

theorem length_lt_of_quoted? {quote : Char} {cs body rest : List Char}
    (h : quoted? quote cs = some (body, rest)) : rest.length < cs.length := by
  fun_induction quoted? quote cs generalizing body rest with
  | case1 => cases h
  | case2 c cs ih =>
    obtain ⟨⟨b, r⟩, hbr, heq⟩ := Option.map_eq_some_iff.mp h
    obtain ⟨-, rfl⟩ := Prod.mk.inj heq
    have := ih hbr
    simp only [List.length_cons]
    omega
  | case3 cs =>
    simp only [Option.some.injEq, Prod.mk.injEq] at h
    simp [h.2]
  | case4 c cs _ _ ih =>
    obtain ⟨⟨b, r⟩, hbr, heq⟩ := Option.map_eq_some_iff.mp h
    obtain ⟨-, rfl⟩ := Prod.mk.inj heq
    have := ih hbr
    simp only [List.length_cons]
    omega

theorem length_lt_of_scan {afterOperand : Bool} {cs rest : List Char} {kind : Kind}
    (h : scan afterOperand cs = .ok (kind, rest)) : rest.length < cs.length := by
  have hnumber : ∀ {k : Kind} {r : List Char},
      (match Literal.scan cs with
        | some (literal, tail) => Except.ok (ofLiteral literal, tail)
        | none => .error Fault.Cause.invalidNumber) = .ok (k, r) → r.length < cs.length := by
    intro k r hk
    split at hk
    · next literal tail hscan =>
      cases hk
      exact Literal.length_lt_of_scan hscan
    · cases hk
  simp only [scan] at h
  split at h
  · exact hnumber h
  · split at h
    · next op tail hscan =>
      cases h
      exact Operator.length_lt_of_scan? hscan
    · split at h
      · exact hnumber h
      · split at h
        · cases h
        · next c tail _ _ _ =>
          split at h
          · next hstart =>
            cases h
            have hpart : Name.isPart c = true := by
              simp only [Name.isStart, Name.isPart, Char.isAlphanum, Bool.or_eq_true] at hstart ⊢
              rcases hstart with h | h
              · exact Or.inl h
              · exact Or.inr (Or.inl h)
            have := Decimal.Numeral.length_dropWhile_le Name.isPart tail
            rw [List.dropWhile_cons_of_pos hpart, List.length_cons]
            omega
          · split at h
            · split at h
              · next body rest' hquoted =>
                cases h
                have := length_lt_of_quoted? hquoted
                rw [List.length_cons]
                omega
              · cases h
            · cases h

/-- Splits what is left of a text. `opened` holds the positions of the brackets that are still
to be closed, innermost first. -/
def scanAll (afterOperand : Bool) (opened : List Nat) (position : Nat) (cs : List Char) :
    Except Fault (List Token) :=
  match cs with
  | [] =>
    match opened with
    | [] => .ok []
    | bracket :: _ => .error ⟨bracket, .missingClose⟩
  | c :: tail =>
    if isGap c then scanAll afterOperand opened (position + 1) tail
    else
      match h : scan afterOperand (c :: tail) with
      | .error cause => .error ⟨position, cause⟩
      | .ok (kind, rest) =>
        have : rest.length < (c :: tail).length := length_lt_of_scan h
        let next := position + (byteLength (c :: tail) - byteLength rest)
        match kind, opened with
        | .operator .openBracket, _ =>
          (scanAll false (position :: opened) next rest).map (⟨kind, position⟩ :: ·)
        | .operator .closeBracket, [] => .error ⟨position, .unmatchedClose⟩
        | .operator .closeBracket, _ :: outer =>
          (scanAll true outer next rest).map (⟨kind, position⟩ :: ·)
        | _, _ => (scanAll (endsOperand kind) opened next rest).map (⟨kind, position⟩ :: ·)
termination_by cs.length
decreasing_by all_goals simp only [List.length_cons] at *; omega

def tokenize (text : String) : Except Fault (List Token) := scanAll false [] 0 text.toList

end Reckoner.Token
