import Reckoner.Proofs.Decimal.Layout
import Reckoner.Proofs.Token.Written

/-!
The text of a token is split into this token, in whichever notation it was written before. Only two
kinds of numbers have no text of their own. The digits of the least integer are read without their
sign, and are too many for an integer; and an infinity is written in letters, which are a name.
-/

namespace Reckoner.Token

open Text Decimal

/-- Digits that are too large for an integer are a real. -/
theorem exists_isNumber_large {n : Nat} (h : Int64.size / 2 ≤ n) (negative : Bool) :
    ∃ r, IsNumber (Layout.render.signed negative (natural n)) (.real r) := by
  have hdigits : ∀ c ∈ natural n, c.isDigit = true := fun c => isDigit_of_mem_natural
  have hread := decimal?_natural negative n
  rw [Literal.ofDigits, isOctal_natural] at hread
  simp only [Bool.false_eq_true, if_false, number_natural, if_neg (Nat.not_lt.2 h)] at hread
  rw [← unsigned?_eq_decimal? fun c hc => ne_x_of_isDigit (hdigits c hc)] at hread
  obtain ⟨d, body, hcons⟩ := List.exists_cons_of_ne_nil (Nat.toDigits_ne_nil (n := n) (b := 10))
  rw [natural, hcons] at hread hdigits ⊢
  have hd : d.isDigit = true := hdigits d (List.mem_cons_self ..)
  exact ⟨_, ⟨negative, d, body, rfl, hd⟩, (literalScan_signed negative hd body).trans hread⟩

def Kind.IsBracket (kind : Kind) : Prop :=
  kind = .operator .openBracket ∨ kind = .operator .closeBracket

theorem Scans.tokenize {lexeme : List Char} {kind : Kind} (h : Scans false lexeme kind [])
    (hbracket : ¬ kind.IsBracket) : Token.tokenize (String.ofList lexeme) = .ok [⟨kind, 0⟩] := by
  obtain ⟨front, hne, hfront, -⟩ := h.replace
  rw [List.append_nil] at hfront
  obtain ⟨c, cs, rfl⟩ := List.exists_cons_of_ne_nil hne
  subst hfront
  exact tokenize_of_scans rfl h.isGap_eq_false h (hbracket ∘ .inl) (hbracket ∘ .inr)

/-- The least integer is read as a real. -/
theorem tokenize_minValue_ne (position : Nat) :
    Token.tokenize (String.ofList (Kind.integer Int64.minValue).chars) ≠
      .ok [⟨.integer Int64.minValue, position⟩] := by
  obtain ⟨r, hnumber⟩ := exists_isNumber_large (n := 2 ^ 63) (by decide) true
  have hchars : (Kind.integer Int64.minValue).chars =
      Layout.render.signed true (natural (2 ^ 63)) := integer_eq _
  rw [hchars, hnumber.scans.tokenize (by rintro (h | h) <;> cases h)]
  nofun

/-- An infinity is read as a name, and a NaN is too. -/
theorem tokenize_render_ne {r : Float} (h : ¬ (Double.of r).IsFinite) (position : Nat) :
    Token.tokenize (String.ofList (Kind.real r).chars) ≠ .ok [⟨.real r, position⟩] := by
  have hname {c : Char} {cs : List Char} {name : String} (hgap : isGap c = false)
      (hscan : scan false (c :: cs) = .ok (.name name, [])) (start : Nat) :
      scanAll false [] start (c :: cs) = .ok [⟨.name name, start⟩] := by
    rw [scanAll_cons hgap hscan]
    simp only [openedAfter, scanAll]
    rfl
  rw [Kind.chars, Layout.render, Token.tokenize, String.toList_ofList]
  cases hr : Double.of r with
  | finite negative mantissa exponent => exact absurd ⟨negative, mantissa, exponent, hr⟩ h
  | nan =>
    simp only
    rw [hname rfl rfl]
    rintro ⟨⟩
  | infinity negative =>
    cases negative with
    | false =>
      simp only [Layout.render.signed, Bool.false_eq_true, if_false]
      rw [hname rfl rfl]
      rintro ⟨⟩
    | true =>
      have hminus : scan false ['-', 'i', 'n', 'f'] =
          .ok (.operator .minus, ['i', 'n', 'f']) := rfl
      simp only [Layout.render.signed, if_true]
      have hend : endsOperand (.operator .minus) = false := rfl
      rw [scanAll_cons rfl hminus]
      simp only [openedAfter, hend]
      rw [hname rfl rfl]
      rintro ⟨⟩

/-- The text of a token is split into this token alone, whatever its notation was, just if the token
is not the least integer and not an infinity. -/
theorem tokenize_text_iff {text : String} {tokens : List Token} {token : Token}
    (h : tokenize text = .ok tokens) (htoken : token ∈ tokens)
    (hbracket : ¬ token.kind.IsBracket) :
    (∃ position, tokenize token.text = .ok [⟨token.kind, position⟩]) ↔ token.kind.IsWritable := by
  obtain ⟨⟨after, hlexes⟩, -⟩ := lexes_of_tokenize h
  obtain ⟨before, cs, rest, hscan⟩ := hlexes.exists_scans_of_mem (List.mem_map_of_mem htoken)
  rw [Token.text, Token.chars]
  constructor
  · rintro ⟨position, htext⟩
    by_contra hnot
    cases hkind : token.kind with
    | integer i =>
      rw [hkind] at htext hnot
      obtain rfl : i = Int64.minValue := not_not.1 hnot
      exact tokenize_minValue_ne position htext
    | real r =>
      rw [hkind] at htext hnot
      exact tokenize_render_ne hnot position htext
    | name | operator | string => exact hnot (by rw [hkind]; exact trivial)
  · intro hwritable
    have hback : token.kind.ReadsBack := hscan.readsBack hwritable fun r hr =>
      readReal_render .literal (by rw [hr] at hwritable; exact hwritable)
    exact ⟨0, hback.tokenize hbracket⟩

/-- An octal integer is read again from its decimal text, and the least integer, which only a
hexadecimal literal can spell, is not. -/
theorem tokenize_text_of_least :
    tokenize "017 0x8000000000000000" =
      .ok [⟨.integer 15, 0⟩, ⟨.integer Int64.minValue, 4⟩] ∧
    (∃ position, tokenize (Token.text ⟨.integer 15, 0⟩) = .ok [⟨.integer 15, position⟩]) ∧
    ¬ ∃ position, tokenize (Token.text ⟨.integer Int64.minValue, 4⟩) =
      .ok [⟨.integer Int64.minValue, position⟩] := by
  have htokens : tokenize "017 0x8000000000000000" =
      .ok [⟨.integer 15, 0⟩, ⟨.integer Int64.minValue, 4⟩] := by
    have htext : "017 0x8000000000000000".toList =
        '0' :: '1' :: '7' :: ' ' :: "0x8000000000000000".toList := rfl
    have hoctal : scan false ('0' :: '1' :: '7' :: ' ' :: "0x8000000000000000".toList) =
        .ok (.integer 15, ' ' :: "0x8000000000000000".toList) := rfl
    have hhex : scan true ('0' :: 'x' :: "8000000000000000".toList) =
        .ok (.integer Int64.minValue, []) := rfl
    rw [tokenize, htext, scanAll_cons rfl hoctal]
    simp only [openedAfter, endsOperand]
    rw [scanAll_gap rfl, show "0x8000000000000000".toList =
      '0' :: 'x' :: "8000000000000000".toList from rfl, scanAll_cons rfl hhex]
    simp only [openedAfter, scanAll]
    rfl
  have hinteger (i : Int64) : ¬ (Kind.integer i).IsBracket := by rintro (h | h) <;> cases h
  refine ⟨htokens, ?_, ?_⟩
  · have hmem : (⟨.integer 15, 0⟩ : Token) ∈
        [⟨.integer 15, 0⟩, (⟨.integer Int64.minValue, 4⟩ : Token)] := List.mem_cons_self ..
    exact (tokenize_text_iff htokens hmem (hinteger 15)).2
      (show (15 : Int64) ≠ Int64.minValue by decide)
  · have hmem : (⟨.integer Int64.minValue, 4⟩ : Token) ∈
        [⟨.integer 15, 0⟩, (⟨.integer Int64.minValue, 4⟩ : Token)] := by simp
    exact fun h => (tokenize_text_iff htokens hmem (hinteger _)).1 h rfl

end Reckoner.Token
