import Mathlib
import Reckoner.Proofs.Text.Offset
import Reckoner.Proofs.Token.Readers

/-!
Scanning looks at bytes, and cuts a text where it finds an ASCII character. Names, operators and
numbers have no other characters. A string may have, and a backslash in it takes only one byte of
the character behind it along: the bytes that are left of this character are no quotes.
-/

namespace Reckoner

namespace Text

def bytes (cs : List Char) : List UInt8 := cs.flatMap String.utf8EncodeChar

@[simp] theorem bytes_cons (c : Char) (cs : List Char) :
    bytes (c :: cs) = String.utf8EncodeChar c ++ bytes cs := List.flatMap_cons

/-- A byte below 128 is a character of its own. -/
theorem le_of_mem_utf8EncodeChar {c : Char} (hc : c.utf8Size ≠ 1) {b : UInt8}
    (hb : b ∈ String.utf8EncodeChar c) : 128 ≤ b := by
  have hlarge : ¬ c.val.toNat ≤ 127 := by
    intro hle
    exact hc (Char.utf8Size_eq_one_iff.2 (UInt32.le_iff_toNat_le.2 hle))
  simp only [String.utf8EncodeChar, hlarge, if_false] at hb
  rw [UInt8.le_iff_toNat_le]
  split at hb
  · simp only [List.mem_cons, List.not_mem_nil, or_false] at hb
    obtain rfl | rfl := hb <;> simp <;> omega
  · split at hb
    · simp only [List.mem_cons, List.not_mem_nil, or_false] at hb
      obtain rfl | rfl | rfl := hb <;> simp <;> omega
    · simp only [List.mem_cons, List.not_mem_nil, or_false] at hb
      obtain rfl | rfl | rfl | rfl := hb <;> simp <;> omega

def Passes (cs rest : List Char) : Prop :=
  ∃ front, cs = front ++ rest ∧ ∀ c ∈ front, c.utf8Size = 1

namespace Passes

variable {cs middle rest : List Char}

theorem refl (cs : List Char) : Passes cs cs := ⟨[], rfl, nofun⟩

theorem trans (h : Passes cs middle) (h' : Passes middle rest) : Passes cs rest := by
  obtain ⟨front, rfl, hfront⟩ := h
  obtain ⟨front', rfl, hfront'⟩ := h'
  refine ⟨front ++ front', (List.append_assoc ..).symm, fun c hc => ?_⟩
  exact (List.mem_append.1 hc).elim (hfront c) (hfront' c)

theorem cons {c : Char} (hc : c.utf8Size = 1) (cs : List Char) : Passes (c :: cs) cs :=
  ⟨[c], rfl, by simpa using hc⟩

theorem dropWhile {p : Char → Bool} (hp : ∀ c, p c = true → c.utf8Size = 1) (cs : List Char) :
    Passes cs (cs.dropWhile p) :=
  ⟨cs.takeWhile p, List.takeWhile_append_dropWhile.symm, fun c hc =>
    hp c (List.mem_takeWhile_imp hc)⟩

end Passes

end Text

namespace Token

open Text Decimal

theorem utf8Size_of_le {c : Char} (last : Char) (hlast : last.utf8Size = 1) (h : c.val ≤ last.val) :
    c.utf8Size = 1 :=
  Char.utf8Size_eq_one_iff.2 (UInt32.le_trans h (Char.utf8Size_eq_one_iff.1 hlast))

theorem utf8Size_of_isDigit (c : Char) (h : c.isDigit = true) : c.utf8Size = 1 := by
  simp only [Char.isDigit, Bool.and_eq_true, decide_eq_true_eq] at h
  exact utf8Size_of_le '9' rfl h.2

theorem utf8Size_of_isHex (c : Char) (h : Escape.isHex c = true) : c.utf8Size = 1 := by
  simp only [Escape.isHex, Bool.or_eq_true, Bool.and_eq_true, decide_eq_true_eq] at h
  obtain (hdigit | hlower) | hupper := h
  · exact utf8Size_of_isDigit c hdigit
  · exact utf8Size_of_le 'f' rfl hlower.2
  · exact utf8Size_of_le 'F' rfl hupper.2

/-- Names are written in ASCII, between the digits and the last letter. -/
theorem toNat_of_isPart (c : Char) (h : Name.isPart c = true) :
    48 ≤ c.toNat ∧ c.toNat ≤ 122 := by
  simp only [Name.isPart, Char.isAlphanum, Char.isAlpha, Char.isUpper, Char.isLower, Char.isDigit,
    Bool.or_eq_true, Bool.and_eq_true, decide_eq_true_eq, beq_iff_eq, ge_iff_le,
    UInt32.le_iff_toNat_le] at h
  obtain rfl | (hupper | hlower) | hdigit := h
  · decide
  · exact ⟨le_trans (by decide) hupper.1, hupper.2.trans (by decide)⟩
  · exact ⟨le_trans (by decide) hlower.1, hlower.2⟩
  · exact ⟨hdigit.1, hdigit.2.trans (by decide)⟩

theorem utf8Size_of_isPart (c : Char) (h : Name.isPart c = true) : c.utf8Size = 1 :=
  utf8Size_of_le 'z' rfl (UInt32.le_iff_toNat_le.2 (toNat_of_isPart c h).2)

theorem passes_sign (cs : List Char) : Passes cs (sign cs).2 := by
  fun_cases sign cs with
  | case1 cs => exact .cons rfl cs
  | case2 cs => exact .cons rfl cs
  | case3 => exact .refl cs

theorem passes_scanFraction (cs : List Char) : Passes cs (Numeral.scanFraction cs).2 := by
  fun_cases Numeral.scanFraction cs with
  | case1 cs => exact (Passes.cons rfl cs).trans (.dropWhile utf8Size_of_isDigit cs)
  | case2 => exact .refl cs

theorem passes_scanExponent (cs : List Char) : Passes cs (Numeral.scanExponent cs).2 := by
  fun_cases Numeral.scanExponent cs with
  | case1 | case2 | case4 => exact .refl _
  | case3 c rest hc =>
    have hletter : c.utf8Size = 1 := by obtain rfl | rfl := hc <;> rfl
    exact ((Passes.cons hletter rest).trans (passes_sign rest)).trans
      (.dropWhile utf8Size_of_isDigit _)

theorem passes_numeral (cs : List Char) : Passes cs (Numeral.scan cs).2 :=
  ((Passes.dropWhile utf8Size_of_isDigit cs).trans (passes_scanFraction _)).trans
    (passes_scanExponent _)

theorem passes_afterSuffix (cs : List Char) : Passes cs (Literal.afterSuffix cs) := by
  fun_cases Literal.afterSuffix cs with
  | case1 | case3 => exact .refl _
  | case2 c cs hc =>
    refine .cons ?_ cs
    simp only [Literal.isSuffix, Bool.or_eq_true, beq_iff_eq] at hc
    obtain ((rfl | rfl) | rfl) | rfl := hc <;> rfl

theorem passes_literal {cs rest : List Char} {literal : Literal}
    (h : Literal.scan cs = some (literal, rest)) : Passes cs rest := by
  refine (passes_sign cs).trans ?_
  simp only [Literal.scan] at h
  split at h
  · next digits tail hhex =>
    obtain ⟨_, -, heq⟩ := Option.map_eq_some_iff.1 h
    cases heq
    obtain ⟨x, c, more, hbody, hx, -, rfl⟩ := hexDigits?_eq_some.1 hhex
    have hletter : x.utf8Size = 1 := by obtain rfl | rfl := hx.1 <;> rfl
    rw [hbody]
    exact ((Passes.cons rfl _).trans (.cons hletter _)).trans (.dropWhile utf8Size_of_isHex _)
  · split at h
    · obtain ⟨_, -, heq⟩ := Option.map_eq_some_iff.1 h
      cases heq
      exact passes_numeral _
    · split at h
      · cases h
      · cases h
        exact (passes_numeral _).trans (passes_afterSuffix _)

def closing? (quote : UInt8) : List UInt8 → Option Nat
  | [] => none
  | [b] => if b = quote then some 1 else none
  | b :: c :: bs =>
    if b = 0x5c then (closing? quote bs).map (· + 2)
    else if b = quote then some 1
    else (closing? quote (c :: bs)).map (· + 1)

theorem closing?_cons {quote b : UInt8} (hb : b ≠ 0x5c) (bs : List UInt8) :
    closing? quote (b :: bs) =
      if b = quote then some 1 else (closing? quote bs).map (· + 1) := by
  cases bs with
  | nil => simp [closing?]
  | cons c bs => rw [closing?, if_neg hb]

/-- No quote is among the bytes of a character that takes up several. -/
theorem closing?_append {quote : UInt8} (hquote : quote < 128) {front : List UInt8}
    (hfront : ∀ b ∈ front, 128 ≤ b) (bs : List UInt8) :
    closing? quote (front ++ bs) = (closing? quote bs).map (· + front.length) := by
  induction front with
  | nil => simp
  | cons b front ih =>
    obtain ⟨hb, hfront⟩ := List.forall_mem_cons.1 hfront
    have hescape : b ≠ 0x5c := by
      rintro rfl
      exact absurd hb (by decide)
    have hne : b ≠ quote := by
      rintro rfl
      exact absurd hquote (UInt8.not_lt.2 hb)
    rw [List.cons_append, closing?_cons hescape, if_neg hne, ih hfront, Option.map_map]
    rfl

theorem eq_of_toUInt8_eq {c d : Char} (hc : c.utf8Size = 1) (hd : d.utf8Size = 1)
    (h : c.val.toUInt8 = d.val.toUInt8) : c = d := by
  have hc := UInt32.le_iff_toNat_le.1 (Char.utf8Size_eq_one_iff.1 hc)
  have hd := UInt32.le_iff_toNat_le.1 (Char.utf8Size_eq_one_iff.1 hd)
  have hmod := congrArg UInt8.toNat h
  rw [UInt32.toNat_toUInt8, UInt32.toNat_toUInt8] at hmod
  refine Char.ext (UInt32.toNat_inj.1 ?_)
  have h127 : (127 : UInt32).toNat = 127 := rfl
  omega

/-- Of a character behind a backslash one byte is taken along, and the others are passed over. -/
theorem closing?_escaped {quote : UInt8} (hquote : quote < 128) (c : Char) (cs : List Char) :
    closing? quote (bytes ('\\' :: c :: cs)) =
      (closing? quote (bytes cs)).map (· + (c.utf8Size + 1)) := by
  obtain ⟨b, front, hchar⟩ := List.exists_cons_of_ne_nil (String.utf8EncodeChar_ne_nil (c := c))
  have hlength := String.length_utf8EncodeChar c
  rw [hchar, List.length_cons] at hlength
  have hfront : ∀ b ∈ front, 128 ≤ b := by
    intro b' hb'
    refine le_of_mem_utf8EncodeChar (c := c) ?_ (hchar ▸ List.mem_cons_of_mem b hb')
    have := List.length_pos_of_mem hb'
    omega
  rw [bytes_cons, bytes_cons, hchar, show String.utf8EncodeChar '\\' = [0x5c] from rfl,
    List.singleton_append, List.cons_append, closing?, if_pos rfl, closing?_append hquote hfront,
    Option.map_map, ← hlength]
  rfl

/-- All bytes of a character are passed over if it is neither a backslash nor the quote. -/
theorem closing?_char {quote c : Char} (hsize : quote.utf8Size = 1)
    (hbyte : quote.val.toUInt8 < 128) (hescape : c ≠ '\\') (hne : c ≠ quote) (cs : List Char) :
    closing? quote.val.toUInt8 (bytes (c :: cs)) =
      (closing? quote.val.toUInt8 (bytes cs)).map (· + c.utf8Size) := by
  rw [bytes_cons]
  by_cases hone : c.utf8Size = 1
  · have hescapeByte : c.val.toUInt8 ≠ 0x5c := fun heq => hescape (eq_of_toUInt8_eq hone rfl heq)
    have hneByte : c.val.toUInt8 ≠ quote.val.toUInt8 :=
      fun heq => hne (eq_of_toUInt8_eq hone hsize heq)
    rw [String.utf8EncodeChar_eq_singleton hone, List.singleton_append,
      closing?_cons hescapeByte, if_neg hneByte, hone]
  · rw [closing?_append hbyte fun _ => le_of_mem_utf8EncodeChar hone,
      String.length_utf8EncodeChar]

/-- Bytes and characters agree on where a string ends. -/
theorem closing?_of_quoted? {quote : Char} (hquote : quote = '\'' ∨ quote = '"')
    {cs body rest : List Char} (h : quoted? quote cs = some (body, rest)) :
    closing? quote.val.toUInt8 (bytes cs) = some (byteLength body + 1) := by
  have hsize : quote.utf8Size = 1 := by obtain rfl | rfl := hquote <;> rfl
  have hbyte : quote.val.toUInt8 < 128 := by obtain rfl | rfl := hquote <;> decide
  have hplain : quote ≠ '\\' := by obtain rfl | rfl := hquote <;> decide
  fun_induction quoted? quote cs generalizing body rest with
  | case1 => cases h
  | case2 c cs ih =>
    obtain ⟨⟨inner, _⟩, hinner, heq⟩ := Option.map_eq_some_iff.1 h
    cases heq
    rw [closing?_escaped hbyte, ih hinner, Option.map_some, byteLength_cons, byteLength_cons,
      show Char.utf8Size '\\' = 1 from rfl]
    congr 1
    omega
  | case3 cs =>
    cases h
    have hescape : quote.val.toUInt8 ≠ 0x5c := fun heq => hplain (eq_of_toUInt8_eq hsize rfl heq)
    rw [bytes_cons, String.utf8EncodeChar_eq_singleton hsize, List.singleton_append,
      closing?_cons hescape, if_pos rfl]
    rfl
  | case4 c cs hprotects hne ih =>
    obtain ⟨⟨inner, _⟩, hinner, heq⟩ := Option.map_eq_some_iff.1 h
    cases heq
    have hc := ne_escape_of_quoted? hprotects hinner
    rw [closing?_char hsize hbyte hc hne, ih hinner, Option.map_some, byteLength_cons]
    congr 1
    omega

end Token

end Reckoner
