import Reckoner.Text.Escape

/-!
What is escaped decodes to what it was, whatever stands behind it.
-/

namespace Reckoner.Text.Escape

theorem decode_cons {c : Char} (hc : c ≠ '\\') (cs : List Char) :
    decode (c :: cs) = c :: decode cs := by
  rw [decode.eq_def]
  exact if_pos hc

theorem ofLetter_of_letter {c e : Char} (h : letter c = some e) : ofLetter e = some c := by
  unfold letter at h
  split at h <;> cases h <;> rfl

theorem decode_of_ofLetter {c e : Char} (h : ofLetter e = some c) (rest : List Char) :
    decode ('\\' :: e :: rest) = c :: decode rest := by
  rw [decode, if_neg (not_not_intro rfl), h]

theorem ofLetter_of_isOctal {a : Char} (ha : isOctal a = true) : ofLetter a = none := by
  unfold ofLetter
  split <;> first | cases ha | rfl

/-- Three octal digits are one escape, whatever follows. -/
theorem decode_octal {a b d : Char} (ha : isOctal a = true) (hb : isOctal b = true)
    (hd : isOctal d = true) (rest : List Char) :
    decode ('\\' :: a :: b :: d :: rest) =
      Char.ofNat (number 8 [a, b, d] % 256) :: decode rest := by
  have hx : a ≠ 'x' := by
    rintro rfl
    cases ha
  have hdigits : digits isOctal 2 (b :: d :: rest) = [b, d] := by
    simp [digits, hb, hd]
  rw [decode, if_neg (not_not_intro rfl), ofLetter_of_isOctal ha]
  simp only [hx, if_false, ha, if_true, hdigits, List.length_cons, List.length_nil,
    List.drop_succ_cons, List.drop_zero]

/-- Three octal digits tell an ASCII character. -/
theorem octal_ofNat : ∀ n < 128, (octal (Char.ofNat n)).all isOctal = true ∧
    Char.ofNat (number 8 (octal (Char.ofNat n)) % 256) = Char.ofNat n := by
  decide

theorem octal_of_isControl {c : Char} (h : isControl c = true) :
    (octal c).all isOctal = true ∧ Char.ofNat (number 8 (octal c) % 256) = c := by
  have hlt : c.toNat < 128 := by
    simp only [isControl, Bool.or_eq_true, decide_eq_true_eq, beq_iff_eq] at h
    omega
  have hspec := octal_ofNat c.toNat hlt
  rwa [Char.ofNat_toNat] at hspec

/-- A character is a letter behind a backslash, three octal digits behind a backslash, or itself. -/
theorem encodeChar_cases (c : Char) :
    (∃ e, ofLetter e = some c ∧ encodeChar c = ['\\', e]) ∨
      (∃ a b d, encodeChar c = ['\\', a, b, d] ∧ isOctal a = true ∧ isOctal b = true ∧
        isOctal d = true ∧ Char.ofNat (number 8 [a, b, d] % 256) = c) ∨
      (c ≠ '\\' ∧ c ≠ '"' ∧ encodeChar c = [c]) := by
  unfold encodeChar
  split
  · next e h => exact .inl ⟨e, ofLetter_of_letter h, rfl⟩
  · next h =>
    split
    · next hcontrol =>
      obtain ⟨hall, hnumber⟩ := octal_of_isControl hcontrol
      simp only [octal, List.all_cons, List.all_nil, Bool.and_true, Bool.and_eq_true] at hall
      exact .inr (.inl ⟨_, _, _, rfl, hall.1, hall.2.1, hall.2.2, hnumber⟩)
    · refine .inr (.inr ⟨?_, ?_, rfl⟩)
      · rintro rfl
        cases h
      · rintro rfl
        cases h

theorem decode_encode (cs : List Char) : decode (encode cs) = cs := by
  induction cs with
  | nil => rw [encode, List.flatMap_nil, decode]
  | cons c cs ih =>
    rw [encode, List.flatMap_cons]
    obtain ⟨e, he, heq⟩ | ⟨a, b, d, heq, ha, hb, hd, hnumber⟩ | ⟨hescape, -, heq⟩ :=
      encodeChar_cases c
    · rw [heq]
      exact (decode_of_ofLetter he _).trans (congrArg (c :: ·) ih)
    · rw [heq]
      refine (decode_octal ha hb hd _).trans ?_
      rw [hnumber]
      exact congrArg (c :: ·) ih
    · rw [heq]
      exact (decode_cons hescape _).trans (congrArg (c :: ·) ih)

end Reckoner.Text.Escape
