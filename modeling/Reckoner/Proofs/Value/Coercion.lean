import Reckoner.Proofs.Decimal.Layout
import Reckoner.Proofs.Text.Entries
import Reckoner.Proofs.Value.Present

/-!
Conversion between kinds. The text of a value holds all of it: words, digits and the shortest
decimals are read back as what they were written for, in whichever of the four kinds that is. And a
conversion is done once and for all, since its result is of an accepted kind and is kept as it is.
-/

namespace Reckoner

namespace Decimal

open Text Token

/-- The magnitude of the least integer does not fit, but with its sign it is in range. -/
theorem readInteger_integer (i : Int64) : readInteger (integer i.toInt) = some i := by
  have hall : (natural i.toInt.natAbs).all Char.isDigit = true :=
    List.all_eq_true.2 fun c => isDigit_of_mem_natural
  have hne : natural i.toInt.natAbs ≠ [] := Nat.toDigits_ne_nil
  have hrange : Int64.minValue.toInt ≤ i.toInt ∧ i.toInt ≤ Int64.maxValue.toInt :=
    ⟨i.le_toInt, Int64.toInt_le i⟩
  simp only [readInteger, sign_integer, hne, hall, not_true, or_self, if_false,
    signed_ofDigits_natural, hrange, and_self, if_true, Int64.ofInt_toInt]

theorem readReal_infinity {r : Float} {negative : Bool} (h : Double.of r = .infinity negative) :
    readReal (Layout.render.signed negative ['i', 'n', 'f']) = some r := by
  cases negative with
  | false =>
    have hof : Double.of (1.0 / 0.0) = .infinity false := by decide
    exact congrArg some (Double.eq_of_infinity hof h)
  | true =>
    have hof : Double.of (-(1.0 / 0.0)) = .infinity true := by decide
    exact congrArg some (Double.eq_of_infinity hof h)

/-- Neither written numbers nor the letters of infinities have blanks. -/
theorem isBlank_of_isNumeral {c : Char} (h : isNumeral c = true) : isBlank c = false := by
  simp only [isNumeral, Bool.or_eq_true, beq_iff_eq] at h
  obtain ((hdigit | rfl) | rfl) | rfl := h
  · simp only [Char.isDigit, Bool.and_eq_true, decide_eq_true_eq] at hdigit
    have hle : 48 ≤ c.toNat := UInt32.le_iff_toNat_le.1 hdigit.1
    have hge : c.toNat ≤ 57 := UInt32.le_iff_toNat_le.1 hdigit.2
    exact isBlank_eq_false (by omega) (by omega)
  all_goals decide

theorem isBlank_of_mem_signed {negative : Bool} {cs : List Char} {c : Char}
    (h : ∀ c ∈ cs, isBlank c = false) (hc : c ∈ Layout.render.signed negative cs) :
    isBlank c = false := by
  unfold Layout.render.signed at hc
  split at hc
  · obtain rfl | hc := List.mem_cons.1 hc
    · decide
    · exact h c hc
  · exact h c hc

theorem readInteger_trim (i : Int64) : readInteger (trim (integer i.toInt)) = some i := by
  have hblank : ∀ c ∈ integer i.toInt, isBlank c = false := fun c hc =>
    isBlank_of_isNumeral (isNumeral_of_mem_integer hc)
  rw [trim_of_forall hblank, readInteger_integer]

/-- Whatever a real is, but for a NaN, it is read from its text. -/
theorem readReal_trim (layout : Layout) {r : Float} (h : Double.of r ≠ .nan) :
    readReal (trim (layout.render r)) = some r := by
  cases hr : Double.of r with
  | nan => exact absurd hr h
  | infinity negative =>
    have hrender : layout.render r = Layout.render.signed negative ['i', 'n', 'f'] := by
      rw [Layout.render, hr]
    have hblank : ∀ c ∈ ['i', 'n', 'f'], isBlank c = false :=
      List.forall_mem_cons.2 ⟨rfl, List.forall_mem_cons.2 ⟨rfl, List.forall_mem_singleton.2 rfl⟩⟩
    rw [hrender, trim_of_forall fun c => isBlank_of_mem_signed hblank, readReal_infinity hr]
  | finite negative mantissa exponent =>
    have hrender : layout.render r =
        Layout.render.signed negative (layout.magnitude mantissa exponent) := by
      rw [Layout.render, hr]
    have hblank : ∀ c ∈ layout.render r, isBlank c = false := by
      rw [hrender]
      exact fun c => isBlank_of_mem_signed fun _ hc =>
        isBlank_of_isNumeral (isNumeral_of_mem_magnitude hc)
    rw [trim_of_forall hblank, readReal_render layout ⟨negative, mantissa, exponent, hr⟩]

end Decimal

namespace Value

variable {v w : Value} {kinds : Kinds}

def IsSpelled : Value → Prop
  | real r => Double.of r ≠ .nan
  | null => False
  | _ => True

theorem convert_string (h : v ≠ null) :
    v.convert { string := true } = some (string (String.ofList v.text)) := by
  cases v with
  | null => exact absurd rfl h
  | string s =>
    rw [text, String.ofList_toList]
    rfl
  | boolean | integer | real => rfl

/-- The text of a value is read back as the value. -/
theorem convert_text (h : v.IsSpelled) :
    (string (String.ofList v.text)).convert v.kind = some v := by
  cases v with
  | boolean b => cases b <;> rfl
  | integer i =>
    have hread : (string (String.ofList (integer i).text)).toInteger? = some i := by
      rw [toInteger?, String.toList_ofList, text, Decimal.readInteger_trim]
    exact congrArg (Option.map integer) hread
  | real r =>
    have hread : (string (String.ofList (real r).text)).toReal? = some r := by
      rw [toReal?, String.toList_ofList, text, Decimal.readReal_trim _ h]
    exact congrArg (Option.map real) hread
  | string s =>
    rw [text, String.ofList_toList]
    rfl
  | null => exact h.elim

/-- A value of an accepted kind is kept. -/
theorem convert_of_meets (h : kinds.meets v.kind) : v.convert kinds = some v := by
  rw [convert, if_pos h]

/-- As a string, a value holds all that it was: unless it is absent or a NaN, it is converted to its
text, and its text is converted back to it. And whatever a conversion gives is of an accepted kind,
and is not changed by the same conversion. -/
theorem convert_back (v : Value) (kinds : Kinds) :
    (v.IsSpelled → v.convert { string := true } = some (string (String.ofList v.text)) ∧
      (string (String.ofList v.text)).convert v.kind = some v) ∧
    ∀ w, v.convert kinds = some w → kinds.meets w.kind ∧ w.convert kinds = some w := by
  refine ⟨fun h => ⟨convert_string ?_, convert_text h⟩, fun w h => ?_⟩
  · rintro rfl
    exact h
  · have hmeets := meets_of_convert h
    exact ⟨hmeets, convert_of_meets hmeets⟩

/-- The least integer, a zero with its sign, and a string that is no integer and stays a string. -/
theorem convert_back_of_least :
    (string "-9223372036854775808").convert (integer Int64.minValue).kind =
        some (integer Int64.minValue) ∧
      (string "-0").convert (real (-0.0)).kind = some (real (-0.0)) ∧
      (string "1.5").convert { integer := true, string := true } = some (string "1.5") := by
  have hleast : String.ofList (integer Int64.minValue).text = "-9223372036854775808" := by cbv
  have hof : Double.of (-0.0) = .finite true 0 (-1074) := by decide
  have hzero : String.ofList (real (-0.0)).text = "-0" := by
    rw [text, Decimal.Layout.render, hof]
    rfl
  have hspelled : (real (-0.0)).IsSpelled := fun hnan => by cases hof.symm.trans hnan
  have hinteger := ((convert_back (integer Int64.minValue) .any).1 trivial).2
  have hreal := ((convert_back (real (-0.0)) .any).1 hspelled).2
  rw [hleast] at hinteger
  rw [hzero] at hreal
  exact ⟨hinteger, hreal, ((convert_back (string "1.5") _).2 _ rfl).2⟩

end Value

end Reckoner
