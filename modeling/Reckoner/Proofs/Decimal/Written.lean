import Mathlib
import Reckoner.Proofs.Token.Readers

/-!
Written numbers read as numeric literals. An integer has no leading zero that would make it octal,
and a real always has a point or an exponent, so that both are read as what they are.
-/

namespace Reckoner

def Double.IsFinite (x : Double) : Prop :=
  ∃ negative mantissa exponent, x = .finite negative mantissa exponent

namespace Decimal

open Text

theorem isDigit_of_mem_natural {n : Nat} {c : Char} (h : c ∈ natural n) : c.isDigit = true :=
  Nat.isDigit_of_mem_toDigits (by decide) (by decide) h

theorem number_eq_ofDigitChars {digits : List Char} (h : ∀ c ∈ digits, c.isDigit = true) :
    Escape.number 10 digits = Nat.ofDigitChars 10 digits 0 := by
  unfold Escape.number Nat.ofDigitChars
  generalize 0 = n
  induction digits generalizing n with
  | nil => rfl
  | cons c digits ih =>
    obtain ⟨hc, hdigits⟩ := List.forall_mem_cons.1 h
    rw [List.foldl_cons, List.foldl_cons, ih hdigits, Escape.digitValue, if_pos hc, Nat.mul_comm]

theorem number_natural (n : Nat) : Escape.number 10 (natural n) = n := by
  rw [number_eq_ofDigitChars fun c => isDigit_of_mem_natural, natural]
  exact Nat.ofDigitChars_toDigits (by decide) (by decide)

/-- No number but zero begins with a zero. -/
theorem head?_natural {n : Nat} (h : 0 < n) : (natural n).head? ≠ some '0' := by
  induction n using Nat.strongRecOn with
  | ind n ih =>
    rw [natural]
    by_cases hlt : n < 10
    · have hall : ∀ n < 10, 0 < n → some (Nat.digitChar n) ≠ some '0' := by decide
      rw [Nat.toDigits_of_lt_base hlt]
      exact hall n hlt h
    · have hle : 10 ≤ n := Nat.le_of_not_lt hlt
      have hpos : 0 < n / 10 := Nat.div_pos hle (by decide)
      rw [Nat.toDigits_of_base_le (by decide) hle,
        List.head?_append_of_ne_nil _ Nat.toDigits_ne_nil]
      exact ih (n / 10) (Nat.div_lt_self h (by decide)) hpos

theorem isOctal_natural (n : Nat) : Literal.isOctal (natural n) = false := by
  by_cases hzero : n = 0
  · subst hzero
    rfl
  · have hhead := head?_natural (Nat.pos_of_ne_zero hzero)
    unfold Literal.isOctal
    split
    · next heq =>
      rw [heq] at hhead
      exact absurd rfl hhead
    · rfl

theorem integer_eq (i : Int) :
    integer i = Layout.render.signed (decide (i < 0)) (natural i.natAbs) := by
  unfold integer Layout.render.signed
  by_cases h : i < 0 <;> simp [h]

end Decimal

namespace Token

open Text Decimal

theorem sign_signed (negative : Bool) {c : Char} (hc : isSign c = false) (body : List Char) :
    sign (Layout.render.signed negative (c :: body)) = (negative, c :: body) := by
  cases negative with
  | true => rfl
  | false =>
    rw [Layout.render.signed, if_neg (by decide), sign.eq_3]
    all_goals
      rintro cs heq
      cases heq
      cases hc

/-- Behind its sign, a number is read without one. -/
theorem literalScan_signed (negative : Bool) {d : Char} (hd : d.isDigit = true) (body : List Char) :
    Literal.scan (Layout.render.signed negative (d :: body)) = unsigned? negative (d :: body) := by
  rw [literalScan_eq, sign_signed negative (isSign_eq_false_of_isDigit hd), Option.bind_some]

theorem hexDigits?_eq_none {cs : List Char} (h : ∀ c ∈ cs, c ≠ 'x' ∧ c ≠ 'X') :
    Literal.hexDigits? cs = none := by
  by_contra hne
  obtain ⟨⟨digits, rest⟩, hread⟩ := Option.isSome_iff_exists.1 (Option.isSome_iff_ne_none.2 hne)
  obtain ⟨x, c, more, rfl, hx, -, -⟩ := hexDigits?_eq_some.1 hread
  have hx' := h x (by simp)
  exact hx.1.elim hx'.1 hx'.2

theorem unsigned?_eq_decimal? {cs : List Char} (h : ∀ c ∈ cs, c ≠ 'x' ∧ c ≠ 'X')
    (negative : Bool) : unsigned? negative cs = decimal? negative cs := by
  rw [unsigned?, hexDigits?_eq_none h, Option.elim_none]

theorem ne_x_of_isDigit {c : Char} (h : c.isDigit = true) : c ≠ 'x' ∧ c ≠ 'X' := by
  constructor <;> rintro rfl <;> cases h

theorem numeralScan_of_forall {cs : List Char} (h : ∀ c ∈ cs, c.isDigit = true) :
    Numeral.scan cs = (⟨cs, none, none⟩, []) := by
  have htake : cs.takeWhile Char.isDigit = cs := List.takeWhile_eq_self_iff.2 h
  have hdrop : cs.dropWhile Char.isDigit = [] := List.dropWhile_eq_nil_iff.2 h
  simp only [Numeral.scan, htake, hdrop, Numeral.scanFraction, Numeral.scanExponent]

theorem decimal?_natural (negative : Bool) (n : Nat) :
    decimal? negative (natural n) = some (Literal.ofDigits negative (natural n), []) := by
  have hscan := numeralScan_of_forall fun c => isDigit_of_mem_natural (n := n) (c := c)
  have hne : natural n ≠ [] := Nat.toDigits_ne_nil
  simp only [decimal?, hscan, Numeral.isReal, Option.isSome_none, Bool.or_self, Bool.false_eq_true,
    if_false, hne, Literal.afterSuffix]

theorem ofDigits_natural {n : Nat} (h : n < Int64.size / 2) (negative : Bool) :
    Literal.ofDigits negative (natural n) =
      .integer (if negative then -Int64.ofInt n else Int64.ofInt n) := by
  simp only [Literal.ofDigits, isOctal_natural, Bool.false_eq_true, if_false, number_natural, h,
    if_true]

structure IsNumber (cs : List Char) (literal : Literal) : Prop where
  starts : ∃ negative d body, cs = Layout.render.signed negative (d :: body) ∧ d.isDigit = true
  read : Literal.scan cs = some (literal, [])

/-- The least integer is the only one whose digits are too large for an integer. -/
theorem natAbs_lt {i : Int64} (h : i ≠ Int64.minValue) : i.toInt.natAbs < Int64.size / 2 := by
  have hne : i.toInt ≠ -2 ^ 63 := fun heq => h (Int64.toInt_inj.1 (heq.trans (by decide)))
  have hle := i.le_toInt
  have hlt := i.toInt_lt
  have hsize : Int64.size / 2 = 2 ^ 63 := by decide
  omega

theorem ofInt_natAbs (i : Int64) :
    (if decide (i.toInt < 0) then -Int64.ofInt i.toInt.natAbs
      else Int64.ofInt i.toInt.natAbs) = i := by
  by_cases hneg : i.toInt < 0
  · have habs : (i.toInt.natAbs : Int) = -i.toInt := by omega
    rw [if_pos (decide_eq_true hneg), habs, Int64.ofInt_neg, Int64.neg_neg, Int64.ofInt_toInt]
  · have habs : (i.toInt.natAbs : Int) = i.toInt := by omega
    rw [if_neg (by simpa using hneg), habs, Int64.ofInt_toInt]

/-- An integer reads as itself, unless it is too large without its sign. -/
theorem isNumber_integer {i : Int64} (h : i ≠ Int64.minValue) :
    IsNumber (integer i.toInt) (.integer i) := by
  have hread := decimal?_natural (decide (i.toInt < 0)) i.toInt.natAbs
  rw [ofDigits_natural (natAbs_lt h), ofInt_natAbs, ← unsigned?_eq_decimal? fun c hc =>
    ne_x_of_isDigit (isDigit_of_mem_natural hc)] at hread
  have hdigit : ∀ c ∈ natural i.toInt.natAbs, c.isDigit = true := fun c => isDigit_of_mem_natural
  obtain ⟨d, body, hdigits⟩ := List.exists_cons_of_ne_nil
    (Nat.toDigits_ne_nil (n := i.toInt.natAbs) (b := 10))
  rw [integer_eq]
  rw [natural, hdigits] at hread hdigit ⊢
  have hd : d.isDigit = true := hdigit d (List.mem_cons_self ..)
  exact ⟨⟨_, d, body, rfl, hd⟩, (literalScan_signed _ hd body).trans hread⟩

def isNumeral (c : Char) : Bool := c.isDigit || c == '.' || c == 'e' || c == '-'

structure IsReal (cs : List Char) : Prop where
  /-- There is a point or an exponent. -/
  marked : ∃ c ∈ cs, c.isDigit = false
  head : ∃ c more, cs = c :: more ∧ (c.isDigit = true ∨ c = 'e')

theorem isNumeral_of_isDigit {c : Char} (h : c.isDigit = true) : isNumeral c = true := by
  simp [isNumeral, h]

theorem mem_of_mem_stripZeros {digits : List Char} {c : Char} (h : c ∈ stripZeros digits) :
    c ∈ digits := by
  have hreverse := (List.dropWhile_suffix _).subset (List.mem_reverse.1 h)
  exact List.mem_reverse.1 hreverse

theorem isNumeral_of_mem_integer {i : Int} {c : Char} (h : c ∈ integer i) : isNumeral c = true := by
  have hnatural (hc : c ∈ natural i.natAbs) : isNumeral c = true :=
    isNumeral_of_isDigit (isDigit_of_mem_natural hc)
  unfold integer at h
  split at h
  · obtain rfl | h := List.mem_cons.1 h
    · rfl
    · exact hnatural h
  · exact hnatural h

section Chars

variable {digits : List Char} {c : Char}

theorem isNumeral_of_mem_place {layout : Layout} {point : Int}
    (h : ∀ c ∈ digits, c.isDigit = true) (hc : c ∈ layout.place digits point) :
    isNumeral c = true := by
  have hdigit (hc : c ∈ digits) : isNumeral c = true := isNumeral_of_isDigit (h c hc)
  have hzero {n : Nat} (hc : c ∈ List.replicate n '0') : isNumeral c = true := by
    rw [List.eq_of_mem_replicate hc]
    rfl
  have hpoint (hc : c ∈ ['.', '0']) : isNumeral c = true := by
    obtain rfl | rfl : c = '.' ∨ c = '0' := by simpa using hc
    · rfl
    · rfl
  unfold Layout.place at hc
  split at hc
  · obtain rfl | rfl | hzeros | hdigits : c = '0' ∨ c = '.' ∨
        c ∈ List.replicate (-point).toNat '0' ∨ c ∈ digits := by simpa using hc
    · rfl
    · rfl
    · exact hzero hzeros
    · exact hdigit hdigits
  · split at hc
    · obtain hc | hkept := List.mem_append.1 hc
      · exact (List.mem_append.1 hc).elim hdigit hzero
      · split at hkept
        · exact hpoint hkept
        · cases hkept
    · obtain hfront | hbehind := List.mem_append.1 hc
      · exact hdigit (List.mem_of_mem_take hfront)
      · obtain rfl | hback := List.mem_cons.1 hbehind
        · rfl
        · exact hdigit (List.mem_of_mem_drop hback)

theorem isNumeral_of_mem_scientific {exponent : Int} (h : ∀ c ∈ digits, c.isDigit = true)
    (hc : c ∈ Layout.scientific digits exponent) : isNumeral c = true := by
  unfold Layout.scientific at hc
  obtain hc | hpower := List.mem_append.1 hc
  · obtain hfront | hfraction := List.mem_append.1 hc
    · exact isNumeral_of_isDigit (h c (List.mem_of_mem_take hfront))
    · split at hfraction
      · cases hfraction
      · obtain rfl | hback := List.mem_cons.1 hfraction
        · rfl
        · exact isNumeral_of_isDigit (h c (List.mem_of_mem_drop hback))
  · obtain rfl | hpower := List.mem_cons.1 hpower
    · rfl
    · exact isNumeral_of_mem_integer hpower

theorem isDigit_of_mem_stripZeros {n : Nat} (hc : c ∈ stripZeros (natural n)) :
    c.isDigit = true :=
  isDigit_of_mem_natural (mem_of_mem_stripZeros hc)

/-- However a real is laid out, it is written with these characters. -/
theorem isNumeral_of_mem_magnitude {layout : Layout} {mantissa : Nat} {exponent : Int}
    (hc : c ∈ layout.magnitude mantissa exponent) : isNumeral c = true := by
  unfold Layout.magnitude at hc
  dsimp only at hc
  split at hc
  · have hzero : c = '0' ∨ c = '.' := by
      split at hc
      all_goals simp at hc
      all_goals tauto
    obtain rfl | rfl := hzero
    · rfl
    · rfl
  · split at hc
    · exact isNumeral_of_mem_scientific (fun _ => isDigit_of_mem_stripZeros) hc
    · exact isNumeral_of_mem_place (fun _ => isDigit_of_mem_stripZeros) hc

end Chars

/-- Digits, a point and more. -/
theorem isReal_point {front behind : List Char} (hne : front ≠ [])
    (hfront : ∀ c ∈ front, c.isDigit = true) : IsReal (front ++ '.' :: behind) := by
  obtain ⟨d, more, rfl⟩ := List.exists_cons_of_ne_nil hne
  exact ⟨⟨'.', by simp, rfl⟩, d, more ++ '.' :: behind, rfl, .inl (hfront d (by simp))⟩

theorem isReal_place {digits : List Char} (h : ∀ c ∈ digits, c.isDigit = true) (point : Int) :
    IsReal (Layout.literal.place digits point) := by
  unfold Layout.place
  split
  · exact isReal_point (List.cons_ne_nil '0' []) (by simp)
  · next hpoint =>
    split
    · next hle =>
      have hne : digits ++ List.replicate (point.toNat - digits.length) '0' ≠ [] := by
        apply List.ne_nil_of_length_pos
        simp only [List.length_append, List.length_replicate]
        omega
      refine isReal_point hne fun c hc => ?_
      obtain hc | hc := List.mem_append.1 hc
      · exact h c hc
      · rw [List.eq_of_mem_replicate hc]
        rfl
    · next hlt =>
      have hne : digits.take point.toNat ≠ [] := by
        apply List.ne_nil_of_length_pos
        rw [List.length_take]
        omega
      exact isReal_point hne fun c hc => h c (List.mem_of_mem_take hc)

theorem isReal_scientific {digits : List Char} (h : ∀ c ∈ digits, c.isDigit = true)
    (exponent : Int) : IsReal (Layout.scientific digits exponent) := by
  unfold Layout.scientific
  cases digits with
  | nil => exact ⟨⟨'e', by simp, rfl⟩, ⟨'e', _, rfl, .inr rfl⟩⟩
  | cons d more => exact ⟨⟨'e', by simp, rfl⟩, ⟨d, _, rfl, .inl (h d (List.mem_cons_self ..))⟩⟩

theorem isReal_magnitude (mantissa : Nat) (exponent : Int) :
    IsReal (Layout.literal.magnitude mantissa exponent) := by
  unfold Layout.magnitude
  dsimp only
  split
  · exact isReal_point (List.cons_ne_nil '0' []) (by simp)
  · split
    · exact isReal_scientific (fun _ => isDigit_of_mem_stripZeros) _
    · exact isReal_place (fun _ => isDigit_of_mem_stripZeros) _

theorem toLower_of_isDigit {c : Char} (h : c.isDigit = true) : c.toLower = c := by
  have hlt : c.toNat < 128 := by
    simp only [Char.isDigit, Bool.and_eq_true, decide_eq_true_eq] at h
    have hle : c.val.toNat ≤ 57 := UInt32.le_iff_toNat_le.1 h.2
    exact Nat.lt_of_le_of_lt hle (by decide)
  have hall : ∀ n < 128, (Char.ofNat n).isDigit = true → (Char.ofNat n).toLower = Char.ofNat n := by
    decide
  have hspec := hall c.toNat hlt
  rw [Char.ofNat_toNat] at hspec
  exact hspec h

/-- No word begins like a written real. -/
theorem word?_eq_none {c : Char} (hc : isNumeral c = true) (more : List Char) :
    word? (c :: more) = none := by
  have hlower : isNumeral c.toLower = true := by
    simp only [isNumeral, Bool.or_eq_true, beq_iff_eq] at hc
    obtain ((hdigit | rfl) | rfl) | rfl := hc
    · rw [toLower_of_isDigit hdigit]
      exact isNumeral_of_isDigit hdigit
    all_goals rfl
  have hi : c.toLower ≠ 'i' := fun heq => by rw [heq] at hlower; cases hlower
  have hn : c.toLower ≠ 'n' := fun heq => by rw [heq] at hlower; cases hlower
  simp [word?, hi, hn]

/-- Without a point and an exponent, a numeral is digits. -/
theorem rest_of_isReal_eq_false {cs : List Char} (h : (Numeral.scan cs).1.isReal = false) :
    (Numeral.scan cs).2 = cs.dropWhile Char.isDigit := by
  simp only [Numeral.isReal, Bool.or_eq_false_iff, Option.isSome_eq_false_iff,
    Option.isNone_iff_eq_none, Numeral.scan] at h ⊢
  obtain ⟨hfraction, hexponent⟩ := h
  have hpoint (ds : List Char) (hnone : (Numeral.scanFraction ds).1 = none) :
      (Numeral.scanFraction ds).2 = ds := by
    fun_cases Numeral.scanFraction ds with
    | case1 => cases hnone
    | case2 => rfl
  have hmark (ds : List Char) (hnone : (Numeral.scanExponent ds).1 = none) :
      (Numeral.scanExponent ds).2 = ds := by
    rw [scanExponent_eq] at hnone ⊢
    cases hread : (mark? ds).bind fun r => signedDigits? r.2 with
    | none => rw [Option.elim_none]
    | some => simp [hread] at hnone
  rw [hmark _ hexponent, hpoint _ hfraction]

/-- A number that reads as a real with nothing behind it is a literal of this real. -/
theorem isNumber_of_readReal {negative : Bool} {body : List Char} {r : Float} (h : IsReal body)
    (hchars : ∀ c ∈ body, isNumeral c = true)
    (hread : readReal (Layout.render.signed negative body) = some r) :
    IsNumber (Layout.render.signed negative body) (.real r) := by
  obtain ⟨c, more, rfl, hc⟩ := h.head
  have hsign : isSign c = false := by
    obtain hdigit | rfl := hc
    · exact isSign_eq_false_of_isDigit hdigit
    · rfl
  have hword := word?_eq_none (hchars c (List.mem_cons_self ..)) more
  simp only [readReal, sign_signed negative hsign, hword] at hread
  split at hread
  · next hrest =>
    have hdigit : c.isDigit = true := by
      obtain hdigit | rfl := hc
      · exact hdigit
      · simp [Numeral.toReal?, Numeral.scan, Numeral.scanFraction] at hread
    have hx : ∀ d ∈ c :: more, d ≠ 'x' ∧ d ≠ 'X' := by
      intro d hd
      have hnumeral := hchars d hd
      constructor
      all_goals
        rintro rfl
        cases hnumeral
    have hreal : (Numeral.scan (c :: more)).1.isReal = true := by
      by_contra hnot
      rw [rest_of_isReal_eq_false (by simpa using hnot), List.dropWhile_eq_nil_iff] at hrest
      obtain ⟨d, hd, hmarked⟩ := h.marked
      rw [hrest d hd] at hmarked
      cases hmarked
    refine ⟨⟨negative, c, more, rfl, hdigit⟩, ?_⟩
    rw [literalScan_signed negative hdigit, unsigned?_eq_decimal? hx]
    simp only [decimal?, hreal, if_true, hread, hrest, Option.map_some]
  · cases hread

/-- A finite real reads as itself, if its digits do. -/
theorem isNumber_render {r : Float} (hfinite : (Double.of r).IsFinite)
    (hread : readReal (Layout.literal.render r) = some r) :
    IsNumber (Layout.literal.render r) (.real r) := by
  obtain ⟨negative, mantissa, exponent, hr⟩ := hfinite
  have hrender : Layout.literal.render r =
      Layout.render.signed negative (Layout.literal.magnitude mantissa exponent) := by
    rw [Layout.render, hr]
  rw [hrender] at hread ⊢
  exact isNumber_of_readReal (isReal_magnitude mantissa exponent)
    (fun _ => isNumeral_of_mem_magnitude) hread

end Token

end Reckoner
