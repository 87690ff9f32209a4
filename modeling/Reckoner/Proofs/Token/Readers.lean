import Reckoner.Proofs.Token.Lexeme
import Reckoner.Token.Scan

/-!
Numbers, operators and strings are local: where a text may be replaced, they are read as before.
-/

namespace Reckoner.Token

open Text Decimal

theorem isDigit_eq_false_of_isBreak (c : Char) (h : isBreak c = true) : c.isDigit = false :=
  eq_false_of_isBreak rfl c h

theorem isHex_eq_false_of_isBreak (c : Char) (h : isBreak c = true) : Escape.isHex c = false :=
  eq_false_of_isBreak rfl c h

theorem isPart_eq_false_of_isBreak (c : Char) (h : isBreak c = true) : Name.isPart c = false :=
  eq_false_of_isBreak rfl c h

theorem isStart_eq_false_of_isBreak (c : Char) (h : isBreak c = true) : Name.isStart c = false :=
  eq_false_of_isBreak rfl c h

def isSign (c : Char) : Bool := c == '+' || c == '-'

theorem isSign_eq_false_of_isBreak (c : Char) (h : isBreak c = true) : isSign c = false :=
  eq_false_of_isBreak rfl c h

theorem isBreak_eq_false {p : Char → Bool} (hp : ∀ c, isBreak c = true → p c = false) {c : Char}
    (h : p c = true) : isBreak c = false := by
  by_contra hbreak
  rw [hp c (by simpa using hbreak)] at h
  cases h

theorem isLocal_sign : IsLocal fun cs => some (sign cs) := by
  refine IsLocal.optional (p := isSign) (f := fun c => c == some '-') isSign_eq_false_of_isBreak
    ?_ ?_
  · intro c cs hc
    simp only [isSign, Bool.or_eq_true, beq_iff_eq] at hc
    obtain rfl | rfl := hc <;> rfl
  · intro cs hcs
    fun_cases sign cs with
    | case1 cs => simpa [isSign] using hcs _ rfl
    | case2 cs => simpa [isSign] using hcs _ rfl
    | case3 => rfl

def point : List Char → Bool × List Char
  | '.' :: cs => (true, cs)
  | cs => (false, cs)

theorem isLocal_point : IsLocal fun cs => some (point cs) := by
  refine IsLocal.optional (p := (· == '.')) (f := Option.isSome)
    (eq_false_of_isBreak rfl) ?_ ?_
  · intro c cs hc
    obtain rfl := eq_of_beq hc
    rfl
  · intro cs hcs
    fun_cases point cs with
    | case1 cs => simpa using hcs _ rfl
    | case2 => rfl

theorem scanFraction_eq (cs : List Char) : Numeral.scanFraction cs =
    if (point cs).1 then
      (some ((point cs).2.takeWhile Char.isDigit), (point cs).2.dropWhile Char.isDigit)
    else (none, (point cs).2) := by
  fun_cases point cs with
  | case1 cs => rfl
  | case2 cs hne =>
    rw [Numeral.scanFraction.eq_2 cs hne]
    rfl

theorem isLocal_digits :
    IsLocal fun cs => some (cs.takeWhile Char.isDigit, cs.dropWhile Char.isDigit) :=
  IsLocal.takeWhile isDigit_eq_false_of_isBreak

theorem isLocal_scanFraction : IsLocal fun cs => some (Numeral.scanFraction cs) := by
  simp only [scanFraction_eq]
  have hbehind (isPoint : Bool) : IsLocal fun cs => some (if isPoint then
      (some (cs.takeWhile Char.isDigit), cs.dropWhile Char.isDigit) else (none, cs)) := by
    cases isPoint with
    | true => exact isLocal_digits.filterMap (some ∘ some)
    | false => exact IsLocal.pure none
  exact isLocal_point.bind hbehind

def signedDigits? (cs : List Char) : Option (Int × List Char) :=
  let digits := (sign cs).2.takeWhile Char.isDigit
  if digits = [] then none
  else
    let n : Int := ofDigits digits
    some (if (sign cs).1 then -n else n, (sign cs).2.dropWhile Char.isDigit)

theorem isLocal_signedDigits? : IsLocal signedDigits? := by
  have h := isLocal_sign.bind fun negative => isLocal_digits.filterMap fun digits =>
    if digits = [] then none
    else some (if negative then -(ofDigits digits : Int) else ofDigits digits)
  convert h using 2 with cs
  simp only [signedDigits?, Option.bind_some]
  split <;> rfl

def mark? : List Char → Option (Unit × List Char)
  | [] => none
  | c :: cs => if c = 'e' ∨ c = 'E' then some ((), cs) else none

theorem isLocal_mark? : IsLocal mark? := by
  intro cs a rest hread
  cases cs with
  | nil => cases hread
  | cons c cs =>
    by_cases hc : c = 'e' ∨ c = 'E'
    · simp only [mark?, hc, if_true, Option.some.injEq, Prod.mk.injEq] at hread
      obtain ⟨-, rfl⟩ := hread
      exact ⟨[c], rfl, fun tail _ => by simp [mark?, hc]⟩
    · simp [mark?, hc] at hread

theorem scanExponent_eq (cs : List Char) : Numeral.scanExponent cs =
    ((mark? cs).bind fun r => signedDigits? r.2).elim (none, cs) fun r => (some r.1, r.2) := by
  fun_cases Numeral.scanExponent cs with
  | case1 => rfl
  | case2 c rest hc digits hnil =>
    simp only [mark?, hc, if_true, Option.bind_some, signedDigits?]
    rw [if_pos hnil, Option.elim_none]
  | case3 c rest hc digits hne n =>
    simp only [mark?, hc, if_true, Option.bind_some, signedDigits?]
    rw [if_neg hne, Option.elim_some]
  | case4 c rest hc => simp [mark?, hc]

theorem isSome_signedDigits?_iff {cs : List Char} : (signedDigits? cs).isSome = true ↔
    ∃ d more, (sign cs).2 = d :: more ∧ d.isDigit = true := by
  simp only [signedDigits?]
  cases hbody : (sign cs).2 with
  | nil => simp
  | cons d more =>
    cases hd : d.isDigit with
    | true => simp [hd]
    | false => simp [hd]

theorem sign_of_isDigit {d : Char} (hd : d.isDigit = true) (cs : List Char) :
    sign (d :: cs) = (false, d :: cs) := by
  rw [sign.eq_3] <;> rintro ds heq <;> cases heq <;> cases hd

theorem isOpen_signedDigits? : IsOpen fun cs => (signedDigits? cs).isSome := by
  intro cs hcs
  obtain ⟨d, more, hbody, hd⟩ := isSome_signedDigits?_iff.1 hcs
  have hbreak := isBreak_eq_false isDigit_eq_false_of_isBreak hd
  fun_cases sign cs with
  | case1 cs =>
    obtain rfl : cs = d :: more := hbody
    exact ⟨['-', d], ⟨more, rfl⟩, by simpa using ⟨by decide, hbreak⟩, fun tail =>
      isSome_signedDigits?_iff.2 ⟨d, tail, rfl, hd⟩⟩
  | case2 cs =>
    obtain rfl : cs = d :: more := hbody
    exact ⟨['+', d], ⟨more, rfl⟩, by simpa using ⟨by decide, hbreak⟩, fun tail =>
      isSome_signedDigits?_iff.2 ⟨d, tail, rfl, hd⟩⟩
  | case3 cs hminus hplus =>
    obtain rfl : cs = d :: more := by rwa [sign.eq_3 cs hminus hplus] at hbody
    exact ⟨[d], ⟨more, rfl⟩, by simpa using hbreak, fun tail =>
      isSome_signedDigits?_iff.2 ⟨d, tail, by simp [sign_of_isDigit hd], hd⟩⟩

theorem isOpen_exponent? :
    IsOpen fun cs => ((mark? cs).bind fun r => signedDigits? r.2).isSome := by
  intro cs hcs
  cases cs with
  | nil => cases hcs
  | cons c cs =>
    by_cases hc : c = 'e' ∨ c = 'E'
    · simp only [mark?, hc, if_true, Option.bind_some] at hcs
      obtain ⟨w, hw, hbreak, hmore⟩ := isOpen_signedDigits? hcs
      have hcbreak : isBreak c = false := by obtain rfl | rfl := hc <;> rfl
      refine ⟨c :: w, List.cons_prefix_cons.2 ⟨rfl, hw⟩, by simpa using ⟨hcbreak, hbreak⟩, ?_⟩
      intro tail
      simpa [mark?, hc] using hmore tail
    · simp [mark?, hc] at hcs

theorem isLocal_scanExponent : IsLocal fun cs => some (Numeral.scanExponent cs) := by
  have h := IsLocal.elim (isLocal_mark?.bind fun _ => isLocal_signedDigits?) isOpen_exponent?
    (fun e => IsLocal.pure (some e)) (IsLocal.pure none)
  convert h using 2 with cs
  rw [scanExponent_eq]
  cases (mark? cs).bind fun r => signedDigits? r.2 <;> rfl

theorem isLocal_numeral : IsLocal fun cs => some (Numeral.scan cs) := by
  have hexponent := fun digits fraction => isLocal_scanExponent.filterMap fun exponent =>
    some (Numeral.mk digits fraction exponent)
  have hfraction := fun digits => isLocal_scanFraction.bind (hexponent digits)
  exact isLocal_digits.bind hfraction

theorem isSuffix_eq_false_of_isBreak (c : Char) (h : isBreak c = true) :
    Literal.isSuffix c = false :=
  eq_false_of_isBreak rfl c h

theorem isLocal_afterSuffix : IsLocal fun cs => some ((), Literal.afterSuffix cs) := by
  refine IsLocal.optional (p := Literal.isSuffix) (f := fun _ => ()) isSuffix_eq_false_of_isBreak
    (fun c cs hc => by simp [Literal.afterSuffix, hc]) fun cs hcs => ?_
  cases cs with
  | nil => rfl
  | cons c cs => simp [Literal.afterSuffix, hcs c rfl]

theorem hexDigits?_eq_some {cs digits rest : List Char} :
    Literal.hexDigits? cs = some (digits, rest) ↔
      ∃ x c more, cs = '0' :: x :: c :: more ∧ ((x = 'x' ∨ x = 'X') ∧ Escape.isHex c = true) ∧
        digits = (c :: more).takeWhile Escape.isHex ∧
        rest = (c :: more).dropWhile Escape.isHex := by
  constructor
  · intro h
    fun_cases Literal.hexDigits? cs with
    | case1 x c more hx =>
      rw [Literal.hexDigits?, if_pos hx, Option.some.injEq, Prod.mk.injEq] at h
      exact ⟨x, c, more, rfl, hx, h.1.symm, h.2.symm⟩
    | case2 x c more hx => simp [Literal.hexDigits?, hx] at h
    | case3 => simp_all [Literal.hexDigits?]
  · rintro ⟨x, c, more, rfl, hx, rfl, rfl⟩
    rw [Literal.hexDigits?, if_pos hx]

theorem isLocal_hexDigits? : IsLocal Literal.hexDigits? := by
  intro cs digits rest hread
  obtain ⟨x, c, more, rfl, hx, rfl, rfl⟩ := hexDigits?_eq_some.1 hread
  refine ⟨'0' :: x :: (c :: more).takeWhile Escape.isHex, ?_, fun tail htail => ?_⟩
  · simp only [List.cons_append, List.takeWhile_append_dropWhile]
  · obtain ⟨h₁, h₂⟩ := MayReplace.takeWhile_append isHex_eq_false_of_isBreak htail
    rw [List.takeWhile_cons_of_pos hx.2, List.cons_append] at h₁ h₂
    rw [List.takeWhile_cons_of_pos hx.2]
    exact hexDigits?_eq_some.2 ⟨x, c, _, rfl, hx, h₁.symm, h₂.symm⟩

theorem isOpen_hexDigits? : IsOpen fun cs => (Literal.hexDigits? cs).isSome := by
  intro cs hcs
  obtain ⟨⟨digits, rest⟩, hread⟩ := Option.isSome_iff_exists.1 hcs
  obtain ⟨x, c, more, rfl, hx, -, -⟩ := hexDigits?_eq_some.1 hread
  have hxbreak : isBreak x = false := by obtain rfl | rfl := hx.1 <;> rfl
  have hcbreak := isBreak_eq_false isHex_eq_false_of_isBreak hx.2
  refine ⟨['0', x, c], ⟨more, rfl⟩, by simp [hxbreak, hcbreak, show isBreak '0' = false from rfl],
    fun tail => ?_⟩
  exact Option.isSome_iff_exists.2 ⟨_, hexDigits?_eq_some.2 ⟨x, c, tail, rfl, hx, rfl, rfl⟩⟩

def decimal? (negative : Bool) (cs : List Char) : Option (Literal × List Char) :=
  let numeral := (Numeral.scan cs).1
  let rest := (Numeral.scan cs).2
  if numeral.isReal then (numeral.toReal? negative).map fun r => (.real r, rest)
  else if numeral.whole = [] then none
  else some (Literal.ofDigits negative numeral.whole, Literal.afterSuffix rest)

def unsigned? (negative : Bool) (cs : List Char) : Option (Literal × List Char) :=
  (Literal.hexDigits? cs).elim (decimal? negative cs) fun r =>
    (Literal.ofHex? negative r.1).map (·, r.2)

theorem literalScan_eq (cs : List Char) :
    Literal.scan cs = (some (sign cs)).bind fun r => unsigned? r.1 r.2 := by
  simp only [Literal.scan, unsigned?, decimal?, Option.bind_some]
  cases Literal.hexDigits? (sign cs).2 <;> rfl

theorem isLocal_decimal? (negative : Bool) : IsLocal (decimal? negative) := by
  have hrest (n : Numeral) : IsLocal fun cs =>
      if n.isReal then (n.toReal? negative).map fun r => (Literal.real r, cs)
      else if n.whole = [] then none
      else some (Literal.ofDigits negative n.whole, Literal.afterSuffix cs) := by
    by_cases hreal : n.isReal = true
    · simp only [hreal, if_true]
      have h := (IsLocal.pure ()).filterMap fun _ => (n.toReal? negative).map Literal.real
      convert h using 2 with cs
      cases n.toReal? negative <;> rfl
    · by_cases hwhole : n.whole = []
      · simp only [hreal, hwhole, if_true]
        exact fun cs a rest hread => by cases hread
      · simp only [hreal, hwhole, if_false]
        exact isLocal_afterSuffix.filterMap fun _ => some (Literal.ofDigits negative n.whole)
  exact isLocal_numeral.bind hrest

theorem isLocal_unsigned? (negative : Bool) : IsLocal (unsigned? negative) :=
  isLocal_hexDigits?.elim isOpen_hexDigits?
    (fun digits => (IsLocal.pure ()).filterMap fun _ => Literal.ofHex? negative digits)
    (isLocal_decimal? negative)

theorem isLocal_literal : IsLocal Literal.scan := by
  have h := isLocal_sign.bind isLocal_unsigned?
  simpa only [← literalScan_eq] using h

theorem isOpen_starts : IsOpen Literal.starts := by
  intro cs hcs
  fun_cases Literal.starts cs with
  | case1 c more =>
    have hbreak := isBreak_eq_false isDigit_eq_false_of_isBreak (c := c) hcs
    exact ⟨['.', c], ⟨more, rfl⟩, by simpa using ⟨by decide, hbreak⟩, fun _ => hcs⟩
  | case2 c more hne =>
    have hc : c.isDigit = true := by rwa [Literal.starts.eq_2 c more hne] at hcs
    have hpoint : c ≠ '.' := by
      rintro rfl
      cases hc
    refine ⟨[c], ⟨more, rfl⟩, by simpa using isBreak_eq_false isDigit_eq_false_of_isBreak hc, ?_⟩
    intro tail
    simp [Literal.starts, hpoint, hc]
  | case3 => cases hcs

theorem isOpen_startsSigned : IsOpen Literal.startsSigned := by
  intro cs hcs
  fun_cases Literal.startsSigned cs with
  | case1 s c more =>
    obtain ⟨hs, hc⟩ : isSign s = true ∧ c.isDigit = true := by
      simpa [Literal.startsSigned, isSign] using hcs
    have hsbreak := isBreak_eq_false isSign_eq_false_of_isBreak hs
    have hcbreak := isBreak_eq_false isDigit_eq_false_of_isBreak hc
    exact ⟨[s, c], ⟨more, rfl⟩, by simpa using ⟨hsbreak, hcbreak⟩, fun _ => hcs⟩
  | case2 => simp_all [Literal.startsSigned]

theorem rest?_eq_some {expected cs rest : List Char} :
    Operator.rest? expected cs = some rest ↔ cs = expected ++ rest := by
  refine ⟨Operator.eq_append_of_rest?, ?_⟩
  rintro rfl
  induction expected with
  | nil => rfl
  | cons e es ih => rw [List.cons_append, Operator.rest?, if_pos rfl, ih]

/-- An operator of several characters has no break among them. -/
theorem isBreak_tail_chars (op : Operator) : ∀ c ∈ op.chars.tail, isBreak c = false := by
  have hall : op.chars.tail.all fun c => !isBreak c := by cases op <;> rfl
  simpa using hall

theorem rest?_eq_none {expected cs : List Char} :
    Operator.rest? expected cs = none ↔ ¬ expected <+: cs := by
  rw [← Option.not_isSome_iff_eq_none, Option.isSome_iff_exists, not_iff_not]
  simp only [rest?_eq_some]
  exact ⟨fun ⟨rest, h⟩ => ⟨rest, h.symm⟩, fun ⟨rest, h⟩ => ⟨rest, h.symm⟩⟩

/-- An operator that begins within a lexeme is at the front of the first text as well. -/
theorem chars_prefix_of_mayReplace {op : Operator} {lexeme tail rest : List Char}
    (hne : lexeme ≠ []) (hreplace : MayReplace tail rest) (h : op.chars <+: lexeme ++ tail) :
    op.chars <+: lexeme ++ rest := by
  obtain hle | ⟨v, hv, hprefix⟩ := prefix_append_cases h
  · exact hle.trans (List.prefix_append lexeme rest)
  · have hbreak : ∀ c ∈ v, isBreak c = false := by
      intro c hc
      apply isBreak_tail_chars op
      rw [hv, List.tail_append_of_ne_nil hne]
      exact List.mem_append_right _ hc
    rw [hv]
    exact (List.prefix_append_right_inj lexeme).2 (hreplace v hprefix hbreak)

theorem isLocal_operator : IsLocal Operator.scan? := by
  intro cs op rest hread
  obtain ⟨before, found, after, hlist, hfound, hbefore⟩ := List.findSome?_eq_some_iff.1 hread
  obtain ⟨_, hrest, heq⟩ := Option.map_eq_some_iff.1 hfound
  obtain ⟨rfl, rfl⟩ := Prod.mk.inj heq
  obtain rfl := rest?_eq_some.1 hrest
  refine ⟨found.chars, rfl, fun tail htail => ?_⟩
  refine List.findSome?_eq_some_iff.2 ⟨before, found, after, hlist, ?_, fun other hother => ?_⟩
  · rw [rest?_eq_some.2 rfl, Option.map_some]
  · have hnone := Option.map_eq_none_iff.1 (hbefore other hother)
    rw [rest?_eq_none] at hnone
    rw [Option.map_eq_none_iff, rest?_eq_none]
    exact fun h => hnone (chars_prefix_of_mayReplace found.chars_ne_nil htail h)

theorem operatorScan_eq_none {cs : List Char} :
    Operator.scan? cs = none ↔ ∀ op ∈ Operator.scannable, ¬ op.chars <+: cs := by
  simp only [Operator.scan?, List.findSome?_eq_none_iff, Option.map_eq_none_iff, rest?_eq_none]

theorem operatorScan_eq_none_of_mayReplace {lexeme tail rest : List Char} (hne : lexeme ≠ [])
    (hreplace : MayReplace tail rest) (h : Operator.scan? (lexeme ++ rest) = none) :
    Operator.scan? (lexeme ++ tail) = none :=
  operatorScan_eq_none.2 fun op hop hprefix =>
    operatorScan_eq_none.1 h op hop (chars_prefix_of_mayReplace hne hreplace hprefix)

/-- No operator begins with what may be part of a name. -/
theorem operatorScan_of_isPart {c : Char} (hc : Name.isPart c = true) (cs : List Char) :
    Operator.scan? (c :: cs) = none := by
  refine operatorScan_eq_none.2 fun op _ ⟨more, hmore⟩ => ?_
  have hhead : op.chars.head? = some c := by
    rw [← List.head?_append_of_ne_nil _ op.chars_ne_nil, hmore]
    rfl
  cases op <;> cases hhead <;> cases hc

theorem isPart_of_isDigit {c : Char} (h : c.isDigit = true) : Name.isPart c = true := by
  simp [Name.isPart, Char.isAlphanum, h]

theorem operatorScan_of_isDigit {d : Char} (hd : d.isDigit = true) (cs : List Char) :
    Operator.scan? (d :: cs) = none := operatorScan_of_isPart (isPart_of_isDigit hd) cs

/-- In front of a digit, a sign is the operator that it is scanned as. -/
theorem exists_operatorScan_sign {s d : Char} (hs : isSign s = true) (hd : d.isDigit = true)
    (cs : List Char) :
    ∃ op, (op = .plus ∨ op = .minus) ∧ Operator.scan? (s :: d :: cs) = some (op, d :: cs) := by
  have hassign : '=' ≠ d := by rintro rfl; cases hd
  have hplus : '+' ≠ d := by rintro rfl; cases hd
  have hminus : '-' ≠ d := by rintro rfl; cases hd
  simp only [isSign, Bool.or_eq_true, beq_iff_eq] at hs
  obtain rfl | rfl := hs
  · refine ⟨.plus, .inl rfl, ?_⟩
    simp [Operator.scan?, Operator.scannable, Operator.chars, Operator.rest?, hassign, hplus]
  · refine ⟨.minus, .inr rfl, ?_⟩
    simp [Operator.scan?, Operator.scannable, Operator.chars, Operator.rest?, hassign, hminus]

theorem isGap_eq_false {c : Char} (h : isBreak c = false) : isGap c = false := by
  by_contra hgap
  simp only [isGap, Bool.or_eq_true, beq_iff_eq, Bool.not_eq_false] at hgap
  obtain (((rfl | rfl) | rfl) | rfl) | rfl := hgap <;> cases h

theorem isGap_eq_false_of_isDigit {c : Char} (hc : c.isDigit = true) : isGap c = false :=
  isGap_eq_false (isBreak_eq_false isDigit_eq_false_of_isBreak hc)

theorem isGap_eq_false_of_isSign {c : Char} (hc : isSign c = true) : isGap c = false :=
  isGap_eq_false (isBreak_eq_false isSign_eq_false_of_isBreak hc)

theorem isSign_eq_false_of_isDigit {d : Char} (hd : d.isDigit = true) : isSign d = false := by
  by_contra hsign
  simp only [isSign, Bool.or_eq_true, beq_iff_eq, Bool.not_eq_false] at hsign
  obtain rfl | rfl := hsign <;> cases hd

theorem startsSigned_eq_true {cs : List Char} (h : Literal.startsSigned cs = true) :
    ∃ s d more, cs = s :: d :: more ∧ isSign s = true ∧ d.isDigit = true := by
  match cs with
  | s :: d :: more =>
    exact ⟨s, d, more, rfl, by simpa [Literal.startsSigned, isSign] using h⟩

theorem startsSigned_of_isDigit {d : Char} (hd : d.isDigit = true) (cs : List Char) :
    Literal.startsSigned (d :: cs) = false := by
  by_contra hsigned
  obtain ⟨s, _, _, heq, hs, -⟩ := startsSigned_eq_true (by simpa using hsigned)
  obtain ⟨rfl, -⟩ := List.cons.inj heq
  rw [isSign_eq_false_of_isDigit hd] at hs
  cases hs

theorem starts_of_isDigit {d : Char} (hd : d.isDigit = true) (cs : List Char) :
    Literal.starts (d :: cs) = true := by
  have hpoint : d ≠ '.' := by rintro rfl; cases hd
  simpa [Literal.starts, hpoint] using hd

theorem startsSigned_eq_false {cs : List Char} (h : Operator.scan? cs = none) :
    Literal.startsSigned cs = false := by
  by_contra hsigned
  obtain ⟨s, d, more, rfl, hs, hd⟩ := startsSigned_eq_true (by simpa using hsigned)
  obtain ⟨op, -, hread⟩ := exists_operatorScan_sign hs hd more
  rw [hread] at h
  cases h

/-- The sign has no part in where a number ends. -/
theorem map_unsigned? (negative : Bool) (cs : List Char) :
    (unsigned? negative cs).map Prod.snd = (unsigned? false cs).map Prod.snd := by
  simp only [unsigned?]
  cases Literal.hexDigits? cs with
  | some r =>
    simp only [Option.elim_some, Literal.ofHex?]
    split <;> rfl
  | none =>
    simp only [Option.elim_none, decimal?, Numeral.toReal?]
    split
    · split <;> rfl
    · split <;> rfl

theorem map_literalScan_sign {s d : Char} (hs : isSign s = true) (hd : d.isDigit = true)
    (cs : List Char) :
    (Literal.scan (s :: d :: cs)).map Prod.snd = (Literal.scan (d :: cs)).map Prod.snd := by
  simp only [literalScan_eq, Option.bind_some, sign_of_isDigit hd]
  rw [← map_unsigned? (sign (s :: d :: cs)).1]
  simp only [isSign, Bool.or_eq_true, beq_iff_eq] at hs
  obtain rfl | rfl := hs <;> rfl

theorem quoted?_cons {quote c : Char} (hc : c ≠ '\\') (cs : List Char) :
    quoted? quote (c :: cs) =
      if c = quote then some ([], cs)
      else (quoted? quote cs).map fun r => (c :: r.1, r.2) := by
  rw [quoted?.eq_3 quote c cs fun _ _ hc' _ => hc hc']

/-- In front of what reads as the rest of a string, a backslash protects a character. -/
theorem ne_escape_of_quoted? {quote c : Char} {cs : List Char} {r : List Char × List Char}
    (hescape : ∀ d more, c = '\\' → cs = d :: more → False) (h : quoted? quote cs = some r) :
    c ≠ '\\' := by
  intro hc
  cases cs with
  | nil => cases h
  | cons d more => exact hescape d more hc rfl

/-- A string ends with its quote, so it does not depend on what follows. -/
theorem exists_of_quoted? {quote : Char} (hquote : quote ≠ '\\') {cs body rest : List Char}
    (h : quoted? quote cs = some (body, rest)) :
    ∃ lexeme, cs = lexeme ++ rest ∧ ∀ tail, quoted? quote (lexeme ++ tail) = some (body, tail) := by
  fun_induction quoted? quote cs generalizing body rest with
  | case1 => cases h
  | case2 c cs ih =>
    obtain ⟨⟨inner, _⟩, hinner, heq⟩ := Option.map_eq_some_iff.1 h
    obtain ⟨rfl, rfl⟩ := Prod.mk.inj heq
    obtain ⟨lexeme, rfl, hreplace⟩ := ih hinner
    exact ⟨'\\' :: c :: lexeme, rfl, fun tail => by simp [quoted?, hreplace tail]⟩
  | case3 cs =>
    obtain ⟨rfl, rfl⟩ := Prod.mk.inj (Option.some.inj h)
    exact ⟨[quote], rfl, fun tail => by simp [quoted?_cons hquote]⟩
  | case4 c cs hescape hne ih =>
    obtain ⟨⟨inner, left⟩, hinner, heq⟩ := Option.map_eq_some_iff.1 h
    obtain ⟨rfl, rfl⟩ := Prod.mk.inj heq
    obtain ⟨lexeme, rfl, hreplace⟩ := ih hinner
    have hc := ne_escape_of_quoted? hescape hinner
    exact ⟨c :: lexeme, rfl, fun tail => by simp [quoted?_cons hc, hne, hreplace tail]⟩

end Reckoner.Token
