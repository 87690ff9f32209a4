import Reckoner.Proofs.Double.Truncation
import Reckoner.Proofs.Machine.Invocations

/-!
Narrowing. A real stands for an integer where one is read, where a value is converted, as an operand
of the operators on bits, and as an argument. In all these places it is taken for the same integer:
its truncation, if that has 64 bits, and otherwise an end of the range, or zero for what is no
number. Only the narrowing of its own refuses a real, and it lets one pass that it should not.
-/

namespace Reckoner

def Operator.isBitwise : Operator → Bool
  | bitAnd | bitXor | bitOr | shiftLeft | shiftRight => true
  | _ => false

namespace Kinds

def narrows (kinds : Kinds) : Bool := kinds.integer && !kinds.boolean && !kinds.real

end Kinds

namespace Machine

open Value

variable {op : Operator} {l r : Value} {i j : Int64} {x : Float}

theorem convert_integer (v : Value) : v.convert { integer := true } = v.toInteger?.map integer := by
  cases v <;> rfl

theorem convert_real_of_narrows {kinds : Kinds} (h : kinds.narrows) (x : Float) :
    (real x).convert kinds = some (integer (Double.toInteger x)) := by
  obtain ⟨boolean, integer, real, string, absent⟩ := kinds
  simp only [Kinds.narrows, Bool.and_eq_true, Bool.not_eq_true'] at h
  obtain ⟨⟨rfl, rfl⟩, rfl⟩ := h
  cases string <;> cases absent <;> rfl

theorem promotion_of_isBitwise (h : op.isBitwise) (l r : Value) :
    promotion op l r = some { integer := true } := by
  cases op <;> first | rfl | cases h

/-- The operands are read as integers, and that is all that matters of them. -/
theorem applyBinary_of_isBitwise (h : op.isBitwise) (hl : l.toInteger? = some i)
    (hr : r.toInteger? = some j) : applyBinary op l r = integerBinary op i j := by
  simp only [applyBinary, promotion_of_isBitwise h, convert_integer, hl, hr, Option.map_some]
  rfl

theorem applyUnary_bitNot {v : Value} (hv : v.toInteger? = some i) :
    applyUnary .bitNot v = .ok (integer (~~~i)) := by
  simp only [applyUnary, convert_integer, hv, Option.map_some, Value.unary]

/-- The real is taken for the integer wherever an integer is asked for: where it is read or
converted, by the operators on bits that the machine carries out, on either side, and as an argument
of a call. -/
structure TakenFor (x : Float) (i : Int64) : Prop where
  read : (real x).toInteger? = some i
  converted : ∀ kinds : Kinds, kinds.narrows → (real x).convert kinds = some (integer i)
  complement : ∀ (s : State) (stack : Stack), IsReported stack s.failure →
    look s.env stack = .ok (real x) →
      Reads (unary .bitNot stack) s (.ok (integer (~~~i)) : Except Error Value)
        (.value (integer (~~~i)) :: stack.drop 1)
  right : ∀ (op : Operator) (s : State) (stack : Stack) (l : Value) (j : Int64), op.isBitwise →
    IsReported stack s.failure → look s.env stack = .ok (real x) →
      look s.env (stack.drop 1) = .ok l → l.toInteger? = some j →
        Reads (binary op stack) s (integerBinary op j i)
          (.ofResult (integerBinary op j i) :: stack.drop 2)
  left : ∀ (op : Operator) (s : State) (stack : Stack) (r : Value) (j : Int64), op.isBitwise →
    IsReported stack s.failure → look s.env stack = .ok r → r.toInteger? = some j →
      look s.env (stack.drop 1) = .ok (real x) →
        Reads (binary op stack) s (integerBinary op i j)
          (.ofResult (integerBinary op i j) :: stack.drop 2)
  argument : ∀ (env : Environment) (f : Function) (slots : List Slot) (args : List Value) (k : Nat)
      (slot : Slot), lookArguments env f 0 slots = .ok args → slots[k]? = some slot →
    slot.look env = .ok (real x) → (f.signature.kindsAt k).narrows → args[k]? = some (integer i)

theorem takenFor_toInteger (x : Float) : TakenFor x (Double.toInteger x) where
  read := rfl
  converted _ h := convert_real_of_narrows h x
  complement s stack hreported hlook := by
    have hresult : unaryResult s.env .bitNot stack =
        .ok (integer (~~~Double.toInteger x)) := by
      rw [unaryResult, hlook]
      exact applyUnary_bitNot (v := real x) rfl
    have hreads := reads_unary .bitNot hreported
    rwa [hresult] at hreads
  right op s stack l j hop hreported hlook hlook' hj := by
    have hresult : binaryResult s.env op stack = integerBinary op j (Double.toInteger x) := by
      rw [binaryResult, hlook, hlook']
      exact applyBinary_of_isBitwise hop hj rfl
    have hreads := reads_binary op hreported
    rwa [hresult] at hreads
  left op s stack r j hop hreported hlook hj hlook' := by
    have hresult : binaryResult s.env op stack = integerBinary op (Double.toInteger x) j := by
      rw [binaryResult, hlook, hlook']
      exact applyBinary_of_isBitwise hop rfl hj
    have hreads := reads_binary op hreported
    rwa [hresult] at hreads
  argument env f slots args k slot hargs hslot hlook hkinds := by
    obtain ⟨v, arg, hv, harg, hconvert⟩ := (convert_of_lookArguments hargs).2 k slot hslot
    cases hlook.symm.trans hv
    rw [Nat.zero_add, convertArgument, if_neg (by simp [isNull]),
      convert_real_of_narrows hkinds] at hconvert
    rw [harg, hconvert]

/-- What a real is narrowed to. If its truncation has 64 bits it is that everywhere. Otherwise only
the narrowing of its own refuses the real, and not even that if it is the next one behind the range:
everywhere else an end of the range, or zero, stands for it. -/
theorem narrowing (x : Float) :
    (∀ i, Double.TruncatesTo x i → TakenFor x i ∧ narrow x = .ok i) ∧
      ((∀ i, ¬ Double.TruncatesTo x i) → TakenFor x (Double.limit (Double.of x)) ∧
        narrow x =
          if (Double.of x).value? = some (2 ^ 63) then .ok Int64.maxValue
          else .error (.numeric .realTooBigForInteger)) := by
  constructor
  · intro i h
    exact ⟨Double.toInteger_of_truncatesTo h ▸ takenFor_toInteger x, narrow_of_truncatesTo h⟩
  · intro h
    exact ⟨Double.toInteger_of_forall_not h ▸ takenFor_toInteger x, narrow_of_forall_not h⟩

/-- A fraction below zero, and the doubles next to the range on either side. -/
theorem narrowing_at_the_ends :
    (Double.TruncatesTo (-2.75) (-2) ∧ TakenFor (-2.75) (-2) ∧ narrow (-2.75) = .ok (-2)) ∧
      ((∀ i, ¬ Double.TruncatesTo 9223372036854775808 i) ∧
        TakenFor 9223372036854775808 Int64.maxValue ∧
        narrow 9223372036854775808 = .ok Int64.maxValue) ∧
      (∀ i, ¬ Double.TruncatesTo (-9223372036854777856) i) ∧
        TakenFor (-9223372036854777856) Int64.minValue ∧
        narrow (-9223372036854777856) = .error (.numeric .realTooBigForInteger) := by
  have hsmall : Double.TruncatesTo (-2.75) (-2) := Double.truncatesTo_iff.2 (by decide)
  have hfirst : Double.of 9223372036854775808 = .finite false (2 ^ 52) 11 := by decide
  have hfirst' (i : Int64) : ¬ Double.TruncatesTo 9223372036854775808 i := by
    rw [Double.truncatesTo_iff, hfirst]
    intro h
    have hvalue : (2 ^ 63 : ℤ) = i.toInt := Option.some.inj h
    have := i.toInt_lt
    omega
  have hlast : Double.of (-9223372036854777856) = .finite true (2 ^ 52 + 1) 11 := by
    decide
  have hlast' (i : Int64) : ¬ Double.TruncatesTo (-9223372036854777856) i := by
    rw [Double.truncatesTo_iff, hlast]
    intro h
    have hvalue : (-(2 ^ 63 + 2 ^ 11) : ℤ) = i.toInt := Option.some.inj h
    have := i.le_toInt
    omega
  obtain ⟨htaken, hnarrow⟩ := (narrowing 9223372036854775808).2 hfirst'
  obtain ⟨htaken', hnarrow'⟩ := (narrowing (-9223372036854777856)).2 hlast'
  have hvalue : (Double.of 9223372036854775808).value? = some (2 ^ 63) := by
    rw [hfirst, Double.value?, Double.signed_limit, if_neg Bool.false_ne_true]
  have hvalue' : (Double.of (-9223372036854777856)).value? ≠ some (2 ^ 63) := by
    rw [hlast, Double.value?, Ne, Option.some.injEq]
    norm_num [Double.signed]
  rw [if_pos hvalue] at hnarrow
  rw [if_neg hvalue'] at hnarrow'
  rw [hfirst] at htaken
  rw [hlast] at htaken'
  exact ⟨⟨hsmall, (narrowing (-2.75)).1 (-2) hsmall⟩, ⟨hfirst', htaken, hnarrow⟩, hlast', htaken',
    hnarrow'⟩

end Machine

end Reckoner
