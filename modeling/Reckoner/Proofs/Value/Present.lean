import Mathlib
import Reckoner.Machine.Run

/-!
No operator gives an absent value, whatever its operands are, and reading a value as another kind
gives a value of an accepted kind.
-/

namespace Reckoner

namespace Value

theorem map_ne_null {α : Type} {r : Except Error α} {make : α → Value}
    (h : ∀ a, make a ≠ .null) : r.map make ≠ .ok .null := by
  cases r with
  | error e => nofun
  | ok a => exact fun heq => h a (Except.ok.inj heq)

theorem unary_ne_null (op : Operator) (v : Value) : v.unary op ≠ .ok .null := by
  cases v <;> unfold unary <;> dsimp only <;> try split
  all_goals nofun

theorem booleanBinary_ne_null (op : Operator) (l r : Bool) : booleanBinary op l r ≠ .ok .null := by
  unfold booleanBinary
  split <;> nofun

theorem shift_ne_null (l r : Int64) (shifted : Int64 → Int64 → Int64) :
    shift l r shifted ≠ .ok .null := by
  unfold shift
  split <;> nofun

theorem integerBinary_ne_null (op : Operator) (l r : Int64) :
    integerBinary op l r ≠ .ok .null := by
  unfold integerBinary
  split <;> first
    | exact map_ne_null fun _ => nofun
    | exact shift_ne_null _ _ _
    | (split <;> nofun)
    | nofun

theorem realBinary_ne_null (op : Operator) (l r : Float) : realBinary op l r ≠ .ok .null := by
  unfold realBinary
  split <;> first
    | exact map_ne_null fun _ => nofun
    | nofun

theorem stringBinary_ne_null (op : Operator) (l r : String) : stringBinary op l r ≠ .ok .null := by
  unfold stringBinary
  split <;> nofun

theorem binary_ne_null (op : Operator) (l r : Value) : binary op l r ≠ .ok .null := by
  unfold binary
  split <;> try split
  · exact booleanBinary_ne_null _ _ _
  · rintro ⟨⟩
  · exact integerBinary_ne_null _ _ _
  · rintro ⟨⟩
  · exact realBinary_ne_null _ _ _
  · rintro ⟨⟩
  · exact stringBinary_ne_null _ _ _
  · rintro ⟨⟩
  · rintro ⟨⟩

theorem meets_null {kinds : Kinds} : kinds.meets null.kind ↔ kinds.absent := by
  simp [Kinds.meets, Kinds.inter, Kinds.empty, kind]

/-- A value is converted to an accepted kind. -/
theorem meets_of_convert {v w : Value} {kinds : Kinds} (h : v.convert kinds = some w) :
    kinds.meets w.kind := by
  unfold convert at h
  split at h
  · next hmeets =>
    cases h
    exact hmeets
  · split at h
    · next hboolean =>
      obtain ⟨b, -, rfl⟩ := Option.map_eq_some_iff.1 h
      simp [Kinds.meets, Kinds.inter, Kinds.empty, kind, hboolean]
    · split at h
      · next hinteger =>
        obtain ⟨i, -, rfl⟩ := Option.map_eq_some_iff.1 h
        simp [Kinds.meets, Kinds.inter, Kinds.empty, kind, hinteger]
      · split at h
        · next hreal =>
          obtain ⟨r, -, rfl⟩ := Option.map_eq_some_iff.1 h
          simp [Kinds.meets, Kinds.inter, Kinds.empty, kind, hreal]
        · split at h
          · next hstring =>
            obtain ⟨t, -, rfl⟩ := Option.map_eq_some_iff.1 h
            simp [Kinds.meets, Kinds.inter, Kinds.empty, kind, hstring]
          · cases h

/-- What is not absent is read as a value. -/
theorem ne_null_of_convert {v v' : Value} {kinds : Kinds} (hv : v ≠ .null)
    (h : v.convert kinds = some v') : v' ≠ .null := by
  unfold convert at h
  split at h
  · cases h
    exact hv
  · repeat' split at h
    all_goals first
      | (obtain ⟨_, -, rfl⟩ := Option.map_eq_some_iff.1 h
         nofun)
      | cases h

end Value

namespace Machine

theorem applyUnary_ne_null (op : Operator) (v : Value) : applyUnary op v ≠ .ok .null := by
  unfold applyUnary
  dsimp only
  split
  · nofun
  · exact Value.unary_ne_null _ _

theorem applyBinary_ne_null (op : Operator) (l r : Value) : applyBinary op l r ≠ .ok .null := by
  unfold applyBinary
  split
  · exact Value.binary_ne_null _ _ _
  · split
    · exact Value.binary_ne_null _ _ _
    · nofun

/-- A value is passed on as a value. -/
theorem ne_null_of_convertArgument {v arg : Value} {kinds : Kinds} (hv : v ≠ .null)
    (h : convertArgument v kinds = some arg) : arg ≠ .null := by
  unfold convertArgument at h
  split at h
  · cases h
    exact hv
  · exact Value.ne_null_of_convert hv h

end Machine

end Reckoner
