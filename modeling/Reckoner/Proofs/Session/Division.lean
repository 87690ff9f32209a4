import Reckoner.Proofs.Session.Suffix
import Reckoner.Proofs.Value.Division

/-!
Quotients of two variables. An operation on variables is evaluated to what the operator gives for
their values, and changes nothing.
-/

namespace Reckoner.Session

open Machine Program

variable {s : Session} {text a b : String} {l r : Value}

/-- The two variables are read, and nothing is written. -/
theorem exists_run_operation {env : Environment} (ha : env.scope.get? a = some l)
    (hb : env.scope.get? b = some r) {op : Operator} (htwo : op.takesTwo) (fuel depth : Nat)
    (journal : List Event) :
    ∃ execution journal',
      run (fuel + 1) depth [.name a, .name b, .operator op] env journal =
        some (execution, env, journal') ∧
      execution.last = applyBinary op l r := by
  obtain ⟨journal', hperform⟩ := @exists_perform_binary (run fuel) depth
    ⟨env, journal, FirstError.none⟩ _ htwo [.name b, .name a] (by simp [IsReported]) []
  have hresult : binaryResult env op [.name b, .name a] = applyBinary op l r := by
    simp only [binaryResult, look, List.drop_one, List.tail_cons, Slot.look, ha, hb]
    rfl
  rw [hresult, perform_nil, ← perform_name, ← perform_name] at hperform
  obtain ⟨execution, hrun, hlast⟩ := exists_run_of_perform hperform
  exact ⟨execution, journal', hrun, hlast⟩

theorem exists_evaluate_operation {rule : Rule} {op : Operator} {p p' p'' : Nat}
    (hrule : isInfix rule) (htwo : op.takesTwo)
    (hread : (Tree.node rule [.leaf ⟨.name a, p⟩, .leaf ⟨.operator op, p'⟩,
      .leaf ⟨.name b, p''⟩]).IsReadFrom text)
    (ha : s.value? a = some l) (hb : s.value? b = some r) :
    ∃ after, (∀ fuel, 1 ≤ fuel → s.evaluate fuel text = some (applyBinary op l r, after)) ∧
      after.env = s.env := by
  have hname (name : String) (position : Nat) :
      Emits s.env.registry (.leaf ⟨.name name, position⟩) [.name name] := .leaf rfl
  have hemits : Emits s.env.registry (.node rule [.leaf ⟨.name a, p⟩, .leaf ⟨.operator op, p'⟩,
      .leaf ⟨.name b, p''⟩]) ([.name a] ++ [.name b] ++ [.operator op]) :=
    .operation hrule rfl htwo (hname a p) (hname b p'') rfl rfl
  obtain ⟨execution, journal, hrun, hlast⟩ := exists_run_operation ha hb htwo 0 0 []
  obtain ⟨after, hexecute, henv⟩ := exists_execute hrun
  refine ⟨after, fun fuel hle => ?_, henv⟩
  rw [evaluate_of_emits hread hemits, ← hlast]
  exact hexecute fuel hle

/-- An integer divided by what reads as an integer, both in variables. The quotient by anything
that does not read as zero is truncated, and wraps around; the quotient by the integer zero is a
real without a finite value; and what only reads as zero, a boolean or a string, is refused. Such
quotients are all that is refused for a zero divisor, other than remainders. -/
theorem evaluate_quotient {i j : Int64} {v : Value} {p p' p'' : Nat}
    (hread : (Tree.node .multiplicative [.leaf ⟨.name a, p⟩, .leaf ⟨.operator .divide, p'⟩,
      .leaf ⟨.name b, p''⟩]).IsReadFrom text)
    (ha : s.value? a = some (.integer i)) (hb : s.value? b = some v) (hreal : v.isReal = false)
    (hj : v.toInteger? = some j) :
    ∃ result after, (∀ fuel, 1 ≤ fuel → s.evaluate fuel text = some (result, after)) ∧
      after.env = s.env ∧
      (j ≠ 0 → result = .ok (.integer (Int64.ofInt (i.toInt.tdiv j.toInt)))) ∧
      (j = 0 → v.isInteger → ∃ x, result = .ok (.real x) ∧
        x = Double.ofInteger i / Double.ofInteger 0 ∧ (x.isInf ∨ x.isNaN)) ∧
      (result = .error (.numeric .divideByZero) ↔ j = 0 ∧ ¬ v.isInteger) ∧
      ∀ op l r, applyBinary op l r = .error (.numeric .divideByZero) →
        op = .modulus ∨ op = .divide ∧ ∃ k, l = .integer k ∧ r.isReal = false ∧
          r.isInteger = false ∧ r.toInteger? = some 0 := by
  obtain ⟨after, hevaluate, henv⟩ := exists_evaluate_operation rfl rfl hread ha hb
  refine ⟨_, after, hevaluate, henv, applyBinary_divide_of_ne_zero hreal hj, ?_, ?_,
    fun op l r h => applyBinary_eq_divideByZero h⟩
  · rintro rfl hinteger
    cases v with
    | integer k =>
      cases hj
      exact ⟨_, applyBinary_divide_zero i, rfl, Double.isInf_or_isNaN_div_zero _⟩
    | boolean | real | string | null => cases hinteger
  · constructor
    · intro h
      rcases applyBinary_eq_divideByZero h with hmodulus | ⟨-, k, -, -, hinteger, hzero⟩
      · cases hmodulus
      · exact ⟨Option.some.inj (hj.symm.trans hzero), by simp [hinteger]⟩
    · rintro ⟨rfl, hinteger⟩
      exact applyBinary_divide_of_reads_zero hreal (by simpa using hinteger) hj

def withDivisor (v : Value) : Session :=
  { env := { scope := { globals := [⟨"a", .own (.integer 5)⟩, ⟨"b", .own v⟩] } } }

/-- Five divided by `false` is refused, and the variables are kept. -/
theorem evaluate_quotient_withFalse :
    ∃ after, (∀ fuel, 1 ≤ fuel → (withDivisor (.boolean false)).evaluate fuel "a / b" =
        some (.error (.numeric .divideByZero), after)) ∧
      after.env = (withDivisor (.boolean false)).env := by
  have hread : (Tree.node .multiplicative [.leaf ⟨.name "a", 0⟩, .leaf ⟨.operator .divide, 2⟩,
      .leaf ⟨.name "b", 4⟩]).IsReadFrom "a / b" := ⟨_, by cbv, by cbv⟩
  obtain ⟨result, after, hevaluate, henv, -, -, hrefused, -⟩ :=
    @evaluate_quotient (withDivisor (.boolean false)) _ _ _ _ _ _ _ _ _ hread rfl rfl rfl rfl
  obtain rfl := hrefused.2 ⟨rfl, by decide⟩
  exact ⟨after, hevaluate, henv⟩

end Reckoner.Session
