import Reckoner.Proofs.Machine.Elements
import Reckoner.Proofs.Program.Joined

/-!
Comma lists. A list does to a session what its elements do when they are evaluated one after
another, and gives the same values, but for elements that are a variable: these are read when all
elements are done.
-/

namespace Reckoner.Session

open Machine Program

inductive EvaluatesInTurn : Session → List String → List Value → Session → Prop where
  | nil (s : Session) : EvaluatesInTurn s [] [] s
  | cons {s t u : Session} {fuel : Nat} {text : String} {texts : List String} {v : Value}
      {values : List Value} (h : s.evaluate fuel text = some (.ok v, t))
      (hmore : EvaluatesInTurn t texts values u) :
      EvaluatesInTurn s (text :: texts) (v :: values) u

/-- The text is a single expression, and its program leaves one entry. It would leave more if it had
brackets around a comma list and nothing that takes what is in them. -/
structure IsElement (text : String) (tree : Tree) : Prop where
  read : tree.IsReadFrom text
  single : tree.isList = false
  width : tree.width = 1

/-- A text that compiles is an element if it is no list and no brackets in it directly hold one. -/
theorem isElement_of_isPlain {registry : Registry} {text : String} {tree : Tree} {code : Program}
    (hread : tree.IsReadFrom text) (hcompile : compile registry tree = .ok code)
    (hplain : tree.isPlain) (hsingle : tree.isList = false) : IsElement text tree := by
  obtain ⟨tokens, htokens, hparse⟩ := hread
  refine ⟨⟨tokens, htokens, hparse⟩, hsingle, ?_⟩
  rw [width_of_isPlain (emits_of_parse hparse hcompile) hplain,
    Tree.elements_of_isList_eq_false hsingle, List.length_singleton]

/-- What an element of a list gives that is done: the value it had alone, or that of the variable
that it is. -/
def elementValue? (s : Session) (tree : Tree) (v : Value) : Option Value :=
  match tree.variable? with
  | some name => s.value? name
  | none => some v

variable {s t u : Session} {text : String} {texts : List String} {tree : Tree}
  {elements : List Tree} {v : Value} {values : List Value}

theorem value?_entryOf (s : Session) (tree : Tree) (v : Value) :
    (entryOf tree v).value? s.env = s.elementValue? tree v := by
  unfold entryOf elementValue?
  cases tree.variable? <;> rfl

theorem compileText_of_eq_ok {program : Program}
    (h : Machine.compileText s.env.registry text = .ok program) :
    s.compileText text = (.ok program, s) := by
  obtain ⟨tree, ⟨tokens, htokens, hparse⟩, hcompile⟩ := compileText_eq_ok.1 h
  simp only [compileText, htokens, hparse, hcompile, reporting]

theorem getLast?_of_lastOf (h : Execution.lastOf values = .ok v) : values.getLast? = some v := by
  unfold Execution.lastOf at h
  cases hlast : values.getLast? <;> rw [hlast] at h <;> cases h
  rfl

/-- An element that gives a value alone leaves its entry. -/
theorem exists_performs_of_evaluate (helement : IsElement text tree) {fuel : Nat}
    (h : s.evaluate fuel text = some (.ok v, t)) :
    ∃ code, compile s.env.registry tree = .ok code ∧
      Performs code [entryOf tree v] s.env t.env ∧ t = { s with env := t.env } := by
  obtain ⟨tokens, htokens, hparse⟩ := helement.read
  cases hcompile : compile s.env.registry tree with
  | error e => simp [evaluate, compileText, htokens, hparse, hcompile, reporting] at h
  | ok code =>
    simp only [evaluate, compileText, htokens, hparse, hcompile, reporting, execute, executeAll,
      execution, Option.map_map] at h
    obtain ⟨⟨⟨all, failure⟩, env, journal⟩, hrun, hresult⟩ := Option.map_eq_some_iff.1 h
    cases failure with
    | some error => cases hresult
    | none =>
      obtain ⟨hlast, rfl⟩ := Prod.mk.inj hresult
      have hemits := emits_of_parse hparse hcompile
      exact ⟨code, rfl, performs_of_run hemits helement.width hrun (getLast?_of_lastOf hlast), rfl⟩

/-- Elements that are evaluated one after another leave their entries behind what is there. -/
theorem exists_performs_of_evaluatesInTurn (hturn : EvaluatesInTurn t texts values u)
    (helements : List.Forall₂ IsElement texts elements) {joined : String} {code : Program}
    {slots : List Slot} (hcompile : Machine.compileText s.env.registry joined = .ok code)
    (hperforms : Performs code slots s.env t.env) :
    ∃ code', Machine.compileText s.env.registry (", ".intercalate (joined :: texts)) = .ok code' ∧
      Performs code' (slots ++ List.zipWith entryOf elements values) s.env u.env ∧
      u = { t with env := u.env } := by
  -- What was joined so far grows by one text with each step, as the comma groups to the left.
  induction hturn generalizing elements joined code slots with
  | nil =>
    cases helements
    exact ⟨code, hcompile, by simpa using hperforms, rfl⟩
  | @cons _ _ _ _ text texts v values h _ ih =>
    cases helements with
    | @cons _ tree _ elements helement hmore =>
      obtain ⟨code', hcode', hperforms', hafter⟩ := exists_performs_of_evaluate helement h
      have hchoices := sameChoices_of_reset_eq hperforms.keeps.reset
      obtain ⟨tokens, htokens, hparse⟩ := helement.read
      obtain ⟨_, hemits⟩ := emits_of_compileText hcompile
      have hjoined := compileText_comma hcompile helement.read helement.single
        ((compile_congr hchoices tree).symm.trans hcode')
      have hboth := hperforms.comma hemits (emits_of_parse hparse hcode') hperforms'
      obtain ⟨whole, hwhole, hall, hend⟩ := ih hmore hjoined hboth
      refine ⟨whole, hwhole, ?_, ?_⟩
      · rwa [List.append_assoc] at hall
      · rw [hend, hafter]

theorem EvaluatesInTurn.length_eq (h : EvaluatesInTurn s texts values u) :
    values.length = texts.length := by
  induction h with
  | nil => rfl
  | cons _ _ ih => rw [List.length_cons, List.length_cons, ih]

/-- A comma list evaluates element by element. If its elements give values when they are evaluated
one after another, then the list gives as many values and ends in the same session. They are the
values of the elements, in order, but for the elements that are a variable. Such an element gives
the value that the variable has when the whole list is done. It is read that much later, which makes
no difference to others because reading a variable, a shared one included, has no effect. -/
theorem evaluateAll_intercalate (hne : texts ≠ [])
    (helements : List.Forall₂ IsElement texts elements) (hturn : EvaluatesInTurn s texts values u) :
    ∃ results : List Value, results.length = texts.length ∧
      results.map some = List.zipWith u.elementValue? elements values ∧
      ∃ enough, ∀ fuel, enough ≤ fuel →
        s.evaluateAll fuel (", ".intercalate texts) = some (.ok results, u) := by
  have hlength := hturn.length_eq
  have hlength' := helements.length_eq
  cases hturn with
  | nil => exact absurd rfl hne
  | @cons _ _ _ _ text texts v values h hmore =>
    cases helements with
    | @cons _ tree _ elements helement helements =>
      obtain ⟨code, hcode, hperforms, hafter⟩ := exists_performs_of_evaluate helement h
      obtain ⟨whole, hwhole, hall, hend⟩ := exists_performs_of_evaluatesInTurn hmore helements
        (compileText_eq_ok.2 ⟨tree, helement.read, hcode⟩) hperforms
      obtain ⟨results, hresults, enough, hrun⟩ := hall.exists_run
      have hvalues : results.map some =
          List.zipWith u.elementValue? (tree :: elements) (v :: values) := by
        rw [hresults, List.singleton_append, ← List.zipWith_cons_cons, List.map_zipWith]
        simp only [value?_entryOf]
      refine ⟨results, ?_, hvalues, enough, fun fuel hle => ?_⟩
      · have hcount := congrArg List.length hvalues
        rw [List.length_map, List.length_zipWith, hlength, ← hlength', Nat.min_self] at hcount
        exact hcount
      · obtain ⟨journal, hrun⟩ := hrun fuel hle
        rw [evaluateAll, compileText_of_eq_ok hwhole]
        simp only [executeAll, execution, hrun, Option.map_some, reporting, Execution.all]
        rw [hend, hafter]

def withX (i : Int64) : Session :=
  { env := { scope := { globals := [⟨"x", .own (.integer i)⟩] } } }

theorem isElement_x : IsElement "x" (.leaf ⟨.name "x", 0⟩) :=
  ⟨⟨[⟨.name "x", 0⟩], by cbv, by cbv⟩, rfl, by cbv⟩

theorem isElement_assignX :
    IsElement "x = 5" (.node .assignment
      [.leaf ⟨.name "x", 0⟩, .leaf ⟨.operator .assign, 2⟩, .leaf ⟨.integer 5, 4⟩]) :=
  ⟨⟨[⟨.name "x", 0⟩, ⟨.operator .assign, 2⟩, ⟨.integer 5, 4⟩], by cbv, by cbv⟩, rfl, by cbv⟩

theorem evaluatesInTurn_x :
    EvaluatesInTurn (withX 1) ["x", "x = 5"] [.integer 1, .integer 5] (withX 5) := by
  have hx : (withX 1).evaluate 1 "x" = some (.ok (.integer 1), withX 1) := by cbv
  have hassign : (withX 1).evaluate 1 "x = 5" = some (.ok (.integer 5), withX 5) := by cbv
  exact .cons hx (.cons hassign (.nil _))

/-- The variable has its new value when the list is done. -/
theorem evaluateAll_of_later_assignment :
    ∃ enough, ∀ fuel, enough ≤ fuel → (withX 1).evaluateAll fuel "x, x = 5" =
      some (.ok [.integer 5, .integer 5], withX 5) := by
  obtain ⟨results, -, hvalues, enough, h⟩ := evaluateAll_intercalate (List.cons_ne_nil _ _)
    (.cons isElement_x (.cons isElement_assignX .nil)) evaluatesInTurn_x
  have hresults : results.map some = [Value.integer 5, .integer 5].map some := by
    rw [hvalues]
    cbv
  obtain rfl := List.map_injective_iff.2 (Option.some_injective _) hresults
  exact ⟨enough, h⟩

/-- So a list does not always give the values that its elements give one after another. -/
theorem not_forall_evaluateAll_in_turn :
    ¬ ∀ (s u : Session) (texts : List String) (values : List Value), texts ≠ [] →
      (∀ text ∈ texts, ∃ tree : Tree, tree.IsReadFrom text ∧ tree.isList = false) →
      EvaluatesInTurn s texts values u →
      ∃ fuel after, s.evaluateAll fuel (", ".intercalate texts) = some (.ok values, after) ∧
        ∀ name, after.value? name = u.value? name := by
  intro hall
  have hread : ∀ text ∈ ["x", "x = 5"],
      ∃ tree : Tree, tree.IsReadFrom text ∧ tree.isList = false := by
    simp only [List.forall_mem_cons]
    exact ⟨⟨_, isElement_x.read, rfl⟩, ⟨_, isElement_assignX.read, rfl⟩, List.forall_mem_nil _⟩
  obtain ⟨fuel, after, h, -⟩ := hall _ _ _ _ (List.cons_ne_nil _ _) hread evaluatesInTurn_x
  cases fuel with
  | zero =>
    have hnone : (withX 1).evaluateAll 0 "x, x = 5" = none := by cbv
    have hsame := hnone.symm.trans h
    cases hsame
  | succ fuel =>
    have hresult : (withX 1).evaluateAll (fuel + 1) "x, x = 5" =
        some (.ok [.integer 5, .integer 5], withX 5) := by cbv
    have hsame := hresult.symm.trans h
    simp at hsame

end Reckoner.Session
